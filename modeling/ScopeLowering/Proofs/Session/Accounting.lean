import ScopeLowering.Proofs.Session.Intake

/-!
# Accounts of a run

Every path of a run ends in one way. The report counts the ends, and the log has one line for each
end that is worth one: first those of reading, then those of handling the sources that were read.
-/

namespace ScopeLowering.Session

open ScopeLowering.Files (Tree)
open ScopeLowering.Output (Destination World)

inductive Ending where
  | unreadable (failure : Failure)
  | generated
  | hibernated
  | handled (outcome : Outcome)
deriving DecidableEq, Repr

namespace Ending

def report : Ending → Report
  | .unreadable _ => { Report.empty with failed := 1 }
  | .generated => { Report.empty with generated := 1 }
  | .hibernated => { Report.empty with hibernated := 1 }
  | .handled outcome => Report.empty.count outcome

def isEarly : Ending → Bool
  | .unreadable _ => true
  | .generated => true
  | .hibernated => false
  | .handled _ => false

def isWritten : Ending → Bool
  | .handled (.written _) => true
  | _ => false

def line? (path : String) : Ending → Option Log.Line
  | .unreadable failure => some ⟨.warn, s!"Skipping source: {failure.message}"⟩
  | .generated => some ⟨.debug, s!"Skipping generated file {path}"⟩
  | .handled .withoutScope => some ⟨.debug, s!"No @scope block in {path}"⟩
  | .handled (.failed failure) => some ⟨.error, failure.message⟩
  | .handled (.written (.file file)) => some ⟨.info, s!"Polyfilled {path} -> {file}"⟩
  | .handled (.written .standardOutput) => none
  | .handled .unchanged => none
  | .hibernated => none

end Ending

section

variable [TextHash]

/-- A path is read in the tree that was there before the run. Its source is handled unless the
session hibernates or knew its text before the run. -/
def turn (before : Session) (tree : Tree) (progress : Progress) (path : String) :
    Ending × Progress :=
  match Source.read tree path with
  | .error failure => (.unreadable failure, progress)
  | .ok none => (.generated, progress)
  | .ok (some source) =>
      if before.hibernating then (.hibernated, progress)
      else if before.isUnchanged source then (.handled .unchanged, progress)
      else (.handled (progress.outcome source), progress.handle source)

def turns (before : Session) (tree : Tree) (progress : Progress) : List String →
    List (String × Ending)
  | [] => []
  | path :: paths =>
      (path, (turn before tree progress path).1) ::
        turns before tree (turn before tree progress path).2 paths

def endings (session : Session) (world : World) (paths : List String) : List (String × Ending) :=
  session.turns world.tree (.start session (takeIn world paths).world) paths

variable {before : Session} {tree : Tree} {path : String}

theorem turn_of_unsourced (before : Session) (progress : Progress)
    (missing : source? tree path = none) :
    (turn before tree progress path).1.isEarly = true ∧
      (turn before tree progress path).2 = progress := by
  unfold source? at missing
  unfold turn
  cases found : Source.read tree path with
  | error failure => exact ⟨rfl, rfl⟩
  | ok result =>
      rw [found] at missing
      obtain rfl : result = none := missing
      exact ⟨rfl, rfl⟩

theorem turn_of_source {source : Source} (progress : Progress)
    (present : source? tree path = some source) :
    turn before tree progress path =
      if before.hibernating then (.hibernated, progress)
      else if before.isUnchanged source then (.handled .unchanged, progress)
      else (.handled (progress.outcome source), progress.handle source) := by
  unfold source? at present
  unfold turn
  cases found : Source.read tree path with
  | error failure =>
      rw [found] at present
      cases present
  | ok result =>
      rw [found] at present
      obtain rfl : result = some source := present
      rfl

theorem map_fst_turns (before : Session) (tree : Tree) (progress : Progress)
    (paths : List String) : (turns before tree progress paths).map Prod.fst = paths := by
  induction paths generalizing progress with
  | nil => rfl
  | cons path paths ih => rw [turns, List.map_cons, ih]

end

/-! ## Sums of reports -/

namespace Report

def sum (reports : List Report) : Report := reports.foldr merge empty

theorem empty_merge (report : Report) : empty.merge report = report := by
  simp [merge, empty]

theorem merge_left_comm {first : Report} (unwritten : first.written = [])
    (second third : Report) :
    second.merge (first.merge third) = first.merge (second.merge third) := by
  rw [← merge_assoc, ← merge_comm_of_unwritten unwritten, merge_assoc]

theorem count_eq_merge (report : Report) (outcome : Outcome) :
    report.count outcome = report.merge (empty.count outcome) := by
  cases outcome <;> simp [count, merge, empty]

end Report

def tally (endings : List (String × Ending)) : Report :=
  Report.sum (endings.map fun entry => entry.2.report)

def lines (endings : List (String × Ending)) : List Log.Line :=
  endings.filterMap fun entry => entry.2.line? entry.1

def early (endings : List (String × Ending)) : List (String × Ending) :=
  endings.filter fun entry => entry.2.isEarly

def late (endings : List (String × Ending)) : List (String × Ending) :=
  endings.filter fun entry => !entry.2.isEarly

theorem tally_cons (entry : String × Ending) (endings : List (String × Ending)) :
    tally (entry :: endings) = entry.2.report.merge (tally endings) := rfl

theorem lines_cons (path : String) (ending : Ending) (endings : List (String × Ending)) :
    lines ((path, ending) :: endings) = (ending.line? path).toList ++ lines endings := by
  rw [lines, List.filterMap_cons]
  cases ending.line? path <;> rfl

theorem early_cons (entry : String × Ending) (endings : List (String × Ending)) :
    early (entry :: endings) =
      if entry.2.isEarly then entry :: early endings else early endings :=
  List.filter_cons

theorem late_cons (entry : String × Ending) (endings : List (String × Ending)) :
    late (entry :: endings) = if entry.2.isEarly then late endings else entry :: late endings := by
  rw [late, List.filter_cons]
  cases entry.2.isEarly <;> rfl

/-- What ends in reading is no success of any kind. -/
theorem quiet_tally_early (endings : List (String × Ending)) :
    (tally (early endings)).written = [] ∧ (tally (early endings)).withoutScope = 0 ∧
      (tally (early endings)).unchanged = 0 := by
  induction endings with
  | nil => exact ⟨rfl, rfl, rfl⟩
  | cons entry endings ih =>
      obtain ⟨written, plain, unchanged⟩ := ih
      rw [early_cons]
      split
      · rename_i soon
        rw [tally_cons, Report.merge]
        simp only [written, plain, unchanged]
        rcases entry with ⟨path, _ | _ | _ | _⟩
        · exact ⟨rfl, rfl, rfl⟩
        · exact ⟨rfl, rfl, rfl⟩
        · cases soon
        · cases soon
      · exact ⟨written, plain, unchanged⟩

/-- What ends in reading writes nothing, so it may be reported first. -/
theorem tally_early_merge_late (endings : List (String × Ending)) :
    (tally (early endings)).merge (tally (late endings)) = tally endings := by
  induction endings with
  | nil => exact Report.merge_empty _
  | cons entry endings ih =>
      rw [early_cons, late_cons, tally_cons]
      cases entry.2.isEarly with
      | true => rw [if_pos rfl, if_pos rfl, tally_cons, Report.merge_assoc, ih]
      | false =>
          rw [if_neg Bool.false_ne_true, if_neg Bool.false_ne_true, tally_cons,
            ← Report.merge_left_comm (quiet_tally_early endings).1, ih]

theorem lines_early_append_late_perm (endings : List (String × Ending)) :
    (lines (early endings) ++ lines (late endings)).Perm (lines endings) := by
  have parts : (early endings ++ late endings).Perm endings := List.filter_append_perm _ endings
  rw [lines, lines, ← List.filterMap_append]
  exact parts.filterMap _

/-! ## The loop that reads -/

section

variable [TextHash]

/-- A path is reported and logged when it is read, or belongs to the batch. -/
theorem Intake.account_read (intake : Intake) (before : Session) (progress : Progress)
    (path : String) {ending : Ending}
    (ends : (turn before intake.world.tree progress path).1 = ending) :
    (ending.isEarly = true ∧ (intake.read path).report = intake.report.merge ending.report ∧
      (intake.read path).world.log = intake.world.log ++ (ending.line? path).toList) ∨
    (ending.isEarly = false ∧ (intake.read path).report = intake.report ∧
      (intake.read path).world.log = intake.world.log) := by
  subst ends
  unfold turn Intake.read
  cases Source.read intake.world.tree path with
  | error failure => exact .inl ⟨rfl, by simp [Report.merge, Report.empty, Ending.report], rfl⟩
  | ok found =>
      cases found with
      | none => exact .inl ⟨rfl, by simp [Report.merge, Report.empty, Ending.report], rfl⟩
      | some source =>
          refine .inr ⟨?_, rfl, rfl⟩
          dsimp only
          split
          · rfl
          · split <;> rfl

theorem Intake.account_foldl_read (intake : Intake) (before : Session) (progress : Progress)
    (paths : List String) :
    (paths.foldl Intake.read intake).report = intake.report.merge
        (tally (early (turns before intake.world.tree progress paths))) ∧
      (paths.foldl Intake.read intake).world.log = intake.world.log ++
        lines (early (turns before intake.world.tree progress paths)) := by
  induction paths generalizing intake progress with
  | nil => exact ⟨(Report.merge_empty _).symm, (List.append_nil _).symm⟩
  | cons path paths ih =>
      obtain ⟨report, log⟩ := ih (intake.read path) (turn before intake.world.tree progress path).2
      rw [Intake.tree_read] at report log
      rw [List.foldl_cons, report, log, turns, early_cons]
      rcases intake.account_read before progress path rfl with
        ⟨soon, counted, logged⟩ | ⟨later, counted, logged⟩
      · rw [if_pos soon, tally_cons, lines_cons, counted, logged, Report.merge_assoc,
          List.append_assoc]
        exact ⟨rfl, rfl⟩
      · rw [if_neg (by simp [later]), counted, logged]
        exact ⟨rfl, rfl⟩

/-! ## The loop that handles -/

/-- Handling a source logs the line of its outcome. -/
theorem Progress.log_handle (progress : Progress) (source : Source) :
    (progress.handle source).world.log = progress.world.log ++
      ((Ending.handled (progress.outcome source)).line? source.origin).toList := by
  have handled := progress.handles source
  generalize progress.outcome source = outcome, progress.handle source = after at handled
  cases handled with
  | withoutScope plain => rfl
  | refused lowered owned => rfl
  | written lowered acquired delivered =>
      have quiet := World.log_of_deliver delivered
      cases progress.session.layout.destination source.origin with
      | standardOutput => exact quiet.trans (List.append_nil _).symm
      | file path => exact congrArg (· ++ _) quiet
  | undelivered lowered acquired failed => exact congrArg (· ++ _) (World.log_of_deliver failed)

theorem passedOver_cons (session : Session) (source : Source) (sources : List Source) :
    session.passedOver (source :: sources) =
      if session.isUnchanged source then
        (Report.empty.count .unchanged).merge (session.passedOver sources)
      else session.passedOver sources := by
  have shorter := session.length_fresh_le sources
  cases known : session.isUnchanged source with
  | true =>
      have fresh : session.fresh (source :: sources) = session.fresh sources := by
        simp [Session.fresh, known]
      rw [if_pos rfl, passedOver, passedOver, fresh]
      simp only [Report.merge, Report.count, Report.empty, List.length_cons, List.append_nil]
      congr 1
      omega
  | false =>
      have fresh : session.fresh (source :: sources) = source :: session.fresh sources := by
        simp [Session.fresh, known]
      rw [if_neg Bool.false_ne_true, passedOver, passedOver, fresh, List.length_cons,
        List.length_cons, Nat.add_sub_add_right]

theorem fresh_cons (session : Session) (source : Source) (sources : List Source) :
    session.fresh (source :: sources) =
      if session.isUnchanged source then session.fresh sources
      else source :: session.fresh sources := by
  rw [fresh, List.filter_cons]
  cases session.isUnchanged source <;> rfl

/-- What handling the sources of some paths adds to a report and to a log. -/
theorem account_foldl_handle {before : Session} (awake : before.hibernating = false) (tree : Tree)
    (progress : Progress) (paths : List String) :
    (before.passedOver (paths.filterMap (source? tree))).merge
        ((before.fresh (paths.filterMap (source? tree))).foldl Progress.handle progress).report =
      progress.report.merge (tally (late (turns before tree progress paths))) ∧
    ((before.fresh (paths.filterMap (source? tree))).foldl Progress.handle progress).world.log =
      progress.world.log ++ lines (late (turns before tree progress paths)) := by
  induction paths generalizing progress with
  | nil => exact ⟨Report.merge_comm_of_unwritten rfl, (List.append_nil _).symm⟩
  | cons path paths ih =>
      rw [turns, late_cons, List.filterMap_cons]
      cases found : source? tree path with
      | none =>
          obtain ⟨soon, same⟩ := turn_of_unsourced before progress found
          rw [if_pos soon, same]
          exact ih progress
      | some source =>
          have named : source.origin = path := (source?_eq_some_iff.mp found).1
          rw [turn_of_source progress found, awake, if_neg Bool.false_ne_true]
          dsimp only
          rw [passedOver_cons, fresh_cons]
          by_cases known : before.isUnchanged source = true
          · obtain ⟨report, log⟩ := ih progress
            simp only [if_pos known]
            rw [Report.merge_assoc, report, log, if_neg (by simp [Ending.isEarly]), tally_cons,
              lines_cons]
            exact ⟨(Report.merge_left_comm rfl _ _).symm, rfl⟩
          · obtain ⟨report, log⟩ := ih (progress.handle source)
            simp only [if_neg known, List.foldl_cons]
            rw [report, log, Progress.report_handle, Progress.log_handle, named,
              if_neg (by simp [Ending.isEarly]), tally_cons, lines_cons, Report.count_eq_merge,
              Report.merge_assoc, List.append_assoc]
            exact ⟨rfl, rfl⟩

/-- A session that hibernates counts its sources. -/
theorem account_hibernating {before : Session} (asleep : before.hibernating = true) (tree : Tree)
    (progress : Progress) (paths : List String) :
    tally (late (turns before tree progress paths)) =
        { Report.empty with hibernated := (paths.filterMap (source? tree)).length } ∧
      lines (late (turns before tree progress paths)) = [] := by
  induction paths generalizing progress with
  | nil => exact ⟨rfl, rfl⟩
  | cons path paths ih =>
      rw [turns, late_cons, List.filterMap_cons]
      cases found : source? tree path with
      | none =>
          obtain ⟨soon, same⟩ := turn_of_unsourced before progress found
          rw [if_pos soon, same]
          exact ih progress
      | some source =>
          obtain ⟨report, log⟩ := ih progress
          rw [turn_of_source progress found, if_pos asleep, if_neg (by simp [Ending.isEarly]),
            tally_cons, lines_cons, report, log]
          refine ⟨?_, rfl⟩
          simp [Ending.report, Report.merge, Report.empty, Nat.add_comm]

/-! ## Runs -/

/-- The report on a run counts the ends of its paths, and its log has their lines. -/
theorem account_lowerFiles (session : Session) (world : World) (paths : List String) :
    (session.lowerFiles world paths).report = tally (session.endings world paths) ∧
      (session.lowerFiles world paths).world.log = world.log ++
        (lines (early (session.endings world paths)) ++
          lines (late (session.endings world paths))) := by
  obtain ⟨read, noted⟩ := Intake.account_foldl_read ⟨[], world, Report.empty⟩ session
    (.start session (takeIn world paths).world) paths
  change (takeIn world paths).report =
    Report.empty.merge (tally (early (session.endings world paths))) at read
  change (takeIn world paths).world.log =
    world.log ++ lines (early (session.endings world paths)) at noted
  have merged : (session.lowerFiles world paths).report = (takeIn world paths).report.merge
      (session.lowerSources (takeIn world paths).world (takeIn world paths).sources).report := rfl
  have logged : (session.lowerFiles world paths).world =
      (session.lowerSources (takeIn world paths).world (takeIn world paths).sources).world := rfl
  rw [Report.empty_merge] at read
  rw [merged, logged, read, ← tally_early_merge_late (session.endings world paths), sources_takeIn,
    ← List.append_assoc, ← noted]
  cases asleep : session.hibernating with
  | true =>
      obtain ⟨counted, silent⟩ := account_hibernating asleep world.tree
        (.start session (takeIn world paths).world) paths
      rw [lowerSources, if_pos asleep, endings, counted, silent, List.append_nil]
      exact ⟨rfl, rfl⟩
  | false =>
      obtain ⟨counted, added⟩ := account_foldl_handle asleep world.tree
        (.start session (takeIn world paths).world) paths
      rw [lowerSources_eq_after asleep]
      exact ⟨congrArg _ (counted.trans (Report.empty_merge _)), added⟩

end

/-! ## Counts -/

/-- Every count of complaints and successes has its lines in a log. -/
structure Report.Logged (report : Report) (lines : List Log.Line) : Prop where
  debug : lines.countP (fun line => line.level = .debug) = report.generated + report.withoutScope
  complaints : lines.countP (fun line => line.level = .warn || line.level = .error) =
    report.failed
  info : lines.countP (fun line => line.level = .info) =
    report.written.countP fun destination => destination ≠ .standardOutput

theorem Report.Logged.append {first second : Report} {lines others : List Log.Line}
    (left : first.Logged lines) (right : second.Logged others) :
    (first.merge second).Logged (lines ++ others) := by
  refine ⟨?_, ?_, ?_⟩
  · rw [List.countP_append, left.debug, right.debug]
    simp only [merge]
    omega
  · rw [List.countP_append, left.complaints, right.complaints]
    rfl
  · rw [List.countP_append, left.info, right.info]
    exact List.countP_append.symm

theorem Report.Logged.perm {report : Report} {lines others : List Log.Line}
    (logged : report.Logged lines) (same : lines.Perm others) : report.Logged others :=
  ⟨(same.countP_eq _).symm.trans logged.debug, (same.countP_eq _).symm.trans logged.complaints,
    (same.countP_eq _).symm.trans logged.info⟩

theorem Ending.logged (path : String) (ending : Ending) :
    ending.report.Logged (ending.line? path).toList := by
  rcases ending with _ | _ | _ | (_ | _ | (_ | _) | _) <;> exact ⟨rfl, rfl, rfl⟩

theorem logged_tally (endings : List (String × Ending)) :
    (tally endings).Logged (lines endings) := by
  induction endings with
  | nil => exact ⟨rfl, rfl, rfl⟩
  | cons entry endings ih =>
      rw [tally_cons, lines_cons]
      exact (entry.2.logged entry.1).append ih

theorem Report.total_merge (first second : Report) :
    (first.merge second).total = first.total + second.total := by
  simp only [total, transformed, merge, List.length_append]
  omega

theorem total_tally (endings : List (String × Ending)) :
    (tally endings).total = endings.length := by
  induction endings with
  | nil => rfl
  | cons entry endings ih =>
      have one : entry.2.report.total = 1 := by
        rcases entry with ⟨path, _ | _ | _ | (_ | _ | _ | _)⟩ <;> rfl
      rw [tally_cons, Report.total_merge, one, ih, List.length_cons, Nat.add_comm]

theorem Intake.printed_foldl_read (intake : Intake) (paths : List String) :
    (paths.foldl Intake.read intake).world.printed = intake.world.printed := by
  induction paths generalizing intake with
  | nil => rfl
  | cons path paths ih =>
      rw [List.foldl_cons, ih, Intake.read]
      split <;> rfl

variable [TextHash]

/-- A turn keeps the layout and writes the destination that the layout has for the path. -/
theorem layout_turn (before : Session) (tree : Tree) (progress : Progress) (path : String) :
    (turn before tree progress path).2.session.layout = progress.session.layout ∧
      (turn before tree progress path).1.report.written =
        if (turn before tree progress path).1.isWritten then
          [progress.session.layout.destination path]
        else [] := by
  cases found : source? tree path with
  | none =>
      obtain ⟨soon, same⟩ := turn_of_unsourced before progress found
      rw [same]
      refine ⟨rfl, ?_⟩
      cases ending : (turn before tree progress path).1 with
      | unreadable failure => rfl
      | generated => rfl
      | hibernated => rfl
      | handled outcome => simp [ending, Ending.isEarly] at soon
  | some source =>
      obtain rfl := (source?_eq_some_iff.mp found).1
      rw [turn_of_source progress found]
      split
      · exact ⟨rfl, rfl⟩
      · split
        · exact ⟨rfl, rfl⟩
        · refine ⟨progress.layout_handle source, ?_⟩
          have handled := progress.handles source
          generalize progress.outcome source = outcome, progress.handle source = after at handled
          cases handled <;> rfl

theorem written_tally_turns (before : Session) (tree : Tree) (progress : Progress)
    (paths : List String) : (tally (turns before tree progress paths)).written =
      ((turns before tree progress paths).filter fun entry => entry.2.isWritten).map
        fun entry => progress.session.layout.destination entry.1 := by
  induction paths generalizing progress with
  | nil => rfl
  | cons path paths ih =>
      obtain ⟨layout, written⟩ := layout_turn before tree progress path
      rw [turns, tally_cons, Report.merge, ih, layout, written, List.filter_cons]
      cases (turn before tree progress path).1.isWritten <;> rfl

theorem hibernated_tally_turns {before : Session} (awake : before.hibernating = false)
    (tree : Tree) (progress : Progress) (paths : List String) :
    (tally (turns before tree progress paths)).hibernated = 0 := by
  induction paths generalizing progress with
  | nil => rfl
  | cons path paths ih =>
      have handled (outcome : Outcome) : (Ending.handled outcome).report.hibernated = 0 := by
        cases outcome <;> rfl
      have none : (turn before tree progress path).1.report.hibernated = 0 := by
        unfold turn
        rw [awake]
        split
        · rfl
        · rfl
        · rw [if_neg Bool.false_ne_true]
          split
          · exact handled _
          · exact handled _
      rw [turns, tally_cons, Report.merge, ih, none]

/-- A session that hibernates reads its paths and does nothing else. -/
theorem lowerFiles_of_hibernating {session : Session} (asleep : session.hibernating = true)
    (world : World) (paths : List String) :
    (session.lowerFiles world paths).session = session ∧
      (session.lowerFiles world paths).world = (takeIn world paths).world := by
  have handled : session.lowerSources (takeIn world paths).world (takeIn world paths).sources =
      ⟨session, (takeIn world paths).world,
        { Report.empty with hibernated := (takeIn world paths).sources.length }⟩ := by
    rw [lowerSources, if_pos asleep]
  exact ⟨congrArg Progress.session handled, congrArg Progress.world handled⟩

/-- Every path of a run ends in one way, and the report counts the ends. A session that
hibernates does nothing but read. The log has a line for every path that is counted as generated,
without scope blocks, failed or written to a file, and what is written are the destinations of the
paths for which rules are written, in their order. -/
theorem lowerFiles_accounts (session : Session) (world : World) (paths : List String) :
    (session.lowerFiles world paths).report.total = paths.length ∧
    (session.hibernating = false → (session.lowerFiles world paths).report.hibernated = 0) ∧
    (session.hibernating = true →
      (session.lowerFiles world paths).report.transformed = 0 ∧
      (session.lowerFiles world paths).report.withoutScope = 0 ∧
      (session.lowerFiles world paths).report.unchanged = 0 ∧
      (session.lowerFiles world paths).session = session ∧
      (session.lowerFiles world paths).world.tree = world.tree ∧
      (session.lowerFiles world paths).world.printed = world.printed) ∧
    (∃ lines, (session.lowerFiles world paths).world.log = world.log ++ lines ∧
      (session.lowerFiles world paths).report.Logged lines) ∧
    (session.endings world paths).map Prod.fst = paths ∧
    (session.lowerFiles world paths).report = tally (session.endings world paths) ∧
    (session.lowerFiles world paths).report.written =
      ((session.endings world paths).filter fun entry => entry.2.isWritten).map
        fun entry => session.layout.destination entry.1 := by
  obtain ⟨report, log⟩ := account_lowerFiles session world paths
  have each : (session.endings world paths).map Prod.fst = paths := map_fst_turns ..
  refine ⟨?_, ?_, ?_, ⟨_, log, ?_⟩, each, report, ?_⟩
  · rw [report, total_tally, ← List.length_map (f := Prod.fst), each]
  · intro awake
    rw [report]
    exact hibernated_tally_turns awake _ _ _
  · intro asleep
    obtain ⟨sessionSame, worldSame⟩ := lowerFiles_of_hibernating asleep world paths
    obtain ⟨written, plain, unchanged⟩ := quiet_tally_early (session.endings world paths)
    have late := (account_hibernating asleep world.tree
      (.start session (takeIn world paths).world) paths).1
    rw [report, ← tally_early_merge_late, endings, late, worldSame, tree_takeIn]
    have nothing : (tally (early (session.endings world paths))).written ++ [] = [] := by
      rw [written, List.append_nil]
    exact ⟨congrArg List.length nothing, plain, unchanged, sessionSame, rfl,
      Intake.printed_foldl_read _ _⟩
  · rw [report]
    exact (logged_tally _).perm (lines_early_append_late_perm _).symm
  · rw [report]
    exact written_tally_turns ..

end ScopeLowering.Session
