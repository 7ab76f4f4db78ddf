import ScopeLowering.Session

/-!
# Outcomes of a batch

Every source of a batch meets one outcome, and the report counts the outcomes. What the
handling of one source does to a session and its world is stated once, by cases.
-/

namespace ScopeLowering.Session

open ScopeLowering.Output (Destination World)

inductive Outcome where
  | unchanged
  | withoutScope
  | written (destination : Destination)
  | failed (failure : Failure)
deriving DecidableEq, Repr

def Report.count (report : Report) : Outcome → Report
  | .unchanged => { report with unchanged := report.unchanged + 1 }
  | .withoutScope => { report with withoutScope := report.withoutScope + 1 }
  | .written destination => { report with written := report.written ++ [destination] }
  | .failed _ => { report with failed := report.failed + 1 }

def Report.ofOutcomes (outcomes : List Outcome) : Report := outcomes.foldl Report.count .empty

theorem foldl_count_unchanged (report : Report) (count : Nat) :
    (List.replicate count Outcome.unchanged).foldl Report.count report =
      { report with unchanged := report.unchanged + count } := by
  induction count generalizing report with
  | zero => rfl
  | succ count ih =>
      rw [List.replicate_succ, List.foldl_cons, ih, Report.count, Nat.add_right_comm]
      rfl

variable [TextHash]

namespace Progress

def outcome (progress : Progress) (source : Source) : Outcome :=
  match Stylesheet.lower? source.text.toList with
  | none => .withoutScope
  | some css =>
      let destination := progress.session.layout.destination source.origin
      match progress.session.acquire source.origin destination with
      | .error failure => .failed failure
      | .ok _ =>
          match progress.world.deliver destination (String.ofList css) with
          | (_, none) => .written destination
          | (_, some failure) => .failed failure

/-- All that the handling of a source can do. -/
inductive Handles (progress : Progress) (source : Source) : Outcome → Progress → Prop where
  | withoutScope (plain : Stylesheet.lower? source.text.toList = none) :
      Handles progress source .withoutScope (progress.skip source)
  | refused {css : List Char} {failure : Failure}
      (lowered : Stylesheet.lower? source.text.toList = some css)
      (owned : progress.session.acquire source.origin
        (progress.session.layout.destination source.origin) = .error failure) :
      Handles progress source (.failed failure) (progress.fail failure)
  | written {css : List Char} {session : Session} {world : World}
      (lowered : Stylesheet.lower? source.text.toList = some css)
      (acquired : progress.session.acquire source.origin
        (progress.session.layout.destination source.origin) = .ok session)
      (delivered : progress.world.deliver
        (progress.session.layout.destination source.origin) (String.ofList css) = (world, none)) :
      Handles progress source
        (.written (progress.session.layout.destination source.origin))
        ({ progress with session, world }.succeed source
          (progress.session.layout.destination source.origin))
  | undelivered {css : List Char} {session : Session} {world : World} {failure : Failure}
      (lowered : Stylesheet.lower? source.text.toList = some css)
      (acquired : progress.session.acquire source.origin
        (progress.session.layout.destination source.origin) = .ok session)
      (failed : progress.world.deliver
        (progress.session.layout.destination source.origin) (String.ofList css) =
          (world, some failure)) :
      Handles progress source (.failed failure)
        ({ progress with session, world }.fail failure)

theorem handles (progress : Progress) (source : Source) :
    Handles progress source (progress.outcome source) (progress.handle source) := by
  cases lowered : Stylesheet.lower? source.text.toList with
  | none =>
      simp only [outcome, handle, lowered]
      exact .withoutScope lowered
  | some css =>
      cases acquired : progress.session.acquire source.origin
          (progress.session.layout.destination source.origin) with
      | error failure =>
          simp only [outcome, handle, deliver, lowered, acquired]
          exact .refused lowered acquired
      | ok session =>
          obtain ⟨world, result, delivered⟩ : ∃ world result, progress.world.deliver
              (progress.session.layout.destination source.origin) (String.ofList css) =
                (world, result) := ⟨_, _, rfl⟩
          cases result with
          | none =>
              simp only [outcome, handle, deliver, lowered, acquired, delivered]
              exact .written lowered acquired delivered
          | some failure =>
              simp only [outcome, handle, deliver, lowered, acquired, delivered]
              exact .undelivered lowered acquired delivered

theorem outcome_ne_unchanged (progress : Progress) (source : Source) :
    progress.outcome source ≠ .unchanged := by
  intro same
  have handled := progress.handles source
  rw [same] at handled
  cases handled

/-- The report counts the outcome of the source that is handled. -/
theorem report_handle (progress : Progress) (source : Source) :
    (progress.handle source).report = progress.report.count (progress.outcome source) := by
  have handled := progress.handles source
  generalize progress.outcome source = outcome, progress.handle source = after at handled
  cases handled <;> rfl

def outcomes (progress : Progress) : List Source → List (Source × Outcome)
  | [] => []
  | source :: sources =>
      (source, progress.outcome source) :: (progress.handle source).outcomes sources

theorem map_fst_outcomes (progress : Progress) (sources : List Source) :
    (progress.outcomes sources).map Prod.fst = sources := by
  induction sources generalizing progress with
  | nil => rfl
  | cons source sources ih => rw [outcomes, List.map_cons, ih]

theorem unchanged_not_mem_outcomes (progress : Progress) (sources : List Source)
    (source : Source) : (source, .unchanged) ∉ progress.outcomes sources := by
  induction sources generalizing progress with
  | nil => exact List.not_mem_nil
  | cons first sources ih =>
      intro member
      rcases List.mem_cons.mp member with same | member
      · exact outcome_ne_unchanged progress first (Prod.mk.inj same).2.symm
      · exact ih _ member

theorem report_foldl_handle (progress : Progress) (sources : List Source) :
    (sources.foldl handle progress).report =
      ((progress.outcomes sources).map Prod.snd).foldl Report.count progress.report := by
  induction sources generalizing progress with
  | nil => rfl
  | cons source sources ih =>
      rw [List.foldl_cons, ih, report_handle, outcomes, List.map_cons, List.foldl_cons]

end Progress

/-- The sources of a batch that are handled, those whose text is not the one of the last
time. -/
def fresh (session : Session) (sources : List Source) : List Source :=
  sources.filter fun source => !session.isUnchanged source

def opening (session : Session) (world : World) (sources : List Source) : Progress :=
  ⟨session, world,
    { Report.empty with unchanged := sources.length - (session.fresh sources).length }⟩

def outcomes (session : Session) (world : World) (sources : List Source) :
    List (Source × Outcome) :=
  ((sources.filter session.isUnchanged).map fun source => (source, .unchanged)) ++
    (session.opening world sources).outcomes (session.fresh sources)

theorem lowerSources_eq {session : Session} (awake : session.hibernating = false)
    (world : World) (sources : List Source) :
    session.lowerSources world sources =
      (session.fresh sources).foldl Progress.handle (session.opening world sources) := by
  rw [lowerSources, awake]
  rfl

/-- Every source of a batch has one outcome. -/
theorem map_fst_outcomes_perm (session : Session) (world : World) (sources : List Source) :
    ((session.outcomes world sources).map Prod.fst).Perm sources := by
  rw [outcomes, List.map_append, Progress.map_fst_outcomes, List.map_map]
  exact (List.map_id _).symm ▸ List.filter_append_perm session.isUnchanged sources

theorem unchanged_mem_outcomes_iff {session : Session} {world : World} {sources : List Source}
    {source : Source} (member : source ∈ sources) :
    (source, .unchanged) ∈ session.outcomes world sources ↔
      session.seen.get? source.origin = some (TextHash.hash source.text) := by
  rw [outcomes, List.mem_append,
    or_iff_left (Progress.unchanged_not_mem_outcomes _ _ source)]
  simp [member, isUnchanged]

/-- The report on a batch counts the outcomes of its sources. -/
theorem report_lowerSources {session : Session} (awake : session.hibernating = false)
    (world : World) (sources : List Source) :
    (session.lowerSources world sources).report =
      Report.ofOutcomes ((session.outcomes world sources).map Prod.snd) := by
  have passed : sources.length - (session.fresh sources).length =
      (sources.filter session.isUnchanged).length := by
    have parts := (List.filter_append_perm session.isUnchanged sources).length_eq
    rw [List.length_append] at parts
    rw [fresh]
    omega
  have skipped : ((sources.filter session.isUnchanged).map fun source =>
      (source, Outcome.unchanged)).map Prod.snd =
        List.replicate (sources.filter session.isUnchanged).length .unchanged := by
    rw [List.map_map]
    exact List.map_const'
  rw [lowerSources_eq awake, Progress.report_foldl_handle, Report.ofOutcomes, outcomes,
    List.map_append, List.foldl_append, skipped, foldl_count_unchanged, opening, passed]
  simp [Report.empty]

end ScopeLowering.Session
