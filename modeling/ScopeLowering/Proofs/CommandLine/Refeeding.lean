import ScopeLowering.Proofs.CommandLine.Overriding
import ScopeLowering.Proofs.Session.Twins
import ScopeLowering.Proofs.Source.Redaction

/-!
# Generated output as input

What a run does with the files of a tree does not depend on the texts of generated files: runs
on twin trees end alike, print and log the same, and change the trees in the same way, and so do
all rounds of watching. Standard input is no file, and its text is lowered whatever it is.
-/

namespace ScopeLowering.CommandLine

open ScopeLowering.Files (Content Tree)
open ScopeLowering.Output (World)
open ScopeLowering.Source (Search)

variable {first second : Tree} {one two : World}

theorem parallel_warnAll (parallel : one.Parallel first second two) (introduction : String)
    (failures : List Failure) :
    (warnAll one introduction failures).Parallel first second
      (warnAll two introduction failures) := by
  unfold warnAll
  induction failures generalizing one two with
  | nil => exact parallel
  | cons failure failures ih => exact ih (parallel.report _ _)

theorem parallel_announce (parallel : one.Parallel first second two) (session : Session) :
    (session.announce one).Parallel first second (session.announce two) := by
  unfold Session.announce
  split
  · exact parallel.report _ _
  · exact parallel

theorem loadSettings_redacted (tree : Tree) (arguments : Arguments) :
    loadSettings tree.redacted arguments = loadSettings tree arguments := by
  simp only [loadSettings, Settings.load_redacted, Settings.loadOrStandard_redacted]

structure StagesParallel (first second : Tree) (one two : Ending × World) : Prop where
  ending : one.1 = two.1
  world : one.2.Parallel first second two.2

theorem parallel_startWatching (session : Session) (parallel : one.Parallel first second two)
    (start : first.Twins second) (watching : Settings.Watching) (search : Search) (failed : Nat) :
    StagesParallel first second (startWatching session one watching search failed)
      (startWatching session two watching search failed) := by
  have primed : (Watcher.make watching.strategy search).prime one.tree =
      (Watcher.make watching.strategy search).prime two.tree := by
    rw [← Watcher.prime_redacted, parallel.twins start, Watcher.prime_redacted]
  unfold startWatching
  dsimp only
  rw [primed]
  split
  · exact ⟨rfl, (parallel_warnAll parallel _ _).report _ _⟩
  · exact ⟨rfl, parallel.report _ _⟩

section

variable [TextHash]

theorem parallel_runInput (session : Session) (parallel : one.Parallel first second two)
    (start : first.Twins second) (input : Content) :
    StagesParallel first second (runInput session one input) (runInput session two input) := by
  unfold runInput
  cases Source.ofInput input with
  | error failure => exact ⟨rfl, parallel⟩
  | ok source =>
      have lowered := Session.parallel_lowerSources session parallel start [source]
      exact ⟨by dsimp only; rw [lowered.report], lowered.world⟩

theorem parallel_runFiles (session : Session) (parallel : one.Parallel first second two)
    (start : first.Twins second) (settings : Settings) (watch : Bool) :
    StagesParallel first second (runFiles session one settings watch)
      (runFiles session two settings watch) := by
  unfold runFiles
  cases Search.make settings.wanted settings.excluded with
  | error failure => exact ⟨rfl, parallel⟩
  | ok search =>
      have found : search.run one.tree = search.run two.tree := by
        rw [← Search.run_redacted, parallel.twins start, Search.run_redacted]
      dsimp only
      rw [found]
      cases search.run two.tree with
      | error failure => exact ⟨rfl, parallel⟩
      | ok finding =>
          have lowered := Session.parallel_lowerFiles session
            (parallel_warnAll parallel "Skipping glob entry" finding.failures) start finding.paths
          dsimp only
          rw [lowered.session, lowered.report]
          split
          · exact parallel_startWatching _ (lowered.world.report _ _) start _ _ _
          · exact ⟨rfl, lowered.world.report _ _⟩

structure Outcome.Parallel (first second : Tree) (one two : Outcome) : Prop where
  ending : one.ending = two.ending
  world : one.world.Parallel first second two.world
  console : one.console = two.console

theorem parallel_run (start : first.Twins second) (arguments : Arguments) (input : Content) :
    Outcome.Parallel first second (run first arguments input) (run second arguments input) := by
  have loaded : loadSettings first arguments = loadSettings second arguments := by
    rw [← loadSettings_redacted, start, loadSettings_redacted]
  unfold run
  rw [loaded]
  cases loadSettings second arguments with
  | error failure => exact ⟨rfl, .ofTree first second, rfl⟩
  | ok settings =>
      dsimp only
      have announced := parallel_announce (.ofTree first second)
        (Session.ofSettings settings arguments.standardOutput)
      split
      · have stages := parallel_runInput
          (Session.ofSettings settings arguments.standardOutput) announced start input
        exact ⟨stages.ending, stages.world, rfl⟩
      · have stages := parallel_runFiles
          (Session.ofSettings settings arguments.standardOutput) announced start settings
          arguments.watch
        exact ⟨stages.ending, stages.world, rfl⟩

/-! ## Watching -/

theorem parallel_round (watch : Watch) (parallel : one.Parallel first second two)
    (start : first.Twins second) :
    (watch.round one).1 = (watch.round two).1 ∧
      (watch.round one).2.Parallel first second (watch.round two).2 := by
  have polled : watch.watcher.poll one.tree = watch.watcher.poll two.tree := by
    rw [← Watcher.poll_redacted, parallel.twins start, Watcher.poll_redacted]
  unfold Watch.round
  dsimp only
  rw [polled]
  have warned := parallel_warnAll parallel "Watch round incomplete"
    (watch.watcher.poll two.tree).2.failures
  split
  · exact ⟨rfl, warned⟩
  · have lowered := Session.parallel_lowerFiles
      ((((watch.watcher.poll two.tree).2.changes.filter Watcher.Change.isDeletion).map
        Watcher.Change.path).foldl Session.forget watch.session)
      warned start (watch.watcher.poll two.tree).2.appeared
    dsimp only
    rw [lowered.session, lowered.report]
    refine ⟨rfl, ?_⟩
    split
    · exact lowered.world.report _ _
    · exact lowered.world

/-- The rounds of a watch, each in the tree that it finds, with the world that each one
leaves. -/
def Watch.rounds (watch : Watch) (world : World) : List Tree → Watch × List World
  | [] => (watch, [])
  | tree :: trees =>
      let (next, left) := watch.round { world with tree }
      let (last, worlds) := next.rounds left trees
      (last, left :: worlds)

/-- In rounds on twin trees the same is done, round by round. -/
theorem parallel_rounds (watch : Watch) {trees trees' : List Tree}
    (printed : one.printed = two.printed) (log : one.log = two.log)
    (twins : List.Forall₂ Tree.Twins trees trees') :
    (watch.rounds one trees).1 = (watch.rounds two trees').1 ∧
      List.Forall₂ (fun left right : Tree × World => left.2.Parallel left.1 right.1 right.2)
        (trees.zip (watch.rounds one trees).2) (trees'.zip (watch.rounds two trees').2) := by
  induction twins generalizing watch one two with
  | nil => exact ⟨rfl, .nil⟩
  | @cons tree tree' trees trees' start _ ih =>
      have found : { one with tree }.Parallel tree tree' { two with tree := tree' } :=
        ⟨⟨[], rfl, rfl⟩, printed, log⟩
      obtain ⟨same, left⟩ := parallel_round watch found start
      obtain ⟨last, worlds⟩ := ih (watch.round { one with tree }).1 left.printed left.log
      unfold Watch.rounds
      dsimp only
      rw [← same]
      exact ⟨last, .cons left worlds⟩

end

/-! ## Standard input -/

def printedFor (settings : Settings) (text : String) : String :=
  if settings.nativeScope then ""
  else ((Stylesheet.lower? text.toList).map fun css => Output.render (String.ofList css)).getD ""

theorem printedFor_eq_empty_iff {settings : Settings} {text : String} :
    printedFor settings text = "" ↔
      settings.nativeScope = true ∨ Stylesheet.lower? text.toList = none := by
  unfold printedFor
  cases settings.nativeScope with
  | true => simp
  | false =>
      cases Stylesheet.lower? text.toList with
      | none => simp
      | some css => simp [Output.render, Source.marker]

section

variable [TextHash]

/-- A text on standard input is lowered, be it generated or not. -/
theorem runInput_text (settings : Settings) (toStandardOutput : Bool) (world : World)
    (text : String) :
    (runInput (Session.ofSettings settings toStandardOutput) world (.text text)).1 = .exit 0 ∧
      (runInput (Session.ofSettings settings toStandardOutput) world (.text text)).2.tree =
        world.tree ∧
      (runInput (Session.ofSettings settings toStandardOutput) world (.text text)).2.printed =
        world.printed ++ printedFor settings text := by
  simp only [runInput, Source.ofInput]
  cases asleep : settings.nativeScope with
  | true =>
      simp [Session.lowerSources, Session.ofSettings, asleep, printedFor, exitCode,
        Session.Report.empty]
  | false =>
      have fresh : (Session.ofSettings settings toStandardOutput).isUnchanged
          ⟨Source.standardInput, text⟩ = false := rfl
      have printer : (Session.ofSettings settings toStandardOutput).layout.destination
          Source.standardInput = .standardOutput := by
        simp [Output.Layout.destination]
      have awake : (Session.ofSettings settings toStandardOutput).hibernating = false := asleep
      simp only [Session.lowerSources, awake, Bool.false_eq_true, if_false, List.filter_cons, fresh,
        Bool.not_false, if_true, List.filter_nil, List.foldl_cons, List.foldl_nil,
        Session.Progress.handle]
      cases lowered : Stylesheet.lower? text.toList with
      | none =>
          simp [Session.Progress.skip, World.report, printedFor, asleep, lowered, exitCode,
            Session.Report.empty]
      | some css =>
          simp [Session.Progress.deliver, printer, Session.acquire, World.deliver, World.print,
            Session.Progress.succeed, printedFor, asleep, lowered, exitCode, Session.Report.empty]

theorem run_text {arguments : Arguments} {settings : Settings} {tree : Tree}
    (reads : arguments.readsInput = true) (loaded : loadSettings tree arguments = .ok settings)
    (text : String) :
    (run tree arguments (.text text)).ending = .exit 0 ∧
      (run tree arguments (.text text)).world.tree = tree ∧
      (run tree arguments (.text text)).world.printed = printedFor settings text ∧
      ((run tree arguments (.text text)).world.printed = "" ↔
        settings.nativeScope = true ∨ Stylesheet.lower? text.toList = none) := by
  have announced (session : Session) : (session.announce (.ofTree tree)).tree = tree ∧
      (session.announce (.ofTree tree)).printed = "" := by
    unfold Session.announce
    split <;> exact ⟨rfl, rfl⟩
  obtain ⟨sameTree, silent⟩ :=
    announced (Session.ofSettings settings arguments.standardOutput)
  obtain ⟨ending, kept, printed⟩ := runInput_text settings arguments.standardOutput
    ((Session.ofSettings settings arguments.standardOutput).announce (.ofTree tree)) text
  rw [sameTree] at kept
  rw [silent, String.empty_append] at printed
  simp only [run, loaded, reads, if_true]
  exact ⟨ending, kept, printed, by rw [printed, printedFor_eq_empty_iff]⟩

/-- What a run does depends on no text of a generated file: on trees that differ in these texts
only it ends alike, prints and logs the same and changes the files in the same way, and so do all
rounds of watching after it. A run that reads standard input lowers whatever is given there. So
it prints nothing for a generated text only where there is nothing to be done or the text has no
scope block. -/
theorem runs_of_twins (start : first.Twins second) (arguments : Arguments) (input : Content) :
    Outcome.Parallel first second (run first arguments input) (run second arguments input) ∧
    (∀ (watch : Watch) (trees trees' : List Tree), List.Forall₂ Tree.Twins trees trees' →
      (watch.rounds (run first arguments input).world trees).1 =
          (watch.rounds (run second arguments input).world trees').1 ∧
        List.Forall₂ (fun left right : Tree × World => left.2.Parallel left.1 right.1 right.2)
          (trees.zip (watch.rounds (run first arguments input).world trees).2)
          (trees'.zip (watch.rounds (run second arguments input).world trees').2)) ∧
    (arguments.readsInput = false →
      ∀ other, run first arguments other = run first arguments input) ∧
    (arguments.readsInput = true → ∀ settings text,
      loadSettings first arguments = .ok settings → input = .text text →
        (run first arguments input).ending = .exit 0 ∧
          (run first arguments input).world.tree = first ∧
          (run first arguments input).world.printed = printedFor settings text ∧
          ((run first arguments input).world.printed = "" ↔
            settings.nativeScope = true ∨ Stylesheet.lower? text.toList = none)) := by
  have ran := parallel_run start arguments input
  refine ⟨ran, fun watch trees trees' twins => ?_, fun files other => ?_, ?_⟩
  · exact parallel_rounds watch ran.world.printed ran.world.log twins
  · simp only [run, files, Bool.false_eq_true, if_false]
  · rintro reads settings text loaded rfl
    exact run_text reads loaded text

end

def nestedOutput : String :=
  "/* @scope-polyfill generated */\n@scope (.b) \x7b\n.a p \x7b x \x7d\n\x7d\n"

def fromInput : Arguments := { Arguments.empty with paths := ["-"] }

def watchingPages : Arguments := { Arguments.empty with paths := ["pages/*.css"], watch := true }

def pagesWith (generated : String) : Tree :=
  (Tree.empty.edit (.write "pages/a.css" (.text "@scope (.a) \x7b p \x7b x \x7d \x7d") 0)).edit
    (.write "pages/b.css" (.text generated) 0)

/-- The generated file is passed over, and a generated text on standard input is not. -/
theorem runs_of_twins_nestedOutput :
    (pagesWith nestedOutput).Twins (pagesWith Source.marker) ∧
      Outcome.Parallel (pagesWith nestedOutput) (pagesWith Source.marker)
        (run (pagesWith nestedOutput) watchingPages (.text ""))
        (run (pagesWith Source.marker) watchingPages (.text "")) ∧
      (∀ watch : Watch,
        (watch.rounds (run (pagesWith nestedOutput) watchingPages (.text "")).world
            [pagesWith nestedOutput]).1 =
          (watch.rounds (run (pagesWith Source.marker) watchingPages (.text "")).world
            [pagesWith Source.marker]).1) ∧
      run (pagesWith nestedOutput) watchingPages (.text nestedOutput) =
        run (pagesWith nestedOutput) watchingPages (.text "") ∧
      (run (pagesWith nestedOutput) fromInput (.text nestedOutput)).world.tree =
        pagesWith nestedOutput := by
  have twins : (pagesWith nestedOutput).Twins (pagesWith Source.marker) := by
    unfold Tree.Twins
    decide +kernel
  have missing : (pagesWith nestedOutput).pathExists Settings.fileName = false := by
    decide +kernel
  have loaded : loadSettings (pagesWith nestedOutput) fromInput = .ok Settings.standard :=
    (loadSettings_eq (.absent missing)).trans rfl
  obtain ⟨parallel, rounds, files, -⟩ := runs_of_twins twins watchingPages (.text "")
  obtain ⟨-, -, -, reads⟩ := runs_of_twins twins fromInput (.text nestedOutput)
  refine ⟨twins, parallel, fun watch => (rounds watch [_] [_] (.cons twins .nil)).1,
    files (by decide) (.text nestedOutput), ?_⟩
  exact (reads (by decide) _ nestedOutput loaded rfl).2.1

/-- A generated text that is given on standard input is lowered again. -/
theorem exists_printed_from_generated : Source.isMarked nestedOutput = true ∧
    (run .empty fromInput (.text nestedOutput)).world.printed =
      "/* @scope-polyfill generated */\n.b .a p \x7b x \x7d\n" := by
  decide +kernel

end ScopeLowering.CommandLine
