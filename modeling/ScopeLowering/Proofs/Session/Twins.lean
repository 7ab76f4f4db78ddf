import ScopeLowering.Proofs.Files.Twins
import ScopeLowering.Session

/-!
# Sessions on twin trees

A session takes the same steps on twin trees: it reads the same sources, writes the same
output, prints and logs the same, and ends with the same report and the same memory.
-/

namespace ScopeLowering

open ScopeLowering.Files (Key Node Tree)
open ScopeLowering.Output (Destination World)

/-- Two worlds that began with two trees, and in which the same was done since. -/
structure Output.World.Parallel (first second : Tree) (one two : World) : Prop where
  trees : ∃ changes, one.tree = first.patch changes ∧ two.tree = second.patch changes
  printed : one.printed = two.printed
  log : one.log = two.log

namespace Output.World.Parallel

variable {first second : Tree} {one two : World}

theorem ofTree (first second : Tree) :
    Parallel first second (World.ofTree first) (World.ofTree second) :=
  ⟨⟨[], rfl, rfl⟩, rfl, rfl⟩

theorem twins (parallel : Parallel first second one two) (start : first.Twins second) :
    one.tree.Twins two.tree := by
  obtain ⟨changes, tree, tree'⟩ := parallel.trees
  rw [tree, tree']
  exact start.patch changes

theorem report (parallel : Parallel first second one two) (level : Log.Level) (message : String) :
    Parallel first second (one.report level message) (two.report level message) :=
  ⟨parallel.trees, parallel.printed,
    congrArg (· ++ [(⟨level, message⟩ : Log.Line)]) parallel.log⟩

theorem print (parallel : Parallel first second one two) (text : String) :
    Parallel first second (one.print text) (two.print text) :=
  ⟨parallel.trees, congrArg (· ++ text) parallel.printed, parallel.log⟩

theorem patch (parallel : Parallel first second one two) (changes : List (Key × Node)) :
    Parallel first second { one with tree := one.tree.patch changes }
      { two with tree := two.tree.patch changes } := by
  obtain ⟨earlier, tree, tree'⟩ := parallel.trees
  refine ⟨⟨earlier ++ changes, ?_, ?_⟩, parallel.printed, parallel.log⟩
  · rw [tree, Tree.patch_append]
  · rw [tree', Tree.patch_append]

theorem writeFile (parallel : Parallel first second one two) (start : first.Twins second)
    (path text : String) :
    Parallel first second (one.writeFile path text).1 (two.writeFile path text).1 ∧
      (one.writeFile path text).2 = (two.writeFile path text).2 := by
  have twins := parallel.twins start
  obtain ⟨changes, fault, made, made'⟩ := twins.makeDirectories ((Path.parent? path).getD "")
  have moved := parallel.patch changes
  unfold World.writeFile
  dsimp only
  rw [made, made']
  cases fault with
  | some fault => exact ⟨moved, rfl⟩
  | none =>
      dsimp only
      have written := (twins.patch changes).write path (.text text)
      generalize (one.tree.patch changes).write path (.text text) = result at written ⊢
      generalize (two.tree.patch changes).write path (.text text) = result' at written ⊢
      cases written with
      | ok more => exact ⟨moved.patch more, rfl⟩
      | error fault => exact ⟨moved, rfl⟩

theorem deliver (parallel : Parallel first second one two) (start : first.Twins second)
    (destination : Destination) (css : String) :
    Parallel first second (one.deliver destination css).1 (two.deliver destination css).1 ∧
      (one.deliver destination css).2 = (two.deliver destination css).2 := by
  cases destination with
  | standardOutput => exact ⟨parallel.print _, rfl⟩
  | file path => exact parallel.writeFile start path _

end Output.World.Parallel

namespace Session

structure Progress.Parallel (first second : Tree) (one two : Progress) : Prop where
  session : one.session = two.session
  world : one.world.Parallel first second two.world
  report : one.report = two.report

namespace Progress.Parallel

variable {first second : Tree} {one two : Progress}

theorem fail (parallel : Parallel first second one two) (failure : Failure) :
    Parallel first second (one.fail failure) (two.fail failure) where
  session := parallel.session
  world := parallel.world.report _ _
  report := by rw [Progress.fail, Progress.fail, parallel.report]

variable [TextHash]

theorem succeed (parallel : Parallel first second one two) (source : Source)
    (destination : Destination) :
    Parallel first second (one.succeed source destination) (two.succeed source destination) where
  session := congrArg (Session.remember · source) parallel.session
  world := by
    cases destination with
    | standardOutput => exact parallel.world
    | file path => exact parallel.world.report _ _
  report := congrArg
    (fun report : Report => { report with written := report.written ++ [destination] })
    parallel.report

theorem skip (parallel : Parallel first second one two) (source : Source) :
    Parallel first second (one.skip source) (two.skip source) where
  session := congrArg (Session.remember · source) parallel.session
  world := parallel.world.report _ _
  report := by rw [Progress.skip, Progress.skip, parallel.report]

theorem deliver (parallel : Parallel first second one two) (start : first.Twins second)
    (source : Source) (css : String) :
    Parallel first second (one.deliver source css) (two.deliver source css) := by
  unfold Progress.deliver
  dsimp only
  rw [← parallel.session]
  cases one.session.acquire source.origin (one.session.layout.destination source.origin) with
  | error failure => exact parallel.fail failure
  | ok session =>
      dsimp only
      obtain ⟨worlds, failures⟩ :=
        parallel.world.deliver start (one.session.layout.destination source.origin) css
      generalize one.world.deliver _ css = done at worlds failures ⊢
      generalize two.world.deliver _ css = done' at worlds failures ⊢
      obtain ⟨world, failure⟩ := done
      obtain ⟨world', failure'⟩ := done'
      obtain rfl : failure = failure' := failures
      have reached : Parallel first second { one with session, world }
          { two with session, world := world' } := ⟨rfl, worlds, parallel.report⟩
      cases failure with
      | none => exact reached.succeed source _
      | some failure => exact reached.fail failure

theorem handle (parallel : Parallel first second one two) (start : first.Twins second)
    (source : Source) : Parallel first second (one.handle source) (two.handle source) := by
  unfold Progress.handle
  cases Stylesheet.lower? source.text.toList with
  | none => exact parallel.skip source
  | some css => exact parallel.deliver start source _

theorem handleAll (parallel : Parallel first second one two) (start : first.Twins second)
    (sources : List Source) :
    Parallel first second (sources.foldl Progress.handle one)
      (sources.foldl Progress.handle two) := by
  induction sources generalizing one two with
  | nil => exact parallel
  | cons source sources ih => exact ih (parallel.handle start source)

end Progress.Parallel

variable {first second : Tree} {one two : World}

structure Intake.Parallel (first second : Tree) (one two : Intake) : Prop where
  sources : one.sources = two.sources
  world : one.world.Parallel first second two.world
  report : one.report = two.report

/-- A generated file is passed over in either world, whatever its text. -/
theorem Intake.Parallel.read {one two : Intake} (parallel : Intake.Parallel first second one two)
    (start : first.Twins second) (path : String) :
    Intake.Parallel first second (one.read path) (two.read path) := by
  unfold Intake.read
  rw [(parallel.world.twins start).read path]
  cases Source.read two.world.tree path with
  | error failure =>
      exact ⟨parallel.sources, parallel.world.report _ _, by dsimp only; rw [parallel.report]⟩
  | ok found =>
      cases found with
      | none =>
          exact ⟨parallel.sources, parallel.world.report _ _, by dsimp only; rw [parallel.report]⟩
      | some source =>
          exact ⟨congrArg (· ++ [source]) parallel.sources, parallel.world, parallel.report⟩

theorem Intake.Parallel.readAll {one two : Intake} (parallel : Intake.Parallel first second one two)
    (start : first.Twins second) (paths : List String) :
    Intake.Parallel first second (paths.foldl Intake.read one) (paths.foldl Intake.read two) := by
  induction paths generalizing one two with
  | nil => exact parallel
  | cons path paths ih => exact ih (parallel.read start path)

variable [TextHash]

theorem parallel_lowerSources (session : Session) (parallel : one.Parallel first second two)
    (start : first.Twins second) (sources : List Source) :
    Progress.Parallel first second (session.lowerSources one sources)
      (session.lowerSources two sources) := by
  have started (report : Report) :
      Progress.Parallel first second ⟨session, one, report⟩ ⟨session, two, report⟩ :=
    ⟨rfl, parallel, rfl⟩
  unfold lowerSources
  split
  · exact started _
  · exact (started _).handleAll start _

theorem parallel_lowerFiles (session : Session) (parallel : one.Parallel first second two)
    (start : first.Twins second) (paths : List String) :
    Progress.Parallel first second (session.lowerFiles one paths)
      (session.lowerFiles two paths) := by
  have started : Intake.Parallel first second ⟨[], one, Report.empty⟩ ⟨[], two, Report.empty⟩ :=
    ⟨rfl, parallel, rfl⟩
  have read := started.readAll start paths
  have lowered := parallel_lowerSources session read.world start
    (paths.foldl Intake.read ⟨[], one, Report.empty⟩).sources
  unfold lowerFiles
  dsimp only
  rw [← read.sources, ← read.report]
  exact ⟨lowered.session, lowered.world, by dsimp only; rw [lowered.report]⟩

end Session

end ScopeLowering
