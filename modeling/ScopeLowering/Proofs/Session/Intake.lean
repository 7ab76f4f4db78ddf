import ScopeLowering.Proofs.Session.Footprint
import ScopeLowering.Proofs.Session.Splitting

/-!
# Runs over files

A run reads the files at its paths before it writes any, and handles the sources among them as one
batch.
-/

namespace ScopeLowering.Session

open ScopeLowering.Files (Key Tree)
open ScopeLowering.Output (Layout World)

def source? (tree : Tree) (path : String) : Option Source :=
  match Source.read tree path with
  | .ok found => found
  | .error _ => none

theorem source?_eq_some_iff {tree : Tree} {path : String} {source : Source} :
    source? tree path = some source ↔ source.origin = path ∧
      tree.readText path = .ok source.text ∧ Source.isMarked source.text = false := by
  obtain ⟨origin, text⟩ := source
  unfold source? Source.read
  cases tree.readText path with
  | error fault => simp
  | ok found =>
      dsimp only
      by_cases marked : Source.isMarked found = true
      · rw [if_pos marked]
        constructor
        · intro none
          cases none
        · rintro ⟨-, same, plain⟩
          cases same
          rw [marked] at plain
          cases plain
      · rw [if_neg marked]
        constructor
        · intro same
          cases same
          exact ⟨rfl, rfl, by simpa using marked⟩
        · rintro ⟨rfl, same, -⟩
          cases same
          rfl

namespace Intake

theorem tree_read (intake : Intake) (path : String) :
    (intake.read path).world.tree = intake.world.tree := by
  unfold read
  split <;> rfl

theorem tree_foldl_read (intake : Intake) (paths : List String) :
    (paths.foldl read intake).world.tree = intake.world.tree := by
  induction paths generalizing intake with
  | nil => rfl
  | cons path paths ih => rw [List.foldl_cons, ih, tree_read]

theorem written_foldl_read (intake : Intake) (paths : List String) :
    (paths.foldl read intake).report.written = intake.report.written := by
  induction paths generalizing intake with
  | nil => rfl
  | cons path paths ih =>
      rw [List.foldl_cons, ih, read]
      split <;> rfl

/-- The sources are what is read at the paths. -/
theorem sources_foldl_read (intake : Intake) (paths : List String) :
    (paths.foldl read intake).sources =
      intake.sources ++ paths.filterMap (source? intake.world.tree) := by
  induction paths generalizing intake with
  | nil => exact (List.append_nil _).symm
  | cons path paths ih =>
      rw [List.foldl_cons, ih, tree_read, List.filterMap_cons, read, source?]
      cases Source.read intake.world.tree path with
      | error failure => rfl
      | ok found =>
          cases found with
          | none => rfl
          | some source => exact List.append_assoc ..

theorem failed_read (intake : Intake) (path : String) :
    (intake.read path).report.failed = 0 ↔ intake.report.failed = 0 ∧
      ∃ text, intake.world.tree.readText path = .ok text := by
  unfold read Source.read
  cases intake.world.tree.readText path with
  | error fault => simp
  | ok text =>
      have present : ∃ same, (.ok text : Except Files.Fault String) = .ok same := ⟨text, rfl⟩
      rw [and_iff_left present]
      by_cases marked : Source.isMarked text = true
      · simp only [if_pos marked]
      · simp only [if_neg marked]

/-- Nothing fails in reading if every file can be read. -/
theorem failed_foldl_read (intake : Intake) (paths : List String) :
    (paths.foldl read intake).report.failed = 0 ↔ intake.report.failed = 0 ∧
      ∀ path ∈ paths, ∃ text, intake.world.tree.readText path = .ok text := by
  induction paths generalizing intake with
  | nil => simp
  | cons path paths ih =>
      rw [List.foldl_cons, ih, tree_read, failed_read, List.forall_mem_cons, and_assoc]

end Intake

def takeIn (world : World) (paths : List String) : Intake :=
  paths.foldl Intake.read ⟨[], world, Report.empty⟩

theorem tree_takeIn (world : World) (paths : List String) :
    (takeIn world paths).world.tree = world.tree :=
  Intake.tree_foldl_read _ paths

theorem sources_takeIn (world : World) (paths : List String) :
    (takeIn world paths).sources = paths.filterMap (source? world.tree) :=
  (Intake.sources_foldl_read _ paths).trans (List.nil_append _)

theorem origin_mem_of_takeIn {world : World} {paths : List String} {source : Source}
    (member : source ∈ (takeIn world paths).sources) : source.origin ∈ paths := by
  rw [sources_takeIn, List.mem_filterMap] at member
  obtain ⟨path, inside, found⟩ := member
  exact (source?_eq_some_iff.mp found).1 ▸ inside

variable [TextHash]

theorem lowerFiles_eq {session : Session} (awake : session.hibernating = false) (world : World)
    (paths : List String) : session.lowerFiles world paths =
      ((session.fresh (takeIn world paths).sources).foldl Progress.handle
        (session.opening (takeIn world paths).world (takeIn world paths).sources)).after
          (takeIn world paths).report := by
  rw [← lowerSources_eq awake]
  rfl

section

variable {session : Session} {world : World} {paths : List String}

theorem grows_lowerFiles (awake : session.hibernating = false) (world : World)
    (paths : List String) : world.tree.Grows (session.lowerFiles world paths).world.tree := by
  rw [lowerFiles_eq awake, ← tree_takeIn world paths]
  exact Progress.grows_handleAll (session.opening _ _) _

/-- What becomes of the files in a run. -/
theorem fate_lowerFiles (awake : session.hibernating = false) (world : World)
    (paths : List String) (key : Key) :
    world.tree.Fate (session.lowerFiles world paths).world.tree
      (Progress.Aims session.layout (session.fresh (takeIn world paths).sources)) key := by
  rw [lowerFiles_eq awake]
  have fate := Progress.fate_handleAll
    (session.opening (takeIn world paths).world (takeIn world paths).sources)
    (session.fresh (takeIn world paths).sources) key
  rw [opening, tree_takeIn] at fate
  exact fate

/-- The files that a run writes hold generated output when it ends. -/
theorem generated_of_lowerFiles (awake : session.hibernating = false) {path : String}
    (written : .file path ∈ (session.lowerFiles world paths).report.written) :
    ∃ key, (session.lowerFiles world paths).world.tree.Generated path key := by
  rw [lowerFiles_eq awake] at written ⊢
  have quiet : (takeIn world paths).report.written = [] := Intake.written_foldl_read _ paths
  rw [Progress.after, Report.merge, quiet, List.nil_append] at written
  rcases Progress.generated_of_written written with nothing | generated
  · cases nothing
  · exact generated

end

/-! ## Two runs side by side -/

/-- Two runs of one session have reported the same, and their files are related. -/
structure Progress.Lockstep (related : Tree → Tree → Prop) (first second : Progress) : Prop where
  session : second.session = first.session
  report : second.report = first.report
  trees : related first.world.tree second.world.tree

/-- Two runs stay side by side over a source, if depositing its rules succeeds in both or in none
and keeps the files related. -/
theorem Progress.Lockstep.handle {related : Tree → Tree → Prop} {first second : Progress}
    (lockstep : Lockstep related first second) (source : Source)
    (deposits : ∀ path text,
      (first.handle source).world.tree = (first.world.tree.deposit path text).1 →
      ((second.world.tree.deposit path text).2 = none ↔
        (first.world.tree.deposit path text).2 = none) ∧
      related (first.world.tree.deposit path text).1 (second.world.tree.deposit path text).1) :
    Lockstep related (first.handle source) (second.handle source) := by
  obtain ⟨session, world, report⟩ := first
  obtain ⟨other, later, count⟩ := second
  obtain ⟨rfl, rfl, trees⟩ : other = session ∧ count = report ∧
      related world.tree later.tree := ⟨lockstep.session, lockstep.report, lockstep.trees⟩
  unfold Progress.handle at deposits ⊢
  cases lowered : Stylesheet.lower? source.text.toList with
  | none => exact ⟨rfl, rfl, trees⟩
  | some css =>
      rw [lowered] at deposits
      dsimp only [Progress.deliver] at deposits ⊢
      cases acquired : other.acquire source.origin (other.layout.destination source.origin) with
      | error failure => exact ⟨rfl, rfl, trees⟩
      | ok session =>
          rw [acquired] at deposits
          dsimp only at deposits ⊢
          cases target : other.layout.destination source.origin with
          | standardOutput => exact ⟨rfl, rfl, trees⟩
          | file path =>
              rw [target] at deposits
              dsimp only [World.deliver] at deposits ⊢
              rw [Output.World.writeFile_eq] at deposits ⊢
              rw [Output.World.writeFile_eq]
              obtain ⟨agree, onward⟩ := deposits path (Output.render (String.ofList css)) (by
                generalize world.tree.deposit path (Output.render (String.ofList css)) = result
                obtain ⟨after, failure⟩ := result
                cases failure <;> rfl)
              generalize world.tree.deposit path (Output.render (String.ofList css)) = one,
                later.tree.deposit path (Output.render (String.ofList css)) = two at agree onward ⊢
              obtain ⟨after, failure⟩ := one
              obtain ⟨now, other⟩ := two
              cases failure with
              | none =>
                  obtain rfl : other = none := agree.mpr rfl
                  exact ⟨rfl, rfl, onward⟩
              | some failure =>
                  cases other with
                  | none => cases agree.mp rfl
                  | some other => exact ⟨rfl, rfl, onward⟩

/-- Nothing but the files of the world matters to a run. -/
theorem Progress.Lockstep.handleAll {first second : Progress}
    (lockstep : Lockstep Eq first second) (sources : List Source) :
    Lockstep Eq (sources.foldl Progress.handle first) (sources.foldl Progress.handle second) := by
  induction sources generalizing first second with
  | nil => exact lockstep
  | cons source sources ih =>
      apply ih
      apply lockstep.handle
      intro path text _
      rw [lockstep.trees]
      exact ⟨Iff.rfl, rfl⟩

end ScopeLowering.Session
