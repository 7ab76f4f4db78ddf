import ScopeLowering.Proofs.Files.Respelling
import ScopeLowering.Proofs.Session.Journal

/-!
# Ownership of output files

A session guards an output file by the components of its path. So two sources write one file
without forgetting between them only if they spell it differently, by a leading dot or by steps
up. A source takes its output file before it writes, and keeps it if it fails to.
-/

namespace ScopeLowering.Output.World

theorem exists_fault_of_writeFile {world failed : World} {path text : String} {failure : Failure}
    (done : world.writeFile path text = (failed, some failure)) :
    ∃ place fault, failure = .file place fault := by
  unfold writeFile at done
  dsimp only at done
  split at done
  · obtain ⟨-, same⟩ := Prod.mk.inj done
    exact ⟨_, _, (Option.some.inj same).symm⟩
  · split at done
    · cases done
    · obtain ⟨-, same⟩ := Prod.mk.inj done
      exact ⟨_, _, (Option.some.inj same).symm⟩

end ScopeLowering.Output.World

namespace ScopeLowering.Session

open ScopeLowering.Files (Key Tree)
open ScopeLowering.Output (Destination Layout World)

section

variable [TextHash]

/-! ## Single sources -/

/-- A source that fails is refused its destination, or has acquired it and cannot write. -/
theorem Progress.failed_cases {progress : Progress} {source : Source} {failure : Failure}
    (failed : progress.outcome source = .failed failure) :
    progress.session.acquire source.origin
        (progress.session.layout.destination source.origin) = .error failure ∨
      ∃ path acquired place fault,
        progress.session.layout.destination source.origin = .file path ∧
        progress.session.acquire source.origin (.file path) = .ok acquired ∧
        failure = .file place fault ∧ (progress.handle source).session = acquired := by
  have handled := progress.handles source
  generalize progress.outcome source = outcome, progress.handle source = after at handled failed
  cases handled with
  | withoutScope plain => cases failed
  | written lowered acquired delivered => cases failed
  | refused lowered owned =>
      obtain rfl := Outcome.failed.inj failed
      exact .inl owned
  | @undelivered css session world fault lowered acquired undelivered =>
      obtain rfl := Outcome.failed.inj failed
      cases target : progress.session.layout.destination source.origin with
      | standardOutput =>
          rw [target] at undelivered
          cases undelivered
      | file path =>
          rw [target] at acquired undelivered
          rw [World.deliver_file] at undelivered
          obtain ⟨place, fault, same⟩ := World.exists_fault_of_writeFile undelivered
          exact .inr ⟨path, session, place, fault, rfl, acquired, same, rfl⟩

/-- A source that acquires its file is written there, or fails to write. -/
theorem Progress.outcome_of_acquire {progress : Progress} {source : Source} {acquired : Session}
    {css : List Char} {path : String}
    (lowered : Stylesheet.lower? source.text.toList = some css)
    (target : progress.session.layout.destination source.origin = .file path)
    (done : progress.session.acquire source.origin (.file path) = .ok acquired) :
    progress.outcome source = .written (.file path) ∨
      ∃ place fault, progress.outcome source = .failed (.file place fault) := by
  have handled := progress.handles source
  generalize progress.outcome source = outcome, progress.handle source = after at handled
  cases handled with
  | withoutScope plain =>
      rw [plain] at lowered
      cases lowered
  | refused _ owned =>
      rw [target, done] at owned
      cases owned
  | written _ acquired delivered => exact .inl (congrArg Outcome.written target)
  | undelivered _ acquired failed =>
      rw [target, World.deliver_file] at failed
      obtain ⟨place, fault, rfl⟩ := World.exists_fault_of_writeFile failed
      exact .inr ⟨place, fault, rfl⟩

/-- A source that fails to write owns its file. The owners are as before only if it did so
before. -/
theorem Progress.owner_of_unwritten {progress : Progress} {source : Source} {place : String}
    {fault : Files.Fault} (failed : progress.outcome source = .failed (.file place fault)) :
    ∃ path spelling, progress.session.layout.destination source.origin = .file path ∧
      (progress.handle source).session.owners.get? (Path.components path) =
        some ⟨spelling, source.origin⟩ ∧
      ((progress.handle source).session.owners = progress.session.owners ↔
        progress.session.owners.get? (Path.components path) =
          some ⟨spelling, source.origin⟩) := by
  rcases Progress.failed_cases failed with conflict |
    ⟨path, acquired, _, _, target, done, _, same⟩
  · obtain ⟨_, _, -, -, -, other⟩ := exists_conflict_of_acquire conflict
    cases other
  · obtain ⟨-, -, -, -, mine⟩ := acquire_eq_ok done
    obtain ⟨spelling, owned⟩ := mine path rfl
    refine ⟨path, spelling, target, same ▸ owned, ?_⟩
    rw [same]
    constructor
    · intro alike
      rw [← alike]
      exact owned
    · intro before
      rw [acquire_of_owner before] at done
      obtain rfl := Except.ok.inj done
      rfl

variable {settings : Settings} {toStandardOutput : Bool} {journal : Journal}

/-! ## Two sources that write one file -/

end

section

variable [TextHash] {settings : Settings} {toStandardOutput : Bool} {journal : Journal}

/-- A source that is refused its file names one that came for the file with rules, and was not
forgotten since. -/
theorem exists_claimant_of_conflict (runs : Runs settings toStandardOutput journal)
    {first last : List Note} {before : Progress} {source : Source} {owner origin path : String}
    (noted : journal.notes = first ++ .handled before source :: last)
    (refused : before.outcome source = .failed (.conflict owner origin path)) :
    ∃ earlier prior claimant later, first = earlier ++ .handled prior claimant :: later ∧
      claimant.origin = owner ∧ .forgotten owner ∉ later ∧
      prior.session.layout.destination owner = .file path ∧
      (prior.outcome claimant = .written (.file path) ∨
        ∃ place fault, prior.outcome claimant = .failed (.file place fault)) := by
  have accounted := runs.accounted
  have now := accounted.earlier first before source last noted
  rcases Progress.failed_cases refused with conflict | ⟨_, _, _, _, _, _, other, _⟩
  · obtain ⟨target, ownership, -, found, -, same⟩ := exists_conflict_of_acquire conflict
    obtain ⟨rfl, rfl, rfl⟩ := Failure.conflict.inj same
    rw [now.owned] at found
    obtain ⟨earlier, prior, claimant, later, rfl, free, claimed, remembered⟩ :=
      exists_handled_of_owner? found
    obtain ⟨⟨css, lowered⟩, destination, owner, spelled⟩ := claim?_eq_some_iff.mp claimed
    -- The file was free when its owner came for it, so the owner went on to write it.
    have arrival := accounted.earlier earlier prior claimant
      (later ++ .handled before source :: last) (by rw [noted]; simp)
    rw [← arrival.arranged] at destination
    rw [← arrival.owned, ← spelled] at free
    obtain ⟨acquired, done⟩ := acquire_of_free claimant.origin free
    exact ⟨earlier, prior, claimant, later, rfl, owner.symm, remembered, owner ▸ destination,
      Progress.outcome_of_acquire lowered destination done⟩
  · cases other

/-- A source that is refused its file names one that came for the file with rules, and was not
forgotten since; whether that one could write does not matter. A source that fails to write
owns its file, so the owners are as before only if it did so before. -/
theorem owners_of_failed (runs : Runs settings toStandardOutput journal)
    {first last : List Note} {before : Progress} {source : Source}
    (noted : journal.notes = first ++ .handled before source :: last) :
    (∀ owner origin path, before.outcome source = .failed (.conflict owner origin path) →
      ∃ earlier prior claimant later, first = earlier ++ .handled prior claimant :: later ∧
        claimant.origin = owner ∧ .forgotten owner ∉ later ∧
        prior.session.layout.destination owner = .file path ∧
        (prior.outcome claimant = .written (.file path) ∨
          ∃ place fault, prior.outcome claimant = .failed (.file place fault))) ∧
    ∀ place fault, before.outcome source = .failed (.file place fault) →
      ∃ path spelling, before.session.layout.destination source.origin = .file path ∧
        (before.handle source).session.owners.get? (Path.components path) =
          some ⟨spelling, source.origin⟩ ∧
        ((before.handle source).session.owners = before.session.owners ↔
          before.session.owners.get? (Path.components path) = some ⟨spelling, source.origin⟩) := by
  constructor
  · intro owner origin path refused
    exact exists_claimant_of_conflict runs noted refused
  · intro place fault failed
    exact Progress.owner_of_unwritten failed

end

def lockedOutput : Tree :=
  (Tree.empty.edit (.write "out/x.scoped.css" (.text "old") 0)).edit
    (.restrict "out/x.scoped.css" .locked)

def unwritten : Journal :=
  (Journal.start sharedOutput false (.ofTree lockedOutput)).batch [cardSource "a/x.css" "1"]

/-- A run in which the output file is unlocked, and refused to a second source. -/
def stale : Journal :=
  ({ unwritten with
      world := { unwritten.world with tree := unwritten.world.tree.edit .unlock } } : Journal).batch
    [cardSource "b/x.css" "2"]

theorem runs_stale : Runs sharedOutput false stale :=
  .batch _ (.outside _ (.batch _ (.start _)))

def staleStart : Progress :=
  (ofSettings sharedOutput false).opening (.ofTree lockedOutput) [cardSource "a/x.css" "1"]

def staleEnd : Progress :=
  unwritten.session.opening
    { unwritten.world with tree := unwritten.world.tree.edit .unlock } [cardSource "b/x.css" "2"]

theorem notes_stale : stale.notes = [.handled staleStart (cardSource "a/x.css" "1")] ++
    .handled staleEnd (cardSource "b/x.css" "2") :: [] := by
  decide +kernel

theorem outcome_staleStart : staleStart.outcome (cardSource "a/x.css" "1") =
    .failed (.file "out/x.scoped.css" .denied) := by
  decide +kernel

theorem outcome_staleEnd : staleEnd.outcome (cardSource "b/x.css" "2") =
    .failed (.conflict "a/x.css" "b/x.css" "out/x.scoped.css") := by
  decide +kernel

theorem owners_of_failed_stale : ∃ prior claimant,
    .handled prior claimant ∈ stale.notes ∧ claimant.origin = "a/x.css" ∧
      ∃ place fault, prior.outcome claimant = .failed (.file place fault) := by
  obtain ⟨conflicts, -⟩ := owners_of_failed runs_stale notes_stale
  obtain ⟨earlier, prior, claimant, later, split, origin, -, -, outcome⟩ :=
    conflicts _ _ _ outcome_staleEnd
  have member : Note.handled prior claimant ∈
      [Note.handled staleStart (cardSource "a/x.css" "1")] := by
    rw [split]
    simp
  obtain ⟨rfl, rfl⟩ := Note.handled.inj (List.mem_singleton.mp member)
  rcases outcome with wrote | failed
  · rw [outcome_staleStart] at wrote
    cases wrote
  · refine ⟨_, _, ?_, origin, failed⟩
    rw [notes_stale]
    exact List.mem_append_left _ member

/-- A source can be refused a file that was never written for the owner it is told. -/
theorem exists_conflict_unwritten : ∃ settings journal first before source last owner origin path,
    settings.nativeScope = false ∧ Runs settings false journal ∧
      journal.notes = first ++ .handled before source :: last ∧
      before.outcome source = .failed (.conflict owner origin path) ∧
      ∀ prior claimant, .handled prior claimant ∈ first → claimant.origin = owner →
        ∀ destination, prior.outcome claimant ≠ .written destination := by
  refine ⟨sharedOutput, stale, _, staleEnd, _, _, _, _, _, rfl, runs_stale, notes_stale,
    outcome_staleEnd, ?_⟩
  intro prior claimant member _ destination wrote
  obtain ⟨rfl, rfl⟩ := Note.handled.inj (List.mem_singleton.mp member)
  rw [outcome_staleStart] at wrote
  cases wrote

end ScopeLowering.Session
