import Mathlib.Data.List.Induction
import ScopeLowering.Proofs.Session.Memory

/-!
# Journals of a session

A journal notes every source that a session handles, with the progress before it, and every
origin that the session forgets. The owners of the output files can be read off the notes: a
file belongs to the first source with rules that came for it since its owner was forgotten.
-/

namespace ScopeLowering.Session

open ScopeLowering.Output (Destination Layout World)

inductive Note where
  | handled (before : Progress) (source : Source)
  | forgotten (origin : String)
deriving DecidableEq, Repr

section

variable [TextHash]

def Progress.notes (progress : Progress) : List Source → List Note
  | [] => []
  | source :: sources => .handled progress source :: (progress.handle source).notes sources

/-- The notes on a batch. A session that hibernates handles no source. -/
def notes (session : Session) (world : World) (sources : List Source) : List Note :=
  if session.hibernating then []
  else (session.opening world sources).notes (session.fresh sources)

structure Journal where
  session : Session
  world : World
  notes : List Note

namespace Journal

def start (settings : Settings) (toStandardOutput : Bool) (world : World) : Journal :=
  ⟨ofSettings settings toStandardOutput, world, []⟩

def batch (journal : Journal) (sources : List Source) : Journal :=
  let progress := journal.session.lowerSources journal.world sources
  ⟨progress.session, progress.world,
    journal.notes ++ journal.session.notes journal.world sources⟩

def files (journal : Journal) (paths : List String) : Journal :=
  let intake := paths.foldl Intake.read ⟨[], journal.world, Report.empty⟩
  let progress := journal.session.lowerFiles journal.world paths
  ⟨progress.session, progress.world,
    journal.notes ++ journal.session.notes intake.world intake.sources⟩

def forget (journal : Journal) (origin : String) : Journal :=
  ⟨journal.session.forget origin, journal.world, journal.notes ++ [.forgotten origin]⟩

end Journal

/-- Journals of a session that is given sources and paths and told to forget in any order,
while anything may happen to its world. -/
inductive Runs (settings : Settings) (toStandardOutput : Bool) : Journal → Prop where
  | start (world : World) : Runs settings toStandardOutput (.start settings toStandardOutput world)
  | batch {journal : Journal} (sources : List Source)
      (runs : Runs settings toStandardOutput journal) :
      Runs settings toStandardOutput (journal.batch sources)
  | files {journal : Journal} (paths : List String)
      (runs : Runs settings toStandardOutput journal) :
      Runs settings toStandardOutput (journal.files paths)
  | forget {journal : Journal} (origin : String)
      (runs : Runs settings toStandardOutput journal) :
      Runs settings toStandardOutput (journal.forget origin)
  | outside {journal : Journal} (world : World)
      (runs : Runs settings toStandardOutput journal) :
      Runs settings toStandardOutput { journal with world }

end

def claim? (layout : Layout) (key : List Path.Component) (source : Source) : Option Ownership :=
  match Stylesheet.lower? source.text.toList, layout.destination source.origin with
  | some _, .file path => if Path.components path = key then some ⟨path, source.origin⟩ else none
  | _, _ => none

/-- Who owns an output file after one more note: it is left to its owner, and a file without
one goes to the source that asks for it. -/
def own (layout : Layout) (key : List Path.Component) (owned : Option Ownership) :
    Note → Option Ownership
  | .handled _ source => owned.or (claim? layout key source)
  | .forgotten origin => owned.filter fun ownership => ownership.owner ≠ origin

def owner? (layout : Layout) (notes : List Note) (key : List Path.Component) :
    Option Ownership :=
  notes.foldl (own layout key) none

structure Accounts (layout : Layout) (notes : List Note) (session : Session) : Prop where
  arranged : session.layout = layout
  distinct : session.owners.keys.Nodup
  owned : ∀ key, session.owners.get? key = owner? layout notes key

/-- Before each source that is handled, the owners were those that the notes had. -/
structure Accounted (layout : Layout) (notes : List Note) (session : Session) : Prop where
  now : Accounts layout notes session
  earlier : ∀ first before source last, notes = first ++ .handled before source :: last →
    Accounts layout first before.session

@[simp]
theorem owner?_concat (layout : Layout) (notes : List Note) (note : Note)
    (key : List Path.Component) :
    owner? layout (notes ++ [note]) key = own layout key (owner? layout notes key) note := by
  simp [owner?]

theorem claim?_eq_some_iff {layout : Layout} {key : List Path.Component} {source : Source}
    {ownership : Ownership} : claim? layout key source = some ownership ↔
      (∃ css, Stylesheet.lower? source.text.toList = some css) ∧
        layout.destination source.origin = .file ownership.path ∧
        ownership.owner = source.origin ∧ Path.components ownership.path = key := by
  obtain ⟨path, owner⟩ := ownership
  unfold claim?
  split
  · rename_i css spelling lowered target
    simp only [lowered, target, Option.ite_none_right_eq_some, Option.some.injEq,
      Ownership.mk.injEq, Destination.file.injEq, exists_eq', true_and]
    constructor
    · rintro ⟨same, rfl, rfl⟩
      exact ⟨rfl, rfl, same⟩
    · rintro ⟨rfl, rfl, same⟩
      exact ⟨same, rfl, rfl⟩
  · rename_i missing
    constructor
    · exact nofun
    · rintro ⟨⟨css, lowered⟩, target, -⟩
      exact absurd target (missing css path lowered)

/-! ## Steps -/

/-- A file that is acquired goes to the origin if it has no owner, and no other file changes
hands. -/
theorem owners_of_acquire {session acquired : Session} {origin path : String}
    (done : session.acquire origin (.file path) = .ok acquired) :
    (session.owners.keys.Nodup → acquired.owners.keys.Nodup) ∧
      ∀ key, acquired.owners.get? key = (session.owners.get? key).or
        (if Path.components path = key then some ⟨path, origin⟩ else none) := by
  unfold acquire at done
  dsimp only at done
  split at done
  · rename_i ownership found
    split at done
    · obtain rfl := Except.ok.inj done
      refine ⟨id, ?_⟩
      intro key
      split
      · rename_i here
        rw [← here, found, Option.some_or]
      · rw [Option.or_none]
    · cases done
  · rename_i free
    obtain rfl := Except.ok.inj done
    refine ⟨fun distinct => Table.nodup_keys_insert distinct _ _, ?_⟩
    intro key
    rw [Table.get?_insert]
    split
    · rename_i here
      rw [← here, free, Option.none_or]
    · rw [Option.or_none]

theorem acquire_of_free {session : Session} {path : String} (origin : String)
    (free : session.owners.get? (Path.components path) = none) :
    ∃ acquired, session.acquire origin (.file path) = .ok acquired := by
  simp [acquire, free]

theorem acquire_of_owner {session : Session} {origin path spelling : String}
    (owned : session.owners.get? (Path.components path) = some ⟨spelling, origin⟩) :
    session.acquire origin (.file path) = .ok session := by
  simp [acquire, owned]

theorem exists_conflict_of_acquire {session : Session} {origin : String}
    {destination : Destination} {failure : Failure}
    (refused : session.acquire origin destination = .error failure) :
    ∃ path ownership, destination = .file path ∧
      session.owners.get? (Path.components path) = some ownership ∧ ownership.owner ≠ origin ∧
      failure = .conflict ownership.owner origin ownership.path := by
  cases destination with
  | standardOutput => cases refused
  | file path =>
      unfold acquire at refused
      dsimp only at refused
      split at refused
      · rename_i ownership found
        split at refused
        · cases refused
        · rename_i differs
          exact ⟨path, ownership, rfl, found, differs, (Except.error.inj refused).symm⟩
      · cases refused

theorem Accounts.forget {layout : Layout} {notes : List Note} {session : Session}
    (accounts : Accounts layout notes session) (origin : String) :
    Accounts layout (notes ++ [.forgotten origin]) (session.forget origin) := by
  refine ⟨accounts.arranged, Table.nodup_keys_filter accounts.distinct _, ?_⟩
  intro key
  rw [owner?_concat, ← accounts.owned]
  exact Table.get?_filter accounts.distinct _ key

theorem Accounted.concat {layout : Layout} {notes : List Note} {session next : Session}
    {note : Note}
    (accounted : Accounted layout notes session)
    (now : Accounts layout (notes ++ [note]) next)
    (before : ∀ progress source, note = .handled progress source →
      Accounts layout notes progress.session) : Accounted layout (notes ++ [note]) next := by
  refine ⟨now, ?_⟩
  intro first progress source last split
  rcases List.eq_nil_or_concat last with rfl | ⟨init, final, rfl⟩
  · obtain ⟨rfl, same⟩ := List.append_inj' split rfl
    exact before progress source (List.singleton_inj.mp same)
  · have shorter : notes ++ [note] = (first ++ .handled progress source :: init) ++ [final] := by
      rw [split, List.concat_eq_append, List.append_assoc, List.cons_append]
    obtain ⟨rfl, -⟩ := List.append_inj' shorter rfl
    exact accounted.earlier first progress source init rfl

section

variable [TextHash]

/-- Handling a source changes the owners as its note says. -/
theorem Progress.owners_handle (progress : Progress) (source : Source) :
    (progress.handle source).session.layout = progress.session.layout ∧
      (progress.session.owners.keys.Nodup →
        (progress.handle source).session.owners.keys.Nodup) ∧
      ∀ key, (progress.handle source).session.owners.get? key =
        own progress.session.layout key (progress.session.owners.get? key)
          (.handled progress source) := by
  have handled := progress.handles source
  generalize progress.outcome source = outcome, progress.handle source = after at handled
  -- What the source asks for is what it acquires.
  have acquires {css : List Char} {acquired : Session}
      (lowered : Stylesheet.lower? source.text.toList = some css)
      (done : progress.session.acquire source.origin
        (progress.session.layout.destination source.origin) = .ok acquired) :
      acquired.layout = progress.session.layout ∧
        (progress.session.owners.keys.Nodup → acquired.owners.keys.Nodup) ∧
        ∀ key, acquired.owners.get? key = own progress.session.layout key
          (progress.session.owners.get? key) (.handled progress source) := by
    refine ⟨(acquire_eq_ok done).2.1, ?_⟩
    simp only [own, claim?, lowered]
    cases target : progress.session.layout.destination source.origin with
    | standardOutput =>
        rw [target] at done
        obtain rfl := Except.ok.inj done
        exact ⟨id, fun key => (Option.or_none).symm⟩
    | file path =>
        rw [target] at done
        exact owners_of_acquire done
  cases handled with
  | withoutScope plain =>
      refine ⟨rfl, id, ?_⟩
      intro key
      simp only [own, claim?, plain, Option.or_none]
      rfl
  | refused lowered owned =>
      refine ⟨rfl, id, ?_⟩
      intro key
      obtain ⟨path, ownership, target, found, -⟩ := exists_conflict_of_acquire owned
      simp only [own, claim?, lowered, target]
      split
      · rename_i here
        rw [← here, found]
        exact found
      · rw [Option.or_none]
        rfl
  | written lowered acquired delivered =>
      obtain ⟨arranged, distinct, owned⟩ := acquires lowered acquired
      exact ⟨arranged, distinct, owned⟩
  | undelivered lowered acquired failed =>
      obtain ⟨arranged, distinct, owned⟩ := acquires lowered acquired
      exact ⟨arranged, distinct, owned⟩

variable {layout : Layout}

theorem Accounts.handle {notes : List Note} {progress : Progress}
    (accounts : Accounts layout notes progress.session) (source : Source) :
    Accounts layout (notes ++ [.handled progress source]) (progress.handle source).session := by
  obtain ⟨arranged, distinct, owned⟩ := progress.owners_handle source
  refine ⟨arranged.trans accounts.arranged, distinct accounts.distinct, ?_⟩
  intro key
  rw [owned, owner?_concat, accounts.owned, accounts.arranged]

theorem Accounted.handleAll {notes : List Note} {progress : Progress} {sources : List Source}
    (accounted : Accounted layout notes progress.session) :
    Accounted layout (notes ++ progress.notes sources)
      (sources.foldl Progress.handle progress).session := by
  induction sources generalizing notes progress with
  | nil =>
      rw [Progress.notes, List.append_nil]
      exact accounted
  | cons source sources ih =>
      have next : Accounted layout (notes ++ [.handled progress source])
          (progress.handle source).session := by
        apply accounted.concat (accounted.now.handle source)
        intro other again same
        obtain ⟨rfl, -⟩ := Note.handled.inj same
        exact accounted.now
      have rest := ih next
      rwa [List.append_assoc] at rest

theorem Accounted.lowerSources {notes : List Note} {session : Session}
    (accounted : Accounted layout notes session) (world : World) (sources : List Source) :
    Accounted layout (notes ++ session.notes world sources)
      (session.lowerSources world sources).session := by
  unfold Session.notes
  cases asleep : session.hibernating with
  | true =>
      rw [if_pos rfl, List.append_nil, Session.lowerSources, if_pos asleep]
      exact accounted
  | false =>
      rw [if_neg Bool.false_ne_true, lowerSources_eq asleep]
      have opened : Accounted layout notes (session.opening world sources).session := accounted
      exact opened.handleAll

/-! ## Runs -/

theorem Runs.accounted {settings : Settings} {toStandardOutput : Bool} {journal : Journal}
    (runs : Runs settings toStandardOutput journal) :
    Accounted (ofSettings settings toStandardOutput).layout journal.notes journal.session := by
  induction runs with
  | start world =>
      refine ⟨⟨rfl, List.nodup_nil, fun key => rfl⟩, ?_⟩
      intro first progress source last split
      exact absurd split.symm (List.append_ne_nil_of_right_ne_nil _ (List.cons_ne_nil _ _))
  | batch sources runs ih => exact ih.lowerSources _ sources
  | files paths runs ih => exact ih.lowerSources _ _
  | forget origin runs ih =>
      exact ih.concat (ih.now.forget origin) nofun
  | outside world runs ih => exact ih

end

/-! ## Owners in the notes -/

/-- An owner has come for its file, and has not been forgotten since. -/
theorem exists_handled_of_owner? {layout : Layout} {notes : List Note}
    {key : List Path.Component} {ownership : Ownership}
    (owned : owner? layout notes key = some ownership) :
    ∃ earlier progress source later, notes = earlier ++ .handled progress source :: later ∧
      owner? layout earlier key = none ∧ claim? layout key source = some ownership ∧
      .forgotten ownership.owner ∉ later := by
  induction notes using List.reverseRecOn with
  | nil => cases owned
  | append_singleton notes note ih =>
      have kept (known : owner? layout notes key = some ownership)
          (other : note ≠ .forgotten ownership.owner) :
          ∃ earlier progress source later,
            notes ++ [note] = earlier ++ .handled progress source :: later ∧
            owner? layout earlier key = none ∧ claim? layout key source = some ownership ∧
            .forgotten ownership.owner ∉ later := by
        obtain ⟨earlier, progress, source, later, rfl, free, claimed, remembered⟩ := ih known
        refine ⟨earlier, progress, source, later ++ [note], by simp, free, claimed, ?_⟩
        rw [List.mem_append, List.mem_singleton, not_or]
        exact ⟨remembered, other.symm⟩
      rw [owner?_concat] at owned
      cases note with
      | forgotten origin =>
          obtain ⟨known, stays⟩ := Option.filter_eq_some_iff.mp owned
          apply kept known
          rintro same
          simp [Note.forgotten.inj same] at stays
      | handled progress source =>
          rcases Option.or_eq_some_iff.mp owned with known | ⟨free, claimed⟩
          · exact kept known nofun
          · exact ⟨notes, progress, source, [], rfl, free, claimed, List.not_mem_nil⟩

end ScopeLowering.Session
