import ScopeLowering.Proofs.Source.Finding
import ScopeLowering.Watcher

/-!
# Rounds of a watcher

What one round does to the known files, path by path: a found file is known with its time
of change, and any other one is forgotten by a complete round and kept by a partial one. The
changes of a path are the difference between what was known of it before and after.
-/

namespace ScopeLowering.Watcher

open ScopeLowering.Files (Tree)
open ScopeLowering.Source (Finding Search)

inductive Kind where
  | created
  | modified
  | deleted
deriving DecidableEq, Repr

def Change.kind : Change → Kind
  | .created _ => .created
  | .modified _ => .modified
  | .deleted _ => .deleted

def changesOf (key : List Path.Component) (changes : List Change) : List Kind :=
  (changes.filter fun change => Path.components change.path = key).map Change.kind

def time? (records : Records) (key : List Path.Component) : Option Int :=
  (records.get? key).map Record.modified

def difference : Option Int → Option Int → List Kind
  | none, none => []
  | none, some _ => [.created]
  | some known, some time => if known = time then [] else [.modified]
  | some _, none => [.deleted]

/-- What is known is filed once, under the components of the path it is about. -/
structure Spelled (good : String → Prop) (records : Records) : Prop where
  distinct : records.keys.Nodup
  each : ∀ entry ∈ records.entries, Path.components entry.2.path = entry.1 ∧ good entry.2.path

/-- All that a round may do when its search is not refused: which times are known after it,
and which changes it notices. -/
structure Compares (tree : Tree) (finding : Finding) (before after : Records)
    (changes : List Change) : Prop where
  found : ∀ path ∈ finding.paths, ∃ time, tree.modified? path = some time ∧
    time? after (Path.components path) = some time ∧
    changesOf (Path.components path) changes =
      match time? before (Path.components path) with
      | none => [.created]
      | some known => if known = time then [] else [.modified]
  missed : ∀ key ∉ finding.paths.map Path.components, finding.complete = true →
    time? after key = none ∧
      changesOf key changes = if (time? before key).isSome then [.deleted] else []
  kept : ∀ key ∉ finding.paths.map Path.components, finding.complete = false →
    time? after key = time? before key ∧ changesOf key changes = []

@[simp]
theorem changesOf_nil (key : List Path.Component) : changesOf key [] = [] := rfl

@[simp]
theorem changesOf_append (key : List Path.Component) (first second : List Change) :
    changesOf key (first ++ second) = changesOf key first ++ changesOf key second := by
  simp [changesOf]

theorem changesOf_cons (key : List Path.Component) (change : Change) (changes : List Change) :
    changesOf key (change :: changes) =
      (if Path.components change.path = key then [change.kind] else []) ++
        changesOf key changes := by
  by_cases here : Path.components change.path = key <;> simp [changesOf, here]

theorem difference_self (time : Option Int) : difference time time = [] := by
  cases time <;> simp [difference]

theorem length_difference_le (before after : Option Int) :
    (difference before after).length ≤ 1 := by
  rcases before with _ | known <;> rcases after with _ | time <;> simp [difference]
  split <;> simp

theorem time?_eq_none_iff {records : Records} {key : List Path.Component} :
    time? records key = none ↔ key ∉ records.keys := by
  rw [time?, Option.map_eq_none_iff, Table.get?_eq_none_iff]

/-! ## Files that were found -/

theorem get?_note_of_ne {state : Records × List Change} {path : String} {modified : Int}
    {key : List Path.Component} (differs : Path.components path ≠ key) :
    (note state path modified).1.get? key = state.1.get? key := by
  unfold note
  dsimp only
  split
  · rw [Table.get?_insert, if_neg differs]
  · rw [Table.get?_insert, if_neg differs]

theorem time?_note (state : Records × List Change) (path : String) (modified : Int)
    (key : List Path.Component) :
    time? (note state path modified).1 key =
      if Path.components path = key then some modified else time? state.1 key := by
  unfold note
  dsimp only
  split <;> rw [time?, Table.get?_insert] <;> split <;> rfl

/-- A file that is noted changes by its time, and no other file changes. -/
theorem changesOf_note (state : Records × List Change) (path : String) (modified : Int)
    (key : List Path.Component) :
    changesOf key (note state path modified).2 = changesOf key state.2 ++
      if Path.components path = key then difference (time? state.1 key) (some modified)
      else [] := by
  by_cases here : Path.components path = key
  · subst here
    unfold note
    dsimp only
    split
    · rename_i unknown
      simp [time?, unknown, difference, changesOf_cons, Change.path, Change.kind]
    · rename_i record known
      by_cases same : record.modified = modified
      · simp [time?, known, difference, same]
      · simp [time?, known, difference, same, changesOf_cons, Change.path, Change.kind]
  · unfold note
    dsimp only
    split
    · simp [here, changesOf_cons, Change.path]
    · split <;> simp [here, changesOf_cons, Change.path]

theorem Spelled.note {good : String → Prop} {state : Records × List Change} {path : String}
    (spelled : Spelled good state.1) (known : good path) (modified : Int) :
    Spelled good (Watcher.note state path modified).1 := by
  unfold Watcher.note
  dsimp only
  split
  · refine ⟨Table.nodup_keys_insert spelled.distinct _ _, ?_⟩
    intro entry member
    rcases Table.mem_insert member with rfl | member
    · exact ⟨rfl, known⟩
    · exact spelled.each entry member
  · rename_i record found
    refine ⟨Table.nodup_keys_insert spelled.distinct _ _, ?_⟩
    intro entry member
    rcases Table.mem_insert member with rfl | member
    · obtain ⟨same, kept⟩ := spelled.each _ (Table.mem_of_get? found)
      exact ⟨same, kept⟩
    · exact spelled.each entry member

def noteFound (tree : Tree) (state : Records × List Change) (path : String) :
    Records × List Change :=
  match tree.modified? path with
  | some modified => note state path modified
  | none => state

section

variable {tree : Tree} {paths : List String}

theorem noteFound_of_ne (tree : Tree) (state : Records × List Change) {path : String}
    {key : List Path.Component} (differs : Path.components path ≠ key) :
    (noteFound tree state path).1.get? key = state.1.get? key ∧
      changesOf key (noteFound tree state path).2 = changesOf key state.2 := by
  unfold noteFound
  split
  · rw [get?_note_of_ne differs, changesOf_note, if_neg differs, List.append_nil]
    exact ⟨rfl, rfl⟩
  · exact ⟨rfl, rfl⟩

/-- Nothing is noted of a file that is not among the found ones. -/
theorem noteFound_of_not_mem (tree : Tree) (state : Records × List Change)
    {key : List Path.Component}
    (missed : key ∉ paths.map Path.components) :
    (paths.foldl (noteFound tree) state).1.get? key = state.1.get? key ∧
      changesOf key (paths.foldl (noteFound tree) state).2 = changesOf key state.2 := by
  induction paths generalizing state with
  | nil => exact ⟨rfl, rfl⟩
  | cons path paths ih =>
      rw [List.map_cons, List.mem_cons, not_or] at missed
      obtain ⟨here, there⟩ := noteFound_of_ne tree state (Ne.symm missed.1)
      rw [List.foldl_cons, ← here, ← there]
      exact ih _ missed.2

/-- A file that is found once is noted once. -/
theorem noteFound_of_mem (state : Records × List Change) {path : String} {time : Int}
    (distinct : (paths.map Path.components).Nodup) (member : path ∈ paths)
    (modified : tree.modified? path = some time) :
    time? (paths.foldl (noteFound tree) state).1 (Path.components path) = some time ∧
      changesOf (Path.components path) (paths.foldl (noteFound tree) state).2 =
        changesOf (Path.components path) state.2 ++
          difference (time? state.1 (Path.components path)) (some time) := by
  induction paths generalizing state with
  | nil => cases member
  | cons first paths ih =>
      obtain ⟨fresh, distinct⟩ := List.nodup_cons.mp distinct
      rw [List.foldl_cons]
      rcases List.mem_cons.mp member with rfl | member
      · obtain ⟨same, quiet⟩ := noteFound_of_not_mem tree (noteFound tree state path) fresh
        rw [time?, same, ← time?, quiet, noteFound, modified, time?_note, changesOf_note,
          if_pos rfl, if_pos rfl]
        exact ⟨rfl, rfl⟩
      · have differs : Path.components first ≠ Path.components path := by
          intro same
          exact fresh (same ▸ List.mem_map_of_mem member)
        obtain ⟨here, there⟩ := noteFound_of_ne tree state differs
        have known : time? (noteFound tree state first).1 (Path.components path) =
            time? state.1 (Path.components path) := congrArg (Option.map Record.modified) here
        rw [← known, ← there]
        exact ih _ distinct member

theorem Spelled.noteAll {good : String → Prop} (state : Records × List Change)
    (spelled : Spelled good state.1) (known : ∀ path ∈ paths, good path) :
    Spelled good (paths.foldl (noteFound tree) state).1 := by
  induction paths generalizing state with
  | nil => exact spelled
  | cons path paths ih =>
      refine ih _ ?_ fun other member => known other (List.mem_cons_of_mem _ member)
      unfold noteFound
      split
      · exact spelled.note (known path List.mem_cons_self) _
      · exact spelled

theorem Spelled.noteAll_true {good : String → Prop} {records : Records}
    (spelled : Spelled good records) (tree : Tree) (paths : List String) :
    Spelled (fun _ => True) (Watcher.noteAll tree records paths).1 := by
  have plain : Spelled (fun _ => True) records :=
    ⟨spelled.distinct, fun entry member => ⟨(spelled.each entry member).1, trivial⟩⟩
  exact Spelled.noteAll (records, []) plain fun _ _ => trivial

/-! ## Files that were not found -/

/-- The missing files are the known ones that were not found, where every file that was found
has a time of change. -/
theorem mem_components_missing {good : String → Prop} {records : Records}
    (spelled : Spelled good records)
    (timed : ∀ path ∈ paths, ∃ time, tree.modified? path = some time)
    {key : List Path.Component} :
    key ∈ (missing tree records paths).map Path.components ↔
      (time? records key).isSome ∧ key ∉ paths.map Path.components := by
  have present : (paths.filter fun path => (tree.modified? path).isSome) = paths := by
    rw [List.filter_eq_self]
    intro path member
    obtain ⟨time, modified⟩ := timed path member
    rw [modified, Option.isSome_some]
  have known : (time? records key).isSome ↔ key ∈ records.keys := by
    rw [← not_iff_not, ← time?_eq_none_iff, Option.not_isSome_iff_eq_none]
  rw [known, missing, present, Path.mem_components_foldl_insertSorted]
  simp only [Table.filter, Table.keys, List.map_nil, List.not_mem_nil, or_false, List.mem_map,
    List.mem_filter, List.contains_eq_mem, Bool.not_eq_true', decide_eq_false_iff_not]
  constructor
  · rintro ⟨path, ⟨entry, ⟨member, absent⟩, rfl⟩, rfl⟩
    rw [(spelled.each entry member).1]
    exact ⟨⟨entry, member, rfl⟩, absent⟩
  · rintro ⟨⟨entry, member, rfl⟩, absent⟩
    exact ⟨entry.2.path, ⟨entry, ⟨member, absent⟩, rfl⟩, (spelled.each entry member).1⟩

theorem ordered_missing (tree : Tree) (records : Records) (paths : List String) :
    Path.Ordered (missing tree records paths) :=
  Path.ordered_foldl_insertSorted List.Pairwise.nil

theorem time?_foldl_erase (gone : List String) (records : Records)
    (key : List Path.Component) :
    time? (gone.foldl (fun left path => left.erase (Path.components path)) records) key =
      if key ∈ gone.map Path.components then none else time? records key := by
  induction gone generalizing records with
  | nil => rfl
  | cons path gone ih =>
      rw [List.foldl_cons, ih, time?, time?, Table.get?_erase, List.map_cons]
      by_cases here : Path.components path = key
      · simp [here]
      · simp [here, Ne.symm here]

theorem Spelled.foldl_erase {good : String → Prop} {records : Records}
    (spelled : Spelled good records) (gone : List String) :
    Spelled good (gone.foldl (fun left path => left.erase (Path.components path)) records) := by
  induction gone generalizing records with
  | nil => exact spelled
  | cons path gone ih =>
      apply ih
      refine ⟨Table.nodup_keys_filter spelled.distinct _, ?_⟩
      intro entry member
      exact spelled.each entry (List.mem_filter.mp member).1

theorem changesOf_map_deleted {gone : List String} (distinct : (gone.map Path.components).Nodup)
    (key : List Path.Component) :
    changesOf key (gone.map Change.deleted) =
      if key ∈ gone.map Path.components then [.deleted] else [] := by
  induction gone with
  | nil => rfl
  | cons path gone ih =>
      obtain ⟨fresh, distinct⟩ := List.nodup_cons.mp distinct
      rw [List.map_cons, changesOf_cons, ih distinct, List.map_cons]
      by_cases here : Path.components path = key
      · subst here
        simp [fresh, Change.path, Change.kind]
      · simp [here, Ne.symm here, Change.path]

end

/-! ## Rounds -/

theorem scan_of_error {search : Search} {tree : Tree} {records : Records} {failure : Failure}
    (refused : search.run tree = .error failure) :
    scan search tree records = (records, [], [failure]) := by
  rw [scan, refused]

theorem Spelled.scan {good : String → Prop} {search : Search} {tree : Tree} {records : Records}
    (spelled : Spelled good records)
    (known : ∀ finding, search.run tree = .ok finding → ∀ path ∈ finding.paths, good path) :
    Spelled good (Watcher.scan search tree records).1 := by
  unfold Watcher.scan
  split
  · exact spelled
  · rename_i finding searched
    dsimp only
    have noted : Spelled good (Watcher.noteAll tree records finding.paths).1 :=
      Spelled.noteAll (records, []) spelled (known finding searched)
    split
    · exact noted.foldl_erase _
    · exact noted

structure Notes (tree : Tree) (paths : List String) (before after : Records)
    (changes : List Change) : Prop where
  found : ∀ path ∈ paths, ∃ time, tree.modified? path = some time ∧
    time? after (Path.components path) = some time ∧
    changesOf (Path.components path) changes =
      difference (time? before (Path.components path)) (some time)
  missed : ∀ key ∉ paths.map Path.components,
    time? after key = time? before key ∧ changesOf key changes = []

theorem timed_of_run {search : Search} {tree : Tree} {finding : Finding}
    (searched : search.run tree = .ok finding) {path : String} (member : path ∈ finding.paths) :
    ∃ time, tree.modified? path = some time := by
  obtain ⟨-, -, -, file, -⟩ := Source.Search.met_of_mem_run searched member
  exact Tree.modified?_of_isFile file

theorem notes_noteAll {search : Search} {tree : Tree} {finding : Finding}
    (searched : search.run tree = .ok finding) (records : Records) :
    Notes tree finding.paths records (noteAll tree records finding.paths).1
      (noteAll tree records finding.paths).2 := by
  constructor
  · intro path member
    obtain ⟨time, modified⟩ := timed_of_run searched member
    have distinct := (Source.Search.ordered_of_run searched).nodup
    exact ⟨time, modified,
      noteFound_of_mem (records, []) distinct member modified⟩
  · intro key absent
    obtain ⟨same, quiet⟩ := noteFound_of_not_mem tree (records, []) absent
    exact ⟨congrArg (Option.map Record.modified) same, quiet⟩

section

variable {tree : Tree} {finding : Finding} {before noted : Records} {changes : List Change}

/-- A partial round leaves it at the notes. -/
theorem Notes.compares_of_partial (notes : Notes tree finding.paths before noted changes)
    (partly : finding.complete = false) : Compares tree finding before noted changes := by
  constructor
  · intro path member
    obtain ⟨time, modified, known, changed⟩ := notes.found path member
    refine ⟨time, modified, known, changed.trans ?_⟩
    cases time? before (Path.components path) <;> rfl
  · intro key absent complete
    rw [partly] at complete
    cases complete
  · intro key absent _
    exact notes.missed key absent

/-- A complete round goes on to forget the missing files. -/
theorem Notes.compares_of_complete {good : String → Prop}
    (notes : Notes tree finding.paths before noted changes) (spelled : Spelled good noted)
    (complete : finding.complete = true) :
    Compares tree finding before
      ((missing tree noted finding.paths).foldl
        (fun left path => left.erase (Path.components path)) noted)
      (changes ++ (missing tree noted finding.paths).map Change.deleted) := by
  have gone (key : List Path.Component) :
      key ∈ (missing tree noted finding.paths).map Path.components ↔
        (time? noted key).isSome ∧ key ∉ finding.paths.map Path.components :=
    mem_components_missing spelled fun path member =>
      (notes.found path member).imp fun _ found => found.1
  have distinct := (ordered_missing tree noted finding.paths).nodup
  constructor
  · intro path member
    obtain ⟨time, modified, known, changed⟩ := notes.found path member
    have here : Path.components path ∉
        (missing tree noted finding.paths).map Path.components := by
      rw [gone]
      exact fun absent => absent.2 (List.mem_map_of_mem member)
    refine ⟨time, modified, ?_, ?_⟩
    · rw [time?_foldl_erase, if_neg here, known]
    · rw [changesOf_append, changed, changesOf_map_deleted distinct, if_neg here,
        List.append_nil]
      cases time? before (Path.components path) <;> rfl
  · intro key absent _
    obtain ⟨known, quiet⟩ := notes.missed key absent
    have forgotten : key ∈ (missing tree noted finding.paths).map Path.components ↔
        (time? before key).isSome := by
      rw [gone, known, and_iff_left absent]
    rw [time?_foldl_erase, changesOf_append, quiet, List.nil_append,
      changesOf_map_deleted distinct, known]
    simp only [forgotten]
    cases time? before key <;> simp
  · intro key absent partly
    rw [complete] at partly
    cases partly

end

/-- A round whose search is not refused compares what was found with what was known. -/
theorem compares_scan {good : String → Prop} {search : Search} {tree : Tree}
    {records : Records} (spelled : Spelled good records) {finding : Finding}
    (searched : search.run tree = .ok finding) :
    Compares tree finding records (scan search tree records).1
      (scan search tree records).2.1 := by
  have notes := notes_noteAll searched records
  have noted := spelled.noteAll_true tree finding.paths
  rw [scan, searched]
  dsimp only
  split
  · rename_i complete
    exact notes.compares_of_complete noted complete
  · rename_i partly
    exact notes.compares_of_partial (Bool.not_eq_true _ ▸ partly)

/-- The changes of a path are the difference between what is known of it before a round and
after it. -/
theorem Compares.changesOf_eq {tree : Tree} {finding : Finding} {before after : Records}
    {changes : List Change} (compares : Compares tree finding before after changes)
    (key : List Path.Component) :
    changesOf key changes = difference (time? before key) (time? after key) := by
  by_cases present : key ∈ finding.paths.map Path.components
  · obtain ⟨path, member, rfl⟩ := List.mem_map.mp present
    obtain ⟨time, -, known, changed⟩ := compares.found path member
    rw [known, changed]
    cases time? before (Path.components path) <;> rfl
  · cases complete : finding.complete with
    | true =>
        obtain ⟨known, changed⟩ := compares.missed key present complete
        rw [known, changed]
        cases time? before key <;> rfl
    | false =>
        obtain ⟨known, changed⟩ := compares.kept key present complete
        rw [known, changed, difference_self]

end ScopeLowering.Watcher
