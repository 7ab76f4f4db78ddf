import ScopeLowering.Proofs.Files.Redaction
import ScopeLowering.Proofs.Files.Remaking

/-!
# Twin trees

Trees are twins if they differ in the texts of generated files only. An operation on files
fails in both for the same reason, or changes both in the same way: the entries that it puts
do not depend on those texts.
-/

namespace ScopeLowering

namespace Table

variable {α β γ : Type} [DecidableEq α]

theorem mapValues_insert (table : Table α β) (key : α) (value : β) (change : β → γ) :
    (table.insert key value).mapValues change =
      (table.mapValues change).insert key (change value) := by
  obtain ⟨entries⟩ := table
  simp only [insert, mapValues, mk.injEq]
  induction entries with
  | nil => rfl
  | cons entry entries ih =>
      rw [put, List.map_cons, put]
      split
      · rfl
      · rw [List.map_cons, ih]

end Table

namespace Files.Tree

def patch (tree : Tree) (changes : List (Key × Node)) : Tree :=
  { tree with
    nodes := changes.foldl (fun nodes change => nodes.insert change.1 change.2) tree.nodes }

@[simp]
theorem patch_nil (tree : Tree) : tree.patch [] = tree := rfl

theorem patch_append (tree : Tree) (earlier later : List (Key × Node)) :
    tree.patch (earlier ++ later) = (tree.patch earlier).patch later := by
  simp [patch, List.foldl_append]

theorem redacted_patch (tree : Tree) (changes : List (Key × Node)) :
    (tree.patch changes).redacted =
      tree.redacted.patch (changes.map fun change => (change.1, change.2.redacted)) := by
  induction changes generalizing tree with
  | nil => rfl
  | cons change changes ih =>
      have first : (tree.patch [change]).redacted =
          tree.redacted.patch [(change.1, change.2.redacted)] :=
        congrArg (Tree.mk · tree.clock) (Table.mapValues_insert ..)
      rw [← List.singleton_append, patch_append, ih, first, ← patch_append]
      rfl

/-- Trees that differ in the texts of generated files only. -/
def Twins (first second : Tree) : Prop := first.redacted = second.redacted

/-- Two results of an operation on twins: the same fault, or the same changes. -/
inductive Alike (first second : Tree) : Except Fault Tree → Except Fault Tree → Prop
  | ok (changes : List (Key × Node)) :
      Alike first second (.ok (first.patch changes)) (.ok (second.patch changes))
  | error (fault : Fault) : Alike first second (.error fault) (.error fault)

namespace Twins

variable {first second : Tree}

theorem patch (twins : first.Twins second) (changes : List (Key × Node)) :
    (first.patch changes).Twins (second.patch changes) := by
  rw [Twins, redacted_patch, redacted_patch, twins]

theorem clock (twins : first.Twins second) : first.clock = second.clock := by
  have same : first.redacted.clock = second.redacted.clock := by rw [twins]
  exact same

theorem isDirectory (twins : first.Twins second) (path : String) :
    first.isDirectory path = second.isDirectory path := by
  rw [← isDirectory_redacted, twins, isDirectory_redacted]

theorem read (twins : first.Twins second) (path : String) :
    Source.read first path = Source.read second path := by
  rw [← read_redacted, twins, read_redacted]

/-- A path leads to the same place in twins, but for the text of a generated file. -/
theorem locate_cases (twins : first.Twins second) (path : String) :
    (∃ fault, first.locate path = .error fault ∧ second.locate path = .error fault) ∨
      (∃ key, first.locate path = .ok (.vacant key) ∧ second.locate path = .ok (.vacant key)) ∨
      ∃ key one two, first.locate path = .ok (.occupied key one) ∧
        second.locate path = .ok (.occupied key two) ∧ one.redacted = two.redacted := by
  have same : (first.locate path).map Place.redacted = (second.locate path).map Place.redacted := by
    rw [← locate_redacted, twins, locate_redacted]
  generalize first.locate path = one at same ⊢
  generalize second.locate path = two at same ⊢
  obtain fault | ⟨key, one⟩ | key := one <;> obtain fault' | ⟨key', two⟩ | key' := two <;>
    simp_all [Except.map, Place.redacted]

/-! ## Operations -/

theorem create (twins : first.Twins second) (key : Key) (entry : Entry) :
    Alike first second (first.create key entry) (second.create key entry) := by
  have same : (first.nodes.get? key.dropLast).map Node.redacted =
      (second.nodes.get? key.dropLast).map Node.redacted := by
    rw [← get?_redacted, twins, get?_redacted]
  cases one : first.nodes.get? key.dropLast with
  | none =>
      rw [one] at same
      have two : second.nodes.get? key.dropLast = none := Option.map_eq_none_iff.mp same.symm
      rw [Tree.create, one, Tree.create, two]
      exact .error _
  | some outer =>
      rw [one] at same
      obtain ⟨outer', two, alike⟩ := Option.map_eq_some_iff.mp same.symm
      have opens : outer'.isOpen ↔ outer.isOpen := by
        rw [Node.isOpen, Node.isOpen, ← outer'.isDirectory_redacted, ← outer'.access_redacted,
          alike, Node.isDirectory_redacted, Node.access_redacted]
      by_cases allows : outer.isOpen
      · rw [create_of_open one allows, create_of_open two (opens.mpr allows)]
        exact .ok [(key, ⟨entry, .writable⟩)]
      · rw [create_of_closed one allows, create_of_closed two (mt opens.mp allows)]
        exact .error _

theorem makeDirectory (twins : first.Twins second) (path : String) :
    Alike first second (first.makeDirectory path) (second.makeDirectory path) := by
  rw [Tree.makeDirectory, Tree.makeDirectory]
  obtain ⟨fault, one, two⟩ | ⟨key, one, two⟩ | ⟨key, _, _, one, two, -⟩ := twins.locate_cases path
  · rw [one, two]
    exact .error fault
  · rw [one, two]
    exact twins.create key .directory
  · rw [one, two]
    exact .error _

/-- Making a chain of directories puts the same entries into twins, up to the same fault. -/
theorem makeChain (twins : first.Twins second) (paths : List String) :
    ∃ changes fault, first.makeChain paths = (first.patch changes, fault) ∧
      second.makeChain paths = (second.patch changes, fault) := by
  have settled {one two : Tree} (twins : one.Twins two) (path : String)
      {result result' : Except Fault Tree} (alike : Alike one two result result') :
      ∃ changes fault, makeChain.settle one path result = (one.patch changes, fault) ∧
        makeChain.settle two path result' = (two.patch changes, fault) := by
    cases alike with
    | ok changes => exact ⟨changes, none, rfl, rfl⟩
    | error fault =>
        refine ⟨[], _, rfl, ?_⟩
        rw [makeChain.settle, twins.isDirectory, patch_nil]
  induction paths with
  | nil => exact ⟨[], none, rfl, rfl⟩
  | cons path above ih =>
      have made := twins.makeDirectory path
      rw [Tree.makeChain, Tree.makeChain]
      generalize first.makeDirectory path = result at made
      generalize second.makeDirectory path = result' at made
      cases made with
      | ok changes => exact ⟨changes, none, rfl, rfl⟩
      | error fault =>
          cases fault with
          | notFound =>
              obtain ⟨changes, fault, one, two⟩ := ih
              rw [one, two]
              cases fault with
              | some fault => exact ⟨changes, some fault, rfl, rfl⟩
              | none =>
                  obtain ⟨more, last, one, two⟩ := settled (twins.patch changes) path
                    ((twins.patch changes).makeDirectory path)
                  refine ⟨changes ++ more, last, ?_, ?_⟩
                  · rw [patch_append]
                    exact one
                  · rw [patch_append]
                    exact two
          | _ => exact settled twins path (.error _)

theorem makeDirectories (twins : first.Twins second) (path : String) :
    ∃ changes fault, first.makeDirectories path = (first.patch changes, fault) ∧
      second.makeDirectories path = (second.patch changes, fault) :=
  twins.makeChain _

/-- Writing puts the same file into twins, whatever was generated there before. -/
theorem write (twins : first.Twins second) (path : String) (content : Content) :
    Alike first second (first.write path content) (second.write path content) := by
  obtain ⟨nodes, clock⟩ := first
  obtain ⟨nodes', clock'⟩ := second
  obtain rfl : clock = clock' := twins.clock
  unfold Tree.write
  dsimp only
  obtain ⟨fault, one, two⟩ | ⟨key, one, two⟩ | ⟨key, node, node', one, two, same⟩ :=
    twins.locate_cases
      (if String.ofList (Text.dropTrailing (· = '/') path.toList) = "" then path
        else String.ofList (Text.dropTrailing (· = '/') path.toList))
  · rw [one, two]
    exact .error fault
  · rw [one, two]
    dsimp only
    split
    · exact .error _
    · exact twins.create key _
  · rw [one, two]
    dsimp only
    split
    · exact .error _
    · have access : node.access = node'.access := by
        rw [← node.access_redacted, same, node'.access_redacted]
      have directory : node.isDirectory = node'.isDirectory := by
        rw [← node.isDirectory_redacted, same, node'.isDirectory_redacted]
      obtain ⟨⟨old, modified⟩ | _, allowed⟩ := node <;>
        obtain ⟨⟨old', modified'⟩ | _, allowed'⟩ := node'
      · obtain rfl : allowed = allowed' := access
        cases allowed with
        | writable => exact .ok [(key, ⟨.file content clock, .writable⟩)]
        | _ => exact .error _
      · cases directory
      · cases directory
      · exact .error _

end Twins

end Files.Tree

end ScopeLowering
