import ScopeLowering.Proofs.Files.Below

/-!
# Spellings of a file

The idle pieces of a path do not matter as long as a step comes after them. So whether a path
leads to a file depends on its components only, if the path does not end in an idle piece,
and the path of a file never does.
-/

namespace ScopeLowering.Path

def steps (path : String) : List String := (pieces path).filter fun piece => !isIdle piece

/-- A path as it is spelled for a file: it says something, starts in the working directory, and
ends with a step. -/
structure Bare (path : String) : Prop where
  named : path ≠ ""
  relative : isAbsolute path = false
  ended : ∀ last, (pieces path).getLast? = some last → isIdle last = false

end ScopeLowering.Path

namespace ScopeLowering.Files.Tree

variable {tree : Tree} {key target : Key} {node last : Node} {pieces : List String}
  {path other : String}

/-- A path that can be followed can be followed without its idle pieces. -/
theorem follow_steps_of_follow (found : tree.follow key node pieces = .ok (.occupied target last)) :
    tree.follow key node (pieces.filter fun piece => !Path.isIdle piece) =
      .ok (.occupied target last) := by
  induction pieces generalizing key node with
  | nil => exact found
  | cons piece rest ih =>
      by_cases idle : Path.isIdle piece = true
      · obtain ⟨-, ⟨-, onward⟩ | ⟨rfl, -⟩ | ⟨⟨named, dot, -⟩, -⟩⟩ := follow_cons_ok found
        · simpa [idle] using ih onward
        · cases idle
        · simp [Path.isIdle, named, dot] at idle
      · obtain ⟨-, -, next, child, onward, there⟩ := follow_cons_occupied found
        rw [List.filter_cons_of_pos (by simpa using idle), onward]
        exact ih there

/-- Idle pieces at the end lead to directories only. -/
theorem isIdle_of_follow_file (file : last.isFile = true)
    (found : tree.follow key node pieces = .ok (.occupied target last)) {final : String}
    (ended : pieces.getLast? = some final) : Path.isIdle final = false := by
  obtain ⟨front, rfl⟩ := List.getLast?_eq_some_iff.mp ended
  obtain ⟨next, child, -, step⟩ := exists_of_follow_append found
  rw [← Bool.not_eq_true]
  intro idle
  obtain ⟨directory, ⟨-, stays⟩ | ⟨rfl, -⟩ | ⟨⟨named, dot, -⟩, -⟩⟩ := follow_cons_ok step
  · obtain ⟨-, rfl⟩ : next = target ∧ child = last := by simpa [follow] using stays
    simp [Node.isFile, directory] at file
  · cases idle
  · simp [Path.isIdle, named, dot] at idle

theorem isFile_iff : tree.isFile path = true ↔
    ∃ key node, tree.locate path = .ok (.occupied key node) ∧ node.isFile = true := by
  unfold isFile
  constructor
  · intro file
    split at file
    · rename_i node there
      obtain ⟨key, located⟩ := stat_eq_ok_iff.mp there
      exact ⟨key, node, located, file⟩
    · cases file
  · rintro ⟨key, node, located, file⟩
    rw [stat_eq_ok_iff.mpr ⟨key, located⟩]
    exact file

theorem bare_of_isFile (file : tree.isFile path = true) : Path.Bare path := by
  obtain ⟨key, node, located, whole⟩ := isFile_iff.mp file
  obtain ⟨named, relative, top, -, found⟩ := locate_eq_occupied_iff.mp located
  exact ⟨named, relative, fun _ ended => isIdle_of_follow_file whole found ended⟩

/-- Without steps up, the steps of a path are added to the key. -/
theorem key_of_follow (level : ".." ∉ pieces)
    (found : tree.follow key node pieces = .ok (.occupied target last)) :
    target = key ++ pieces.filter fun piece => !Path.isIdle piece := by
  induction pieces generalizing key node with
  | nil =>
      obtain ⟨rfl, -⟩ : key = target ∧ node = last := by simpa [follow] using found
      exact (List.append_nil key).symm
  | cons piece rest ih =>
      rw [List.mem_cons, not_or] at level
      obtain ⟨-, ⟨idle, onward⟩ | ⟨up, -⟩ |
        ⟨⟨named, dot, -⟩, ⟨child, -, onward⟩ | ⟨-, -, vacant⟩⟩⟩ := follow_cons_ok found
      · have quiet : Path.isIdle piece = true := by simpa [Path.isIdle] using idle
        rw [List.filter_cons_of_neg (by simp [quiet])]
        exact ih level.2 onward
      · exact absurd up.symm level.1
      · rw [List.filter_cons_of_pos (by simp [Path.isIdle, named, dot]), ← List.singleton_append,
          ← List.append_assoc]
        exact ih level.2 onward
      · cases vacant

/-- A path leads to the entry at a key, whatever permissions are in the way. -/
def Reaches (tree : Tree) (path : String) (key : Key) : Prop :=
  ∃ node, tree.unlocked.locate path = .ok (.occupied key node)

theorem Reaches.key_eq (reaches : tree.Reaches path key) (level : .up ∉ Path.components path) :
    key = Path.names path ∧ path ≠ "" ∧ Path.isAbsolute path = false := by
  obtain ⟨node, located⟩ := reaches
  obtain ⟨named, relative, top, -, found⟩ := locate_eq_occupied_iff.mp located
  have added := key_of_follow (Path.up_not_mem_pieces named relative level) found
  rw [List.nil_append] at added
  exact ⟨added.trans (Path.components_eq_names named relative level).1.symm, named, relative⟩

/-- Two paths without steps up that reach the same entry are the same path, unless just one of
them starts with a dot. -/
theorem Reaches.components_eq {later : Tree} (first : tree.Reaches path key)
    (second : later.Reaches other key)
    (level : .up ∉ Path.components path ∧ .up ∉ Path.components other)
    (dots : .here ∈ Path.components path ↔ .here ∈ Path.components other) :
    Path.components path = Path.components other := by
  obtain ⟨same, named, relative⟩ := first.key_eq level.1
  obtain ⟨alike, spelled, inner⟩ := second.key_eq level.2
  exact Path.components_eq_of_names_eq ⟨named, spelled⟩ ⟨relative, inner⟩ level dots
    (same.symm.trans alike)

/-! ## Permissions -/

theorem locate_unlocked (located : tree.locate path = .ok (.occupied key node)) :
    tree.unlocked.locate path = .ok (.occupied key node.unlocked) := by
  obtain ⟨leads, there⟩ := leadsTo_of_locate_occupied located
  exact locate_unlocked_of_leadsTo leads there

end ScopeLowering.Files.Tree
