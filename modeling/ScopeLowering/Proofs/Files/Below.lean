import Mathlib.Data.List.Perm.Subperm
import Mathlib.Data.List.Range
import ScopeLowering.Glob.Walk
import ScopeLowering.Proofs.Files.Proper

/-!
# What lies below a path

An entry that can be reached through a directory shows that the directory is open: it can be
reached, too, and its entries can be listed. So a path that can be followed to its end has an
entry for each of its names in the list of the directory before it.
-/

namespace ScopeLowering.Files

namespace Tree

theorem mem_children {tree : Tree} {key : Key} {name : String} {node : Node} :
    (name, node) ∈ tree.children key ↔ (key ++ [name], node) ∈ tree.nodes.entries := by
  rw [children, List.mem_mergeSort, List.mem_filterMap]
  constructor
  · rintro ⟨⟨other, entry⟩, member, found⟩
    dsimp only at found
    split at found
    · split at found
      · rename_i spelled
        obtain ⟨rfl, rfl⟩ := Prod.mk.inj (Option.some.inj found)
        exact spelled ▸ member
      · cases found
    · cases found
  · intro member
    exact ⟨_, member, by simp⟩

/-! ## Following a path further -/

/-- A path that leads to an entry goes on from the entry that its first piece leads to. -/
theorem follow_cons_occupied {tree : Tree} {key target : Key} {node last : Node}
    {piece : String} {rest : List String}
    (found : tree.follow key node (piece :: rest) = .ok (.occupied target last)) :
    node.isDirectory = true ∧ (piece ≠ "" → node.access ≠ .locked) ∧ ∃ next child,
      (∀ more, tree.follow key node (piece :: more) = tree.follow next child more) ∧
        tree.follow next child rest = .ok (.occupied target last) := by
  have directory := (follow_cons_ok found).1
  have whole : node.isFile = false := by simp [Node.isFile, directory]
  rw [follow.eq_def] at found
  simp only [whole, Bool.false_eq_true, if_false] at found
  split at found
  · rename_i empty
    refine ⟨directory, fun named => absurd empty named, key, node, ?_, found⟩
    intro more
    rw [follow.eq_def]
    simp [whole, empty]
  · rename_i named
    split at found
    · cases found
    · rename_i unlocked
      refine ⟨directory, fun _ => unlocked, ?_⟩
      split at found
      · rename_i dot
        refine ⟨key, node, ?_, found⟩
        intro more
        rw [follow.eq_def]
        simp [whole, unlocked, dot]
      · rename_i notDot
        split at found
        · rename_i dots
          split at found
          · rename_i first others parent above
            refine ⟨_, parent, ?_, found⟩
            intro more
            rw [follow.eq_def]
            simp [whole, unlocked, dots, above]
          · cases found
        · rename_i notDots
          split at found
          · rename_i child below
            refine ⟨_, child, ?_, found⟩
            intro more
            rw [follow.eq_def]
            simp [whole, named, unlocked, notDot, notDots, below]
          · split at found
            · cases found
            · cases found

theorem follow_append_of_ok {tree : Tree} {front rest : List String} {key next : Key}
    {node child : Node} (found : tree.follow key node front = .ok (.occupied next child)) :
    tree.follow key node (front ++ rest) = tree.follow next child rest := by
  induction front generalizing key node with
  | nil =>
      obtain ⟨rfl, rfl⟩ : key = next ∧ node = child := by simpa [follow] using found
      rfl
  | cons piece front ih =>
      obtain ⟨-, -, middle, inner, onward, there⟩ := follow_cons_occupied found
      rw [List.cons_append, onward]
      exact ih there

theorem exists_of_follow_append {tree : Tree} {front rest : List String} {key target : Key}
    {node last : Node}
    (found : tree.follow key node (front ++ rest) = .ok (.occupied target last)) :
    ∃ next child, tree.follow key node front = .ok (.occupied next child) ∧
      tree.follow next child rest = .ok (.occupied target last) := by
  induction front generalizing key node with
  | nil => exact ⟨key, node, rfl, found⟩
  | cons piece front ih =>
      obtain ⟨-, -, middle, inner, onward, there⟩ := follow_cons_occupied found
      rw [onward]
      exact ih there

/-- Idle pieces stay in an open directory. -/
theorem follow_idle {tree : Tree} {pieces : List String} {key : Key} {node : Node}
    (directory : node.isDirectory = true) (unlocked : node.access ≠ .locked)
    (idle : ∀ piece ∈ pieces, Path.isIdle piece = true) :
    tree.follow key node pieces = .ok (.occupied key node) := by
  induction pieces with
  | nil => rfl
  | cons piece pieces ih =>
      have here := idle piece List.mem_cons_self
      rw [follow.eq_def]
      simp only [Node.isFile, directory, Bool.not_true, Bool.false_eq_true, if_false]
      rw [ih fun other member => idle other (List.mem_cons_of_mem _ member)]
      rcases (by simpa [Path.isIdle] using here : piece = "" ∨ piece = ".") with rfl | rfl
      · simp
      · simp [unlocked]

/-! ## Paths that can be followed -/

theorem stat_eq_ok_iff {tree : Tree} {path : String} {node : Node} :
    tree.stat path = .ok node ↔ ∃ key, tree.locate path = .ok (.occupied key node) := by
  unfold stat
  split <;> simp [*]

theorem locate_eq_occupied_iff {tree : Tree} {path : String} {key : Key} {node : Node} :
    tree.locate path = .ok (.occupied key node) ↔ path ≠ "" ∧ Path.isAbsolute path = false ∧
      ∃ top, tree.nodes.get? [] = some top ∧
        tree.follow [] top (Path.pieces path) = .ok (.occupied key node) := by
  unfold locate
  cases tree.nodes.get? [] with
  | none => simp
  | some top =>
      by_cases usual : path = "" ∨ Path.isAbsolute path = true
      · rcases usual with rfl | absolute
        · simp
        · simp [absolute]
      · rw [not_or, Bool.not_eq_true] at usual
        simp [usual]

theorem isDirectory_of_locate {tree : Tree} {path : String} {key : Key} {node : Node}
    (located : tree.locate path = .ok (.occupied key node))
    (directory : node.isDirectory = true) : tree.isDirectory path = true := by
  rw [isDirectory, stat_eq_ok_iff.mpr ⟨key, located⟩]
  exact directory

theorem list_of_locate {tree : Tree} {path : String} {key : Key} {node : Node}
    (located : tree.locate path = .ok (.occupied key node))
    (directory : node.isDirectory = true) (unlocked : node.access ≠ .locked) :
    tree.list path = .ok (tree.children key) := by
  simp [list, located, Node.isFile, directory, unlocked]

/-- What a longer path leads to is reached from the entry that the shorter one leads to. -/
structure Passes (tree : Tree) (directory path : String) (target : Key) (last : Node) (key : Key)
    (node : Node) : Prop where
  located : tree.locate directory = .ok (.occupied key node)
  onward : tree.follow key node (Path.pieces path) = .ok (.occupied target last)

theorem Passes.isDirectory {tree : Tree} {directory path : String} {target key : Key}
    {last node : Node} (passes : tree.Passes directory path target last key node) :
    node.isDirectory = true := by
  obtain ⟨first, rest, split⟩ := List.exists_cons_of_ne_nil (Path.pieces_ne_nil path)
  have onward := passes.onward
  rw [split] at onward
  exact (follow_cons_ok onward).1

theorem passes_of_locate_join {tree : Tree} {directory path : String} {target : Key}
    {last : Node} (named : directory ≠ "")
    (found : tree.locate (Path.join directory path) = .ok (.occupied target last)) :
    ∃ key node, tree.Passes directory path target last key node := by
  obtain ⟨-, relative, top, here, followed⟩ := locate_eq_occupied_iff.mp found
  obtain ⟨outer, inner⟩ := Path.relative_of_join named relative
  obtain ⟨front, joined, alone⟩ := Path.pieces_join named inner
  rw [joined] at followed
  obtain ⟨key, node, arrived, onward⟩ := exists_of_follow_append followed
  refine ⟨key, node, ?_, onward⟩
  refine locate_eq_occupied_iff.mpr ⟨named, outer, top, here, ?_⟩
  rcases alone with same | slashed
  · rw [same, arrived]
  · rw [slashed, follow_append_of_ok arrived]
    obtain ⟨first, rest, split⟩ := List.exists_cons_of_ne_nil (Path.pieces_ne_nil path)
    rw [split] at onward
    have directory := (follow_cons_ok onward).1
    rw [follow.eq_def]
    simp [Node.isFile, directory, follow]

/-- The pieces of a path whose only component is a leading dot are idle. -/
theorem idle_of_components_eq_here {path : String} (here : Path.components path = [.here]) :
    path ≠ "" ∧ Path.isAbsolute path = false ∧
      ∀ piece ∈ Path.pieces path, Path.isIdle piece = true := by
  have named : path ≠ "" := by
    rintro rfl
    cases here
  have relative : Path.isAbsolute path = false := by
    rw [← Bool.not_eq_true]
    intro absolute
    have spelled : path.toList.head? = some '/' := by simpa [Path.isAbsolute] using absolute
    obtain ⟨text, same⟩ := List.head?_eq_some_iff.mp spelled
    obtain ⟨first, rest, split⟩ := List.exists_cons_of_ne_nil (List.splitOn_ne_nil '/' text)
    simp [Path.components, Path.pieces, same, List.splitOn_cons_eq_if_modifyHead, split] at here
  refine ⟨named, relative, ?_⟩
  intro piece member
  rw [Path.components_eq named relative] at here
  rcases Path.innerComponent?_eq piece with ⟨-, idle⟩ | ⟨step, -, -⟩ | ⟨step, -, -⟩
  · exact idle
  · have inner : .up ∈ (Path.pieces path).filterMap Path.innerComponent? :=
      List.mem_filterMap.mpr ⟨piece, member, step⟩
    have listed := List.mem_append_right
      (if (Path.pieces path).head? = some "." then [Path.Component.here] else []) inner
    rw [here] at listed
    simp at listed
  · have inner : .name piece ∈ (Path.pieces path).filterMap Path.innerComponent? :=
      List.mem_filterMap.mpr ⟨piece, member, step⟩
    have listed := List.mem_append_right
      (if (Path.pieces path).head? = some "." then [Path.Component.here] else []) inner
    rw [here] at listed
    simp at listed

theorem passes_of_locate_extend {tree : Tree} {directory path : String} {target : Key}
    {last : Node} (named : directory ≠ "")
    (found : tree.locate (Glob.extend directory path) = .ok (.occupied target last)) :
    ∃ key node, tree.Passes directory path target last key node := by
  unfold Glob.extend at found
  split at found
  · rename_i here
    obtain ⟨-, relative, idle⟩ := idle_of_components_eq_here here
    obtain ⟨spelled, inner, top, there, followed⟩ := locate_eq_occupied_iff.mp found
    obtain ⟨first, rest, split, nonempty⟩ := Path.exists_pieces_cons spelled inner
    have onward := followed
    rw [split] at followed
    obtain ⟨directory, unlocked, -⟩ := follow_cons_occupied followed
    exact ⟨[], top, locate_eq_occupied_iff.mpr ⟨named, relative, top, there,
      follow_idle directory (unlocked nonempty) idle⟩, onward⟩
  · exact passes_of_locate_join named found

/-- A directory that is passed by a path with a first piece can be listed. -/
theorem Passes.list {tree : Tree} {directory path : String} {target key : Key}
    {last node : Node} (passes : tree.Passes directory path target last key node)
    {first : String} {rest : List String} (split : Path.pieces path = first :: rest)
    (nonempty : first ≠ "") : tree.list directory = .ok (tree.children key) := by
  have onward := passes.onward
  rw [split] at onward
  obtain ⟨directory, unlocked, -⟩ := follow_cons_occupied onward
  exact list_of_locate passes.located directory (unlocked nonempty)

/-- A name leads to the entry with that name. -/
theorem Passes.child {tree : Tree} {directory name : String} {target key : Key}
    {last node : Node} (passes : tree.Passes directory name target last key node)
    (isName : IsName name) :
    target = key ++ [name] ∧ tree.nodes.get? (key ++ [name]) = some last := by
  have onward := passes.onward
  rw [isName.pieces] at onward
  obtain ⟨named, dot, dots, -⟩ := isName
  obtain ⟨-, ⟨idle, -⟩ | ⟨up, -⟩ | ⟨-, ⟨child, below, arrived⟩ | ⟨-, -, vacant⟩⟩⟩ :=
    follow_cons_ok onward
  · exact absurd idle (by simp [named, dot])
  · exact absurd up dots
  · obtain ⟨rfl, rfl⟩ : key ++ [name] = target ∧ child = last := by simpa [follow] using arrived
    exact ⟨rfl, below⟩
  · cases vacant

/-- A directory that is open at a name: it can be reached and listed, and the name is that of
one of its entries. -/
structure OpenAt (tree : Tree) (directory name : String) (key : Key) (node child : Node) :
    Prop where
  located : tree.locate directory = .ok (.occupied key node)
  isDirectory : tree.isDirectory directory = true
  list : tree.list directory = .ok (tree.children key)
  member : (name, child) ∈ tree.children key
  below : tree.locate (Glob.extend directory name) = .ok (.occupied (key ++ [name]) child)
  found : tree.nodes.get? (key ++ [name]) = some child

theorem openAt_of_stat_extend {tree : Tree} {directory name : String} {child : Node}
    (named : directory ≠ "") (isName : IsName name)
    (there : tree.stat (Glob.extend directory name) = .ok child) :
    ∃ key node, tree.OpenAt directory name key node child := by
  obtain ⟨target, located⟩ := stat_eq_ok_iff.mp there
  obtain ⟨key, node, passes⟩ := passes_of_locate_extend named located
  obtain ⟨rfl, found⟩ := passes.child isName
  exact ⟨key, node, passes.located, isDirectory_of_locate passes.located passes.isDirectory,
    passes.list isName.pieces isName.1, mem_children.mpr (Table.mem_of_get? found), located,
    found⟩

/-! ## Paths that lead somewhere -/

theorem exists_stat_of_isDirectory {tree : Tree} {path : String}
    (directory : tree.isDirectory path = true) : ∃ node, tree.stat path = .ok node := by
  unfold isDirectory at directory
  split at directory
  · exact ⟨_, ‹_›⟩
  · cases directory

theorem exists_stat_of_join {tree : Tree} {directory path : String} (named : directory ≠ "")
    (there : ∃ node, tree.stat (Path.join directory path) = .ok node) :
    ∃ node, tree.stat directory = .ok node := by
  obtain ⟨last, there⟩ := there
  obtain ⟨target, located⟩ := stat_eq_ok_iff.mp there
  obtain ⟨key, node, passes⟩ := passes_of_locate_join named located
  exact ⟨node, stat_eq_ok_iff.mpr ⟨key, passes.located⟩⟩

theorem exists_stat_of_extend {tree : Tree} {directory path : String} (named : directory ≠ "")
    (there : ∃ node, tree.stat (Glob.extend directory path) = .ok node) :
    ∃ node, tree.stat directory = .ok node := by
  obtain ⟨last, there⟩ := there
  obtain ⟨target, located⟩ := stat_eq_ok_iff.mp there
  obtain ⟨key, node, passes⟩ := passes_of_locate_extend named located
  exact ⟨node, stat_eq_ok_iff.mpr ⟨key, passes.located⟩⟩

theorem extend_ne_empty {directory name : String} (named : directory ≠ "")
    (isName : IsName name) : Glob.extend directory name ≠ "" := by
  unfold Glob.extend
  split
  · exact isName.1
  · exact Path.join_ne_empty named

/-! ## Depth -/

/-- Every entry that a path leads to lies below entries of the tree. -/
theorem prefixes_of_follow {tree : Tree} {pieces : List String} {key target : Key}
    {node last : Node} (found : tree.follow key node pieces = .ok (.occupied target last))
    (above : ∀ other, other <+: key → other ∈ tree.nodes.keys) :
    ∀ other, other <+: target → other ∈ tree.nodes.keys := by
  induction pieces generalizing key node with
  | nil =>
      obtain ⟨rfl, -⟩ : key = target ∧ node = last := by simpa [follow] using found
      exact above
  | cons piece rest ih =>
      obtain ⟨-, ⟨-, onward⟩ | ⟨-, -, parent, -, onward⟩ |
        ⟨-, ⟨child, below, onward⟩ | ⟨-, -, vacant⟩⟩⟩ := follow_cons_ok found
      · exact ih onward above
      · apply ih onward
        intro other before
        exact above other (before.trans (List.dropLast_prefix key))
      · apply ih onward
        intro other before
        rcases List.prefix_concat_iff.mp before with rfl | before
        · by_contra absent
          rw [Table.get?_eq_none_iff.mpr absent] at below
          cases below
        · exact above other before
      · cases vacant

/-- The beginnings of a key are as many different keys as it has names, and one more. -/
theorem length_lt_of_prefixes {key : Key} {keys : List Key}
    (above : ∀ other, other <+: key → other ∈ keys) : key.length < keys.length := by
  have distinct : ((List.range (key.length + 1)).map fun count => key.take count).Nodup := by
    refine List.Nodup.map_on ?_ List.nodup_range
    intro first firstMember second secondMember same
    have lengths := congrArg List.length same
    rw [List.mem_range] at firstMember secondMember
    simp only [List.length_take] at lengths
    omega
  have contained : ((List.range (key.length + 1)).map fun count => key.take count) ⊆ keys := by
    intro other member
    obtain ⟨count, -, rfl⟩ := List.mem_map.mp member
    exact above _ (List.take_prefix count key)
  have bound := (List.subperm_of_subset distinct contained).length_le
  rw [List.length_map, List.length_range] at bound
  exact bound

/-- A key is shorter than the tree is large. -/
theorem length_lt_size_of_locate {tree : Tree} {path : String} {key : Key} {node : Node}
    (located : tree.locate path = .ok (.occupied key node)) : key.length < tree.size := by
  obtain ⟨-, -, top, here, followed⟩ := locate_eq_occupied_iff.mp located
  have rooted : ∀ other : Key, other <+: [] → other ∈ tree.nodes.keys := by
    intro other before
    rw [List.prefix_nil.mp before]
    by_contra absent
    rw [Table.get?_eq_none_iff.mpr absent] at here
    cases here
  have shorter := length_lt_of_prefixes (prefixes_of_follow followed rooted)
  simpa [Table.keys, size, Table.size] using shorter

end Tree

end ScopeLowering.Files
