import ScopeLowering.Proofs.Files.Respelling
import ScopeLowering.Proofs.Path.Parent

/-!
# The directory of a file

A path that leads to a file names it by its last piece, and what comes before that piece leads to
the directory of the file.
-/

namespace ScopeLowering.Files.Tree

variable {tree : Tree} {key target outer : Key} {node last top : Node} {pieces front : List String}
  {path directory name : String}

/-- What a path leads to lies in directories. -/
theorem hasDirectory_of_follow (here : tree.nodes.get? key = some node)
    (above : ∀ other, other <+: key → other ≠ key → tree.HasDirectory other)
    (found : tree.follow key node pieces = .ok (.occupied target last)) :
    ∀ other, other <+: target → other ≠ target → tree.HasDirectory other := by
  induction pieces generalizing key node with
  | nil =>
      obtain ⟨rfl, -⟩ : key = target ∧ node = last := by simpa [follow] using found
      exact above
  | cons piece rest ih =>
      obtain ⟨directory, ⟨-, onward⟩ | ⟨-, nonempty, parent, there, onward⟩ |
        ⟨-, ⟨child, below, onward⟩ | ⟨-, -, vacant⟩⟩⟩ := follow_cons_ok found
      · exact ih here above onward
      · apply ih there _ onward
        intro other before shorter
        apply above other (before.trans (List.dropLast_prefix key))
        rintro rfl
        have bound := before.length_le
        rw [List.length_dropLast] at bound
        have positive := List.length_pos_of_ne_nil nonempty
        omega
      · apply ih below _ onward
        intro other before shorter
        rcases List.prefix_concat_iff.mp before with rfl | before
        · exact absurd rfl shorter
        · by_cases same : other = key
          · exact same ▸ ⟨node, here, directory⟩
          · exact above other before same
      · cases vacant

/-- The last piece on the way to a file is its name. -/
theorem exists_of_follow_file {piece : String} (here : tree.nodes.get? [] = some top)
    (found : tree.follow [] top (front ++ [piece]) = .ok (.occupied target last))
    (file : last.isFile = true) :
    ∃ outer node, tree.follow [] top front = .ok (.occupied outer node) ∧
      node.isDirectory = true ∧ target = outer ++ [piece] ∧
      piece ≠ "" ∧ piece ≠ "." ∧ piece ≠ ".." := by
  obtain ⟨outer, node, arrived, step⟩ := exists_of_follow_append found
  refine ⟨outer, node, arrived, ?_⟩
  obtain ⟨directory, ⟨-, stays⟩ | ⟨-, nonempty, parent, there, onward⟩ |
    ⟨named, ⟨child, below, onward⟩ | ⟨-, -, vacant⟩⟩⟩ := follow_cons_ok step
  · obtain ⟨-, rfl⟩ : outer = target ∧ node = last := by simpa [follow] using stays
    simp [Node.isFile, directory] at file
  · -- The step up leads to a directory, for the path came through it.
    obtain ⟨rfl, rfl⟩ : outer.dropLast = target ∧ parent = last := by
      simpa [follow] using onward
    have shorter : outer.dropLast ≠ outer := by
      intro same
      have lengths := congrArg List.length same
      rw [List.length_dropLast] at lengths
      have positive := List.length_pos_of_ne_nil nonempty
      omega
    obtain ⟨other, again, isDirectory⟩ := hasDirectory_of_follow here
      (fun other before shorter => absurd (List.prefix_nil.mp before) shorter) arrived _
      (List.dropLast_prefix outer) shorter
    obtain rfl := Option.some.inj (there.symm.trans again)
    simp [Node.isFile, isDirectory] at file
  · obtain ⟨rfl, rfl⟩ : outer ++ [piece] = target ∧ child = last := by
      simpa [follow] using onward
    exact ⟨directory, rfl, named⟩
  · cases vacant

/-- A directory is open at a path; the empty path stands for the top of the tree. -/
def Opens (tree : Tree) (directory : String) (key : Key) : Prop :=
  directory = "" ∧ key = [] ∨ tree.Reaches directory key

/-- Some pieces lead from the top to the entry at a key, whatever permissions are in the way. -/
def Arrives (tree : Tree) (pieces : List String) (key : Key) : Prop :=
  ∃ top node, tree.unlocked.nodes.get? [] = some top ∧
    tree.unlocked.follow [] top pieces = .ok (.occupied key node)

theorem reaches_iff_arrives (named : path ≠ "") (relative : Path.isAbsolute path = false) :
    tree.Reaches path key ↔ tree.Arrives (Path.pieces path) key := by
  simp only [Reaches, Arrives, locate_eq_occupied_iff, named, relative, ne_eq, not_false_eq_true,
    true_and]
  exact exists_comm

/-- The key of the entry that a path leads to, whatever permissions are in the way. -/
def key? (tree : Tree) (path : String) : Option Key :=
  match tree.unlocked.locate path with
  | .ok (.occupied key _) => some key
  | _ => none

theorem reaches_iff_key? : tree.Reaches path key ↔ tree.key? path = some key := by
  unfold Reaches key?
  split
  · rename_i other node located
    simp [located]
  · rename_i free
    simp only [reduceCtorEq, iff_false, not_exists]
    exact fun node located => free key node located

theorem Reaches.usual (reaches : tree.Reaches path key) :
    path ≠ "" ∧ Path.isAbsolute path = false := by
  obtain ⟨node, located⟩ := reaches
  obtain ⟨named, relative, -⟩ := locate_eq_occupied_iff.mp located
  exact ⟨named, relative⟩

/-- The entries of a tree without its permissions are open. -/
theorem exists_of_get?_unlocked (there : tree.unlocked.nodes.get? key = some node) :
    node.access = .writable ∧
      ∃ original, tree.nodes.get? key = some original ∧ node.isFile = original.isFile := by
  rw [get?_unlocked] at there
  obtain ⟨original, found, rfl⟩ := Option.map_eq_some_iff.mp there
  exact ⟨rfl, original, found, rfl⟩

theorem hasDirectory_unlocked (inside : tree.HasDirectory outer) :
    tree.unlocked.HasDirectory outer := by
  obtain ⟨directory, there, isDirectory⟩ := inside
  refine ⟨directory.unlocked, ?_, isDirectory⟩
  rw [get?_unlocked, there]
  rfl

theorem arrives_nil_iff (inside : tree.HasDirectory outer) :
    tree.Arrives [] outer ↔ outer = [] := by
  constructor
  · rintro ⟨top, node, -, arrived⟩
    obtain ⟨rfl, -⟩ : [] = outer ∧ top = node := by simpa [follow] using arrived
    rfl
  · rintro rfl
    obtain ⟨top, here, -⟩ := hasDirectory_unlocked inside
    exact ⟨top, top, here, rfl⟩

/-- A slash at the end of a path stays in the directory that the path leads to. -/
theorem arrives_concat_empty_iff (inside : tree.HasDirectory outer) :
    tree.Arrives (front ++ [""]) outer ↔ tree.Arrives front outer := by
  constructor
  · rintro ⟨top, node, here, found⟩
    obtain ⟨middle, other, arrived, step⟩ := exists_of_follow_append found
    obtain ⟨-, ⟨-, stays⟩ | ⟨wrong, -⟩ | ⟨⟨wrong, -⟩, -⟩⟩ := follow_cons_ok step
    · obtain ⟨rfl, rfl⟩ : middle = outer ∧ other = node := by simpa [follow] using stays
      exact ⟨top, other, here, arrived⟩
    · exact absurd wrong (by decide)
    · exact absurd rfl wrong
  · rintro ⟨top, node, here, arrived⟩
    obtain ⟨-, there⟩ := leads_of_follow_occupied here arrived
    obtain ⟨directory, again, isDirectory⟩ := hasDirectory_unlocked inside
    obtain rfl := Option.some.inj (there.symm.trans again)
    refine ⟨top, node, here, ?_⟩
    rw [follow_append_of_ok arrived, follow.eq_def]
    simp [Node.isFile, isDirectory, follow]

structure FileIn (tree : Tree) (outer : Key) (name : String) : Prop where
  isName : IsName name
  inside : tree.HasDirectory outer
  file : ∃ node, tree.nodes.get? (outer ++ [name]) = some node ∧ node.isFile = true

/-- Some pieces lead to a file if the last one is its name, and the others lead to its
directory. -/
theorem FileIn.arrives_concat_iff (fileIn : tree.FileIn outer name) {piece : String} :
    tree.Arrives (front ++ [piece]) (outer ++ [name]) ↔
      piece = name ∧ tree.Arrives front outer := by
  obtain ⟨⟨named, dot, dots, -⟩, ⟨directory, inside, isDirectory⟩, child, below, file⟩ := fileIn
  constructor
  · rintro ⟨top, node, here, found⟩
    obtain ⟨-, there⟩ := leads_of_follow_occupied here found
    obtain ⟨-, original, again, same⟩ := exists_of_get?_unlocked there
    obtain rfl := Option.some.inj (again.symm.trans below)
    obtain ⟨middle, other, arrived, -, ended, -⟩ :=
      exists_of_follow_file here found (same.trans file)
    obtain ⟨rfl, alike⟩ := List.append_inj' ended rfl
    exact ⟨(List.singleton_inj.mp alike).symm, top, other, here, arrived⟩
  · rintro ⟨rfl, top, node, here, arrived⟩
    obtain ⟨-, there⟩ := leads_of_follow_occupied here arrived
    obtain ⟨writable, original, again, same⟩ := exists_of_get?_unlocked there
    obtain rfl := Option.some.inj (again.symm.trans inside)
    have whole : node.isFile = false := by
      rw [same, Node.isFile, isDirectory]
      rfl
    have stored : tree.unlocked.nodes.get? (outer ++ [piece]) = some child.unlocked := by
      rw [get?_unlocked, below]
      rfl
    refine ⟨top, child.unlocked, here, ?_⟩
    rw [follow_append_of_ok arrived, follow.eq_def]
    simp [whole, writable, named, dot, dots, stored, follow]

/-- A path that is joined to a directory leads to a file if it is the name of the file and the
directory is that of the file. -/
theorem FileIn.reaches_join_iff (fileIn : tree.FileIn outer name) {piece : String}
    (spelled : piece ≠ "") (plain : '/' ∉ piece.toList) :
    tree.Reaches (Path.join directory piece) (outer ++ [name]) ↔
      piece = name ∧ tree.Opens directory outer := by
  have single := Path.pieces_of_no_slash plain
  have inner : Path.isAbsolute piece = false := (Path.usual single spelled).2
  by_cases named : directory = ""
  · subst named
    have alone : Path.join "" piece = piece := by simp [Path.join, inner]
    have unnamed : ¬ tree.Reaches "" outer := fun reaches => reaches.usual.1 rfl
    have step : tree.Arrives ([] ++ [piece]) (outer ++ [name]) ↔
        piece = name ∧ tree.Arrives [] outer := fileIn.arrives_concat_iff
    rw [alone, reaches_iff_arrives spelled inner, single, ← List.nil_append [piece], step,
      arrives_nil_iff fileIn.inside, Opens]
    simp [unnamed]
  · have opens : tree.Opens directory outer ↔ tree.Reaches directory outer := by
      simp [Opens, named]
    rw [opens]
    cases outside : Path.isAbsolute directory with
    | true =>
        constructor
        · intro reaches
          obtain ⟨relative, -⟩ := Path.relative_of_join named reaches.usual.2
          exact absurd outside (by simp [relative])
        · rintro ⟨-, reaches⟩
          exact absurd outside (by simp [reaches.usual.2])
    | false =>
        obtain ⟨front, joined, alone⟩ := Path.pieces_join named inner
        rw [reaches_iff_arrives (Path.join_ne_empty named)
          (Path.isAbsolute_join named outside inner), reaches_iff_arrives named outside, joined,
          single, fileIn.arrives_concat_iff]
        rcases alone with same | slashed
        · rw [same]
        · rw [slashed, arrives_concat_empty_iff fileIn.inside]

/-- A path leads to a file if its last piece is the name of the file and the rest leads to the
directory of the file. -/
theorem FileIn.reaches_slash_iff (fileIn : tree.FileIn outer name) {piece : String}
    (plain : '/' ∉ piece.toList) (named : directory ≠ "") :
    tree.Reaches (directory ++ "/" ++ piece) (outer ++ [name]) ↔
      piece = name ∧ tree.Reaches directory outer := by
  have slashed : directory ++ "/" ≠ "" := by simp
  have long : directory ++ "/" ++ piece ≠ "" := by simp
  have same : Path.isAbsolute (directory ++ "/" ++ piece) = Path.isAbsolute directory := by
    rw [Path.isAbsolute_append slashed, Path.isAbsolute_append named]
  have split : Path.pieces (directory ++ "/" ++ piece) = Path.pieces directory ++ [piece] := by
    rw [Path.pieces_append_slash, Path.pieces_of_no_slash plain]
  cases outside : Path.isAbsolute directory with
  | true =>
      constructor
      · intro reaches
        exact absurd (same.trans outside) (by simp [reaches.usual.2])
      · rintro ⟨-, reaches⟩
        exact absurd outside (by simp [reaches.usual.2])
  | false =>
      rw [reaches_iff_arrives long (same.trans outside), reaches_iff_arrives named outside, split,
        fileIn.arrives_concat_iff]

/-- Idle pieces lead nowhere else. -/
theorem eq_of_follow_idle (idle : ∀ piece ∈ pieces, Path.isIdle piece = true)
    (found : tree.follow key node pieces = .ok (.occupied target last)) :
    key = target ∧ node = last := by
  have nothing : (pieces.filter fun piece => !Path.isIdle piece) = [] := by
    rw [List.filter_eq_nil_iff]
    intro piece member
    simp [idle piece member]
  have stays := follow_steps_of_follow found
  rw [nothing] at stays
  simpa [follow] using stays

/-- The file at a path lies in the directory at the parent of the path, by the name that the path
ends with. -/
theorem exists_fileIn (file : tree.isFile path = true) :
    ∃ outer name, tree.Reaches path (outer ++ [name]) ∧ tree.FileIn outer name ∧
      Path.fileName? path = some name ∧ tree.Opens ((Path.parent? path).getD "") outer := by
  have bare := bare_of_isFile file
  obtain ⟨key, node, located, whole⟩ := isFile_iff.mp file
  obtain ⟨-, there⟩ := leadsTo_of_locate_occupied located
  obtain ⟨named, relative, top, here, found⟩ := locate_eq_occupied_iff.mp located
  obtain ⟨front, name, split⟩ : ∃ front name, Path.pieces path = front ++ [name] :=
    ⟨_, _, (List.dropLast_append_getLast (Path.pieces_ne_nil path)).symm⟩
  have busy := bare.ended name (by simp [split])
  rw [split] at found
  obtain ⟨outer, directory, arrived, isDirectory, rfl, proper⟩ :=
    exists_of_follow_file here found whole
  obtain ⟨-, inside⟩ := leads_of_follow_occupied here arrived
  have member : name ∈ Path.pieces path := by simp [split]
  have plain := Path.slash_not_mem_of_mem_pieces member
  refine ⟨outer, name, ⟨_, locate_unlocked located⟩,
    ⟨⟨proper.1, proper.2.1, proper.2.2, plain⟩, ⟨directory, inside, isDirectory⟩, node, there,
      whole⟩,
    Path.fileName?_eq named relative split busy proper.2.2, ?_⟩
  rcases Path.single_or_hasParent named relative with ⟨first, after, single⟩ |
    ⟨parent, before, last, after, has⟩
  · rw [single.split] at split
    have same : front ++ [name] = [] ++ first :: after := split.symm
    obtain ⟨rfl, rfl⟩ := Path.eq_of_idle_end same single.idle busy
    obtain ⟨rfl, -⟩ : [] = outer ∧ top = directory := by simpa [follow] using arrived
    exact .inl ⟨by rw [single.parent?, Option.getD_some], rfl⟩
  · rw [has.split, ← List.append_assoc] at split
    obtain ⟨rfl, rfl⟩ := Path.eq_of_idle_end split.symm has.idle.2 busy
    obtain ⟨middle, other, ahead, stays⟩ := exists_of_follow_append arrived
    obtain ⟨rfl, rfl⟩ := eq_of_follow_idle has.idle.1 stays
    rw [has.parent?, Option.getD_some]
    exact .inr ⟨_, locate_unlocked
      (locate_eq_occupied_iff.mpr ⟨has.named, has.relative, top, here, ahead⟩)⟩

end ScopeLowering.Files.Tree
