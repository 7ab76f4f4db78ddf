import ScopeLowering.Output
import ScopeLowering.Proofs.Files.Following
import ScopeLowering.Proofs.Text.Trimming

/-!
# What changes of a tree keep

Making directories keeps every entry of a tree with its content. Writing a file changes
the content at one key, the one its path leads to, and keeps all other entries. So a file
holds its text until a path that leads to the same key is written.
-/

namespace ScopeLowering.Files

def Node.content? (node : Node) : Option Content :=
  match node.entry with
  | .file content _ => some content
  | .directory => none

@[simp]
theorem Node.content?_unlocked (node : Node) : node.unlocked.content? = node.content? := rfl

theorem Node.content?_eq_none_iff {node : Node} :
    node.content? = none ↔ node.isDirectory = true := by
  obtain ⟨entry, access⟩ := node
  cases entry <;> simp [content?, isDirectory]

namespace Tree

/-- A file holds a text, whatever permissions are in the way of reading it. -/
def Holds (tree : Tree) (path text : String) : Prop :=
  (tree.edit .unlock).readText path = .ok text

/-- Every entry of the first tree is in the second, a file with its content. Permissions,
times and new entries are free. -/
def Keeps (before after : Tree) : Prop :=
  ∀ key node, before.nodes.get? key = some node →
    ∃ kept, after.nodes.get? key = some kept ∧ kept.content? = node.content?

structure Writes (key : Key) (text : String) (before after : Tree) : Prop where
  made : ∃ node, after.nodes.get? key = some node ∧ node.content? = some (.text text)
  replaced : ¬ before.HasDirectory key
  others : ∀ other node, other ≠ key → before.nodes.get? other = some node →
    ∃ kept, after.nodes.get? other = some kept ∧ kept.content? = node.content?

/-! ## Directories that stay -/

theorem hasDirectory_iff {tree : Tree} {key : Key} :
    tree.HasDirectory key ↔ ∃ node, tree.nodes.get? key = some node ∧ node.content? = none := by
  simp only [HasDirectory, Node.content?_eq_none_iff]

theorem hasDirectory_of_unlocked {tree : Tree} {key : Key}
    (directory : tree.unlocked.HasDirectory key) : tree.HasDirectory key := by
  obtain ⟨node, found, isDirectory⟩ := directory
  rw [get?_unlocked] at found
  obtain ⟨original, there, rfl⟩ := Option.map_eq_some_iff.mp found
  exact ⟨original, there, isDirectory⟩

theorem Keeps.hasDirectory {before after : Tree} (keeps : before.Keeps after) {key : Key}
    (directory : before.HasDirectory key) : after.HasDirectory key := by
  obtain ⟨node, found, none⟩ := hasDirectory_iff.mp directory
  obtain ⟨kept, there, same⟩ := keeps key node found
  exact hasDirectory_iff.mpr ⟨kept, there, same.trans none⟩

theorem Writes.hasDirectory {key other : Key} {text : String} {before after : Tree}
    (writes : Writes key text before after) (directory : before.HasDirectory other) :
    after.HasDirectory other := by
  have differs : other ≠ key := fun same => writes.replaced (same ▸ directory)
  obtain ⟨node, found, none⟩ := hasDirectory_iff.mp directory
  obtain ⟨kept, there, same⟩ := writes.others other node differs found
  exact hasDirectory_iff.mpr ⟨kept, there, same.trans none⟩

theorem Keeps.refl (tree : Tree) : tree.Keeps tree := fun _ node found => ⟨node, found, rfl⟩

theorem Keeps.trans {first second third : Tree} (one : first.Keeps second)
    (two : second.Keeps third) : first.Keeps third := by
  intro key node found
  obtain ⟨kept, there, same⟩ := one key node found
  obtain ⟨last, still, alike⟩ := two key kept there
  exact ⟨last, still, alike.trans same⟩

/-! ## Operations -/

theorem create_eq_ok {tree made : Tree} {key : Key} {entry : Entry}
    (done : tree.create key entry = .ok made) :
    made = { tree with nodes := tree.nodes.insert key ⟨entry, .writable⟩ } := by
  unfold create at done
  split at done
  · exact (Except.ok.inj done).symm
  · cases done
  · cases done

theorem keeps_insert_of_absent {tree : Tree} {key : Key} (node : Node)
    (absent : tree.nodes.get? key = none) :
    tree.Keeps { tree with nodes := tree.nodes.insert key node } := by
  intro other original found
  refine ⟨original, ?_, rfl⟩
  have differs : key ≠ other := by
    rintro rfl
    rw [absent] at found
    cases found
  rw [Table.get?_insert, if_neg differs]
  exact found

/-- A change of permissions or times keeps the contents. -/
theorem keeps_update (tree : Tree) (path : String) {change : Node → Node}
    (same : ∀ node, (change node).content? = node.content?) :
    tree.Keeps (tree.update path change) := by
  unfold update
  split
  · rename_i key node located
    obtain ⟨-, there⟩ := leadsTo_of_locate_occupied located
    intro other original found
    rw [Table.get?_insert]
    split
    · rename_i here
      subst here
      obtain rfl := Option.some.inj (there.symm.trans found)
      exact ⟨_, rfl, same node⟩
    · exact ⟨original, found, rfl⟩
  · exact .refl tree

theorem keeps_restrict (tree : Tree) (path : String) (access : Access) :
    tree.Keeps (tree.edit (.restrict path access)) :=
  keeps_update tree path fun _ => rfl

theorem writes_insert {tree : Tree} {key : Key} (text : String) (modified : Int)
    (free : ¬ tree.HasDirectory key) :
    Writes key text tree
      { tree with nodes := tree.nodes.insert key ⟨.file (.text text) modified, .writable⟩ } where
  made := ⟨_, Table.get?_insert_self .., rfl⟩
  replaced := free
  others := by
    intro other node differs found
    refine ⟨node, ?_, rfl⟩
    rw [Table.get?_insert, if_neg differs.symm]
    exact found

theorem keeps_makeDirectory {tree made : Tree} {path : String}
    (done : tree.makeDirectory path = .ok made) : tree.Keeps made := by
  unfold makeDirectory at done
  split at done
  · cases done
  · cases done
  · rename_i key vacant
    rw [create_eq_ok done]
    exact keeps_insert_of_absent _ (absent_of_locate_vacant vacant)

/-- What making one directory keeps is kept by making a chain of them. -/
theorem makeChain_induct {holds : Tree → Prop}
    (makes : ∀ (tree : Tree) path made, holds tree → tree.makeDirectory path = .ok made →
      holds made) {tree : Tree} (start : holds tree) (paths : List String) :
    holds (tree.makeChain paths).1 := by
  have settled {ready : Tree} {path : String} {result : Except Fault Tree} (kept : holds ready)
      (done : ∀ made, result = .ok made → holds made) :
      holds (makeChain.settle ready path result).1 := by
    cases result with
    | ok made => exact done made rfl
    | error fault => exact kept
  induction paths with
  | nil => exact start
  | cons path above ih =>
      rw [makeChain]
      split
      · rename_i made done
        exact makes tree path made start done
      · split
        · rename_i ready fault chained
          rw [chained] at ih
          exact ih
        · rename_i ready chained
          rw [chained] at ih
          exact settled ih fun made done => makes ready path made ih done
      · exact settled start (by simp)

theorem keeps_makeChain (tree : Tree) (paths : List String) :
    tree.Keeps (tree.makeChain paths).1 := by
  apply makeChain_induct
  · intro before path made keeps done
    exact keeps.trans (keeps_makeDirectory done)
  · exact .refl tree

theorem keeps_makeDirectories (tree : Tree) (path : String) :
    tree.Keeps (tree.makeDirectories path).1 := keeps_makeChain tree _

/-- A path without a final slash is written as it is spelled. -/
theorem bare_eq {path : String} (bare : Path.hasFinalSlash path = false) :
    String.ofList (Text.dropTrailing (· = '/') path.toList) = path := by
  have last : path.toList.getLast? ≠ some '/' := by simpa [Path.hasFinalSlash] using bare
  have whole : path.toList.rdropWhile (· = '/') = path.toList := by
    rw [List.rdropWhile_eq_self_iff]
    intro nonempty slash
    apply last
    exact (List.getLast?_eq_some_getLast nonempty).trans (congrArg some (by simpa using slash))
  rw [Text.dropTrailing_eq_rdropWhile, whole, String.ofList_toList]

/-- A write that succeeds changes the file its path leads to, and nothing else. -/
theorem writes_of_write {tree written : Tree} {path text : String}
    (done : tree.write path (.text text) = .ok written) :
    ∃ key, Writes key text tree written ∧ tree.LeadsTo path key := by
  unfold write at done
  dsimp only at done
  split at done
  · cases done
  · rename_i place located
    split at done
    · cases done
    · rename_i bare
      rw [Bool.not_eq_true] at bare
      rw [bare_eq bare, ite_self] at located
      split at done
      · cases done
      · rename_i key content modified
        obtain ⟨leads, there⟩ := leadsTo_of_locate_occupied located
        obtain rfl := Except.ok.inj done
        refine ⟨key, writes_insert text _ ?_, leads⟩
        rintro ⟨node, found, directory⟩
        obtain rfl := Option.some.inj (there.symm.trans found)
        simp [Node.isDirectory] at directory
      · cases done
      · rename_i key
        rw [create_eq_ok done]
        refine ⟨key, writes_insert text _ ?_, leadsTo_of_locate_vacant bare located⟩
        rintro ⟨node, found, directory⟩
        rw [absent_of_locate_vacant located] at found
        cases found

/-! ## Texts that files hold -/

theorem holds_iff {tree : Tree} {path text : String} :
    tree.Holds path text ↔ ∃ key node, tree.LeadsTo path key ∧
      tree.nodes.get? key = some node ∧ node.content? = some (.text text) := by
  constructor
  · intro holds
    unfold Holds readText at holds
    split at holds
    · cases holds
    · rename_i found stated
      unfold stat at stated
      split at stated
      · rename_i key node located
        obtain rfl := Except.ok.inj stated
        obtain ⟨leads, there⟩ := leadsTo_of_locate_occupied located
        have original := get?_unlocked tree key
        rw [unlocked, there] at original
        obtain ⟨node, found, rfl⟩ := Option.map_eq_some_iff.mp original.symm
        refine ⟨key, node, leads.mono fun _ => hasDirectory_of_unlocked, found, ?_⟩
        rw [if_neg (by simp)] at holds
        split at holds
        · rename_i content modified entry
          obtain rfl := Except.ok.inj holds
          rw [← Node.content?_unlocked, Node.content?, entry]
        · cases holds
        · cases holds
      · cases stated
      · cases stated
  · rintro ⟨key, node, leads, there, content⟩
    have located := locate_unlocked_of_leadsTo leads there
    obtain ⟨entry, access⟩ := node
    cases entry with
    | directory => cases content
    | file kept modified =>
        obtain rfl := Option.some.inj content
        rw [unlocked] at located
        simp [Holds, readText, stat, located, Node.unlocked]

theorem Holds.keep {before after : Tree} {path text : String} (holds : before.Holds path text)
    (keeps : before.Keeps after) : after.Holds path text := by
  obtain ⟨key, node, leads, there, content⟩ := holds_iff.mp holds
  obtain ⟨kept, still, same⟩ := keeps key node there
  exact holds_iff.mpr
    ⟨key, kept, leads.mono fun _ => keeps.hasDirectory, still, same.trans content⟩

/-- Two paths name one file: some tree takes both to the same entry. -/
def SameFile (first second : String) : Prop :=
  ∃ (tree : Tree) (key : Key) (node : Node),
    tree.locate first = .ok (.occupied key node) ∧ tree.locate second = .ok (.occupied key node)

/-- Writing a file keeps the text of every file that cannot be the same one. -/
theorem Holds.write {before after : Tree} {key : Key} {path other text content : String}
    (holds : before.Holds other text) (writes : Writes key content before after)
    (leads : before.LeadsTo path key) (apart : ¬ SameFile other path) :
    after.Holds other text := by
  obtain ⟨place, node, otherLeads, there, same⟩ := holds_iff.mp holds
  have stays : ∀ directory, before.HasDirectory directory → after.HasDirectory directory :=
    fun _ => writes.hasDirectory
  have differs : place ≠ key := by
    rintro rfl
    -- In the tree after the write both paths lead to the new file.
    obtain ⟨made, found, -⟩ := writes.made
    exact apart ⟨after.unlocked, place, made.unlocked,
      locate_unlocked_of_leadsTo (otherLeads.mono stays) found,
      locate_unlocked_of_leadsTo (leads.mono stays) found⟩
  obtain ⟨kept, still, alike⟩ := writes.others place node differs there
  exact holds_iff.mpr ⟨place, kept, otherLeads.mono stays, still, alike.trans same⟩

theorem Writes.holds {before after : Tree} {key : Key} {path text : String}
    (writes : Writes key text before after) (leads : before.LeadsTo path key) :
    after.Holds path text := by
  obtain ⟨node, found, content⟩ := writes.made
  exact holds_iff.mpr ⟨key, node, leads.mono fun _ => writes.hasDirectory, found, content⟩

end Tree

end ScopeLowering.Files

namespace ScopeLowering.Output.World

open ScopeLowering.Files (Key Tree)

theorem tree_of_deliver_standardOutput {world printed : World} {css : String}
    {failure : Option Failure}
    (done : world.deliver .standardOutput css = (printed, failure)) : printed.tree = world.tree :=
  (congrArg (fun result => result.1.tree) done).symm

theorem deliver_file (world : World) (path css : String) :
    world.deliver (.file path) css = world.writeFile path (render css) := rfl

/-- A file of the world is written at the key its path leads to, once the directories
above it are made. -/
theorem writes_of_writeFile {world written : World} {path text : String}
    (done : world.writeFile path text = (written, none)) :
    ∃ key ready, world.tree.Keeps ready ∧ Tree.Writes key text ready written.tree ∧
      ready.LeadsTo path key := by
  unfold writeFile at done
  dsimp only at done
  split at done
  · cases done
  · rename_i ready made
    have keeps := Tree.keeps_makeDirectories world.tree ((Path.parent? path).getD "")
    rw [made] at keeps
    split at done
    · rename_i tree result
      obtain ⟨rfl, -⟩ := Prod.mk.inj done
      obtain ⟨key, writes, leads⟩ := Tree.writes_of_write result
      exact ⟨key, ready, keeps, writes, leads⟩
    · cases done

/-- A file that cannot be written leaves every file as it was. -/
theorem keeps_of_writeFile {world failed : World} {path text : String} {failure : Failure}
    (done : world.writeFile path text = (failed, some failure)) :
    world.tree.Keeps failed.tree := by
  have keeps := Tree.keeps_makeDirectories world.tree ((Path.parent? path).getD "")
  unfold writeFile at done
  dsimp only at done
  split at done
  · rename_i tree fault made
    obtain ⟨rfl, -⟩ := Prod.mk.inj done
    rw [made] at keeps
    exact keeps
  · rename_i tree made
    rw [made] at keeps
    split at done
    · cases done
    · obtain ⟨rfl, -⟩ := Prod.mk.inj done
      exact keeps

end ScopeLowering.Output.World
