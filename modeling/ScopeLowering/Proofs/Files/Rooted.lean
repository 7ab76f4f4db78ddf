import ScopeLowering.Proofs.Files.Growth
import ScopeLowering.Proofs.Files.Respelling

/-!
# Rooted trees

In a rooted tree every entry is in a directory. An empty tree is rooted, and whatever is done to
the files keeps a tree rooted. A path without steps up has all the entries on its way above the
one it leads to. So in a tree that has grown from a rooted one, such a path leads to an entry that
was there before only if it did so before.
-/

namespace ScopeLowering.Files.Tree

variable {tree before after : Tree} {key target : Key} {node kept last : Node}
  {pieces : List String} {path : String}

def Rooted (tree : Tree) : Prop :=
  ∀ key node, tree.nodes.get? key = some node → key ≠ [] → tree.HasDirectory key.dropLast

theorem rooted_empty : empty.Rooted := by
  intro key node found named
  by_cases top : key = []
  · exact absurd top named
  · have missing : empty.nodes.get? key = none := by
      rw [Table.get?_eq_none_iff]
      simpa [empty, Table.keys] using top
    rw [missing] at found
    cases found

theorem Rooted.exists_of_append (rooted : tree.Rooted) {names : List String}
    (found : tree.nodes.get? (key ++ names) = some node) :
    ∃ above, tree.nodes.get? key = some above := by
  induction names using List.reverseRecOn generalizing node with
  | nil => exact ⟨node, List.append_nil key ▸ found⟩
  | append_singleton names name ih =>
      obtain ⟨outer, above, -⟩ := rooted _ node found (by simp)
      rw [← List.append_assoc, List.dropLast_concat] at above
      exact ih above

/-! ## Changes of a tree -/

theorem Grows.hasDirectory (grows : before.Grows after) (directory : before.HasDirectory key) :
    after.HasDirectory key := by
  obtain ⟨node, there, isDirectory⟩ := directory
  obtain ⟨kept, still, alike⟩ := grows.stays key node there
  exact ⟨kept, still, alike.isDirectory.trans isDirectory⟩

theorem Grows.rooted (grows : before.Grows after) (rooted : before.Rooted) : after.Rooted := by
  intro key node found named
  cases earlier : before.nodes.get? key with
  | some old => exact grows.hasDirectory (rooted key old earlier named)
  | none =>
      obtain ⟨-, outer, above, allows⟩ := grows.grown key node earlier found
      exact ⟨outer, above, allows.1⟩

/-- A tree with the same entries, directories staying directories, is rooted as well. -/
theorem Rooted.of_nodes (rooted : tree.Rooted)
    (entries : ∀ key, (after.nodes.get? key).isSome → (tree.nodes.get? key).isSome)
    (directories : ∀ key, tree.HasDirectory key → after.HasDirectory key) : after.Rooted := by
  intro key node found named
  obtain ⟨old, earlier⟩ := Option.isSome_iff_exists.mp (entries key (by rw [found]; rfl))
  exact directories _ (rooted key old earlier named)

theorem Rooted.update (rooted : tree.Rooted) (path : String) {change : Node → Node}
    (same : ∀ node, (change node).isDirectory = node.isDirectory) :
    (tree.update path change).Rooted := by
  unfold Tree.update
  split
  · rename_i key node located
    obtain ⟨-, there⟩ := leadsTo_of_locate_occupied located
    apply rooted.of_nodes
    · intro other present
      rw [Table.get?_insert] at present
      split at present
      · rename_i here
        rw [← here, there]
        rfl
      · exact present
    · rintro other ⟨node, found, directory⟩
      by_cases here : key = other
      · subst here
        obtain rfl := Option.some.inj (there.symm.trans found)
        exact ⟨_, Table.get?_insert_self .., (same _).trans directory⟩
      · exact ⟨node, by rw [Table.get?_insert, if_neg here, found], directory⟩
  · exact rooted

theorem Rooted.remove (rooted : tree.Rooted) (path : String) : (tree.remove path).Rooted := by
  unfold Tree.remove
  split
  · rename_i removed _ _
    intro key node found named
    obtain ⟨member, outside⟩ := List.mem_filter.mp (Table.mem_of_get? found)
    have apart : ¬removed <+: key := by simpa [← List.isPrefixOf_iff_prefix] using outside
    obtain ⟨old, earlier⟩ : ∃ old, tree.nodes.get? key = some old := by
      rw [← Option.isSome_iff_exists, Option.isSome_iff_ne_none, ne_eq, Table.get?_eq_none_iff,
        not_not]
      exact List.mem_map_of_mem member
    obtain ⟨outer, above, directory⟩ := rooted key old earlier named
    refine ⟨outer, Table.get?_filter_of_holds above ?_, directory⟩
    -- What is above an entry that is kept is not below the removed one.
    have inside : ¬removed <+: key.dropLast :=
      fun below => apart (below.trans (List.dropLast_prefix key))
    simpa [← List.isPrefixOf_iff_prefix] using inside
  · exact rooted

theorem Rooted.place (rooted : tree.Rooted) (path : String) (content : Content)
    (modified : Int) : (tree.place path content modified).Rooted := by
  have ready : (tree.makeDirectories ((Path.parent? path).getD "")).1.Rooted :=
    (grows_makeChain tree _).rooted rooted
  unfold Tree.place
  dsimp only
  split
  · rename_i written done
    have timed : Rooted { (tree.makeDirectories ((Path.parent? path).getD "")).1 with
        clock := modified } := ready
    exact (grows_write done).rooted timed
  · exact ready

/-- Edits keep a tree rooted. -/
theorem Rooted.edit (rooted : tree.Rooted) (edit : Edit) : (tree.edit edit).Rooted := by
  cases edit with
  | write path content modified => exact rooted.place path content modified
  | makeDirectory path => exact (grows_makeChain tree _).rooted rooted
  | touch path modified =>
      apply rooted.update path
      rintro ⟨entry, access⟩
      cases entry <;> rfl
  | remove path => exact rooted.remove path
  | restrict path access => exact rooted.update path fun _ => rfl
  | unlock =>
      apply rooted.of_nodes
      · intro key present
        rw [← unlocked, get?_unlocked, Option.isSome_map] at present
        exact present
      · rintro key ⟨node, found, directory⟩
        exact ⟨node.unlocked, by rw [← unlocked, get?_unlocked, found]; rfl, directory⟩

/-! ## Paths without steps up -/

/-- The steps of a path, without steps up, lead to an entry as they do in the grown tree, if the
entry was there. -/
theorem Grows.exists_follow_of_level (grows : before.Grows after) (rooted : before.Rooted)
    (level : ".." ∉ pieces) (alike : kept.Alike node)
    (found : after.follow key kept pieces = .ok (.occupied target last))
    (there : ∃ old, before.nodes.get? target = some old) :
    ∃ old, before.follow key node pieces = .ok (.occupied target old) := by
  induction pieces generalizing key node kept with
  | nil =>
      obtain ⟨rfl, -⟩ : key = target ∧ kept = last := by simpa [follow] using found
      exact ⟨node, rfl⟩
  | cons piece rest ih =>
      rw [List.mem_cons, not_or] at level
      obtain ⟨directory, unlocked, -⟩ := follow_cons_occupied found
      rw [alike.isDirectory] at directory
      rw [alike.access] at unlocked
      have whole : node.isFile = false := by simp [Node.isFile, directory]
      obtain ⟨-, ⟨idle, onward⟩ | ⟨up, -⟩ |
        ⟨⟨named, dot, dots⟩, ⟨child, below, onward⟩ | ⟨-, -, vacant⟩⟩⟩ := follow_cons_ok found
      · obtain ⟨old, followed⟩ := ih level.2 alike onward
        refine ⟨old, ?_⟩
        rw [follow.eq_def]
        rcases idle with rfl | rfl
        · simpa [whole] using followed
        · simpa [whole, unlocked] using followed
      · exact absurd up.symm level.1
      · -- The entry that the piece leads to is above the target, so it was there.
        have added := key_of_follow level.2 onward
        obtain ⟨old, earlier⟩ := there
        obtain ⟨inner, here⟩ := rooted.exists_of_append (added ▸ earlier)
        obtain ⟨later, still, same⟩ := grows.stays _ inner here
        obtain rfl := Option.some.inj (below.symm.trans still)
        obtain ⟨final, followed⟩ := ih level.2 same onward
        refine ⟨final, ?_⟩
        rw [follow.eq_def]
        simpa [whole, named, unlocked named, dot, dots, here] using followed
      · cases vacant

theorem Grows.exists_locate_of_level (grows : before.Grows after) (rooted : before.Rooted)
    (level : .up ∉ Path.components path)
    (found : after.locate path = .ok (.occupied target last))
    (there : ∃ old, before.nodes.get? target = some old) :
    ∃ old, before.locate path = .ok (.occupied target old) := by
  obtain ⟨named, relative, kept, here, followed⟩ := locate_eq_occupied_iff.mp found
  obtain ⟨old, earlier⟩ := there
  rw [← List.nil_append target] at earlier
  obtain ⟨top, above⟩ := rooted.exists_of_append earlier
  obtain ⟨later, still, alike⟩ := grows.stays [] top above
  obtain rfl := Option.some.inj (here.symm.trans still)
  obtain ⟨final, onward⟩ := grows.exists_follow_of_level rooted
    (Path.up_not_mem_pieces named relative level) alike followed ⟨old, earlier⟩
  exact ⟨final, locate_eq_occupied_iff.mpr ⟨named, relative, top, above, onward⟩⟩

end ScopeLowering.Files.Tree
