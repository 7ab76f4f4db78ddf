import Mathlib.Data.List.Nodup
import ScopeLowering.Proofs.Files.Contents
import ScopeLowering.Proofs.Path.Pieces

/-!
# Proper trees

No key is twice in a proper tree, and all keys are made of names. An empty tree is proper, and
whatever is done to the files keeps a tree proper.
-/

namespace ScopeLowering.Files

def IsName (name : String) : Prop :=
  name ≠ "" ∧ name ≠ "." ∧ name ≠ ".." ∧ '/' ∉ name.toList

theorem IsName.pieces {name : String} (isName : IsName name) : Path.pieces name = [name] :=
  Path.pieces_of_no_slash isName.2.2.2

theorem IsName.relative {name : String} (isName : IsName name) : Path.isAbsolute name = false := by
  rw [← Bool.not_eq_true]
  intro absolute
  have spelled : name.toList.head? = some '/' := by simpa [Path.isAbsolute] using absolute
  exact isName.2.2.2 (List.mem_of_mem_head? spelled)

namespace Tree

structure Proper (tree : Tree) : Prop where
  distinct : tree.nodes.keys.Nodup
  named : ∀ key ∈ tree.nodes.keys, ∀ name ∈ key, IsName name

theorem proper_empty : empty.Proper := by
  constructor
  · exact List.nodup_singleton _
  · intro key member name inside
    rw [List.mem_singleton.mp member] at inside
    cases inside

/-- The free name that a path leads to can name an entry. -/
theorem isName_of_follow_vacant {tree : Tree} {pieces : List String} {key target : Key}
    {node : Node} (plain : ∀ piece ∈ pieces, '/' ∉ piece.toList)
    (above : ∀ name ∈ key, IsName name)
    (found : tree.follow key node pieces = .ok (.vacant target)) :
    ∀ name ∈ target, IsName name := by
  induction pieces generalizing key node with
  | nil => simp [follow] at found
  | cons piece rest ih =>
      have later := fun other member => plain other (List.mem_cons_of_mem piece member)
      have extended (named : piece ≠ "" ∧ piece ≠ "." ∧ piece ≠ "..") :
          ∀ name ∈ key ++ [piece], IsName name := by
        intro name member
        rcases List.mem_append.mp member with member | member
        · exact above name member
        · rw [List.mem_singleton.mp member]
          exact ⟨named.1, named.2.1, named.2.2, plain piece List.mem_cons_self⟩
      obtain ⟨-, ⟨-, onward⟩ | ⟨-, -, parent, -, onward⟩ |
        ⟨named, ⟨child, -, onward⟩ | ⟨-, -, vacant⟩⟩⟩ := follow_cons_ok found
      · exact ih later above onward
      · apply ih later _ onward
        intro name member
        exact above name ((List.dropLast_sublist key).subset member)
      · exact ih later (extended named) onward
      · rw [Place.vacant.inj vacant]
        exact extended named

theorem isName_of_locate_vacant {tree : Tree} {path : String} {key : Key}
    (found : tree.locate path = .ok (.vacant key)) : ∀ name ∈ key, IsName name := by
  unfold locate at found
  split at found
  · split at found
    · cases found
    · exact isName_of_follow_vacant (fun _ => Path.slash_not_mem_of_mem_pieces) (by simp) found
  · cases found

/-! ## Changes of a tree -/

section

variable {tree : Tree}

theorem Proper.insert (proper : tree.Proper) {key : Key} (named : ∀ name ∈ key, IsName name)
    (node : Node) : Proper { tree with nodes := tree.nodes.insert key node } := by
  refine ⟨Table.nodup_keys_insert proper.distinct _ _, ?_⟩
  intro other member
  obtain ⟨entry, inside, rfl⟩ := List.mem_map.mp member
  rcases Table.mem_insert inside with rfl | inside
  · exact named
  · exact proper.named _ (List.mem_map_of_mem inside)

theorem Proper.named_of_locate (proper : tree.Proper) {path : String} {key : Key} {node : Node}
    (located : tree.locate path = .ok (.occupied key node)) : ∀ name ∈ key, IsName name := by
  obtain ⟨-, there⟩ := leadsTo_of_locate_occupied located
  exact proper.named key (List.mem_map_of_mem (f := Prod.fst) (Table.mem_of_get? there))

theorem Proper.makeDirectory {made : Tree} {path : String} (proper : tree.Proper)
    (done : tree.makeDirectory path = .ok made) : made.Proper := by
  unfold Tree.makeDirectory at done
  split at done
  · cases done
  · cases done
  · rename_i key vacant
    rw [create_eq_ok done]
    exact proper.insert (isName_of_locate_vacant vacant) _

theorem Proper.makeDirectories (proper : tree.Proper) (path : String) :
    (tree.makeDirectories path).1.Proper :=
  makeChain_induct (fun _ _ _ proper done => proper.makeDirectory done) proper _

theorem Proper.write {written : Tree} {path : String} {content : Content} (proper : tree.Proper)
    (done : tree.write path content = .ok written) : written.Proper := by
  unfold Tree.write at done
  dsimp only at done
  split at done
  · cases done
  · rename_i place located
    split at done
    · cases done
    · split at done
      · cases done
      · obtain rfl := Except.ok.inj done
        exact proper.insert (proper.named_of_locate located) _
      · cases done
      · rw [create_eq_ok done]
        exact proper.insert (isName_of_locate_vacant located) _

theorem Proper.update (proper : tree.Proper) (path : String) (change : Node → Node) :
    (tree.update path change).Proper := by
  unfold Tree.update
  split
  · rename_i key node located
    exact proper.insert (proper.named_of_locate located) _
  · exact proper

theorem Proper.filter (proper : tree.Proper) (holds : Key → Node → Bool) :
    Proper { tree with nodes := tree.nodes.filter holds } := by
  refine ⟨Table.nodup_keys_filter proper.distinct _, ?_⟩
  intro key member
  exact proper.named key ((List.filter_sublist.map Prod.fst).subset member)

theorem Proper.place (proper : tree.Proper) (path : String) (content : Content)
    (modified : Int) : (tree.place path content modified).Proper := by
  have ready := proper.makeDirectories ((Path.parent? path).getD "")
  unfold Tree.place
  dsimp only
  split
  · rename_i written done
    have timed : Proper { (tree.makeDirectories ((Path.parent? path).getD "")).1 with
        clock := modified } := ⟨ready.distinct, ready.named⟩
    have whole := timed.write done
    exact ⟨whole.distinct, whole.named⟩
  · exact ready

/-- Edits keep a tree proper. -/
theorem Proper.edit (proper : tree.Proper) (edit : Edit) : (tree.edit edit).Proper := by
  cases edit with
  | write path content modified => exact proper.place path content modified
  | makeDirectory path => exact proper.makeDirectories path
  | touch path modified => exact proper.update path _
  | remove path =>
      rw [Tree.edit, Tree.remove]
      split
      · exact proper.filter _
      · exact proper
  | restrict path access => exact proper.update path _
  | unlock =>
      have same : (tree.edit .unlock).nodes.keys = tree.nodes.keys := Table.keys_mapValues _ _
      constructor
      · rw [same]
        exact proper.distinct
      · rw [same]
        exact proper.named

end

end Tree

end ScopeLowering.Files
