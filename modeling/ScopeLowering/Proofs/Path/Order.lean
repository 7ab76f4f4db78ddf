import Mathlib.Data.List.Lex
import Mathlib.Data.List.Nodup
import ScopeLowering.Path

/-!
# Sorted paths

Paths are sorted by their components. A list that is made by sorted insertion has every
path once, in one of its spellings.
-/

namespace ScopeLowering.Path

theorem Component.sortKey_injective : Function.Injective Component.sortKey := by
  intro first second same
  cases first <;> cases second <;> try simp [Component.sortKey] at same ⊢
  rename_i name other
  have spelled : name.toList = other.toList :=
    List.map_injective_iff.mpr (fun _ _ => Char.toNat_inj.mp) same
  exact String.toList_inj.mp spelled

theorem sortKey_eq_iff {first second : String} :
    sortKey first = sortKey second ↔ components first = components second :=
  (List.map_injective_iff.mpr Component.sortKey_injective).eq_iff

/-- Paths in ascending order, each in one spelling only. -/
def Ordered (paths : List String) : Prop :=
  paths.Pairwise fun first second => sortKey first < sortKey second

theorem Ordered.nodup {paths : List String} (ordered : Ordered paths) :
    (paths.map components).Nodup := by
  apply List.pairwise_map.mpr
  apply ordered.imp
  intro first second less same
  rw [sortKey_eq_iff.mpr same] at less
  exact lt_irrefl _ less

theorem mem_of_mem_insertSorted {path other : String} {paths : List String}
    (member : other ∈ insertSorted path paths) : other = path ∨ other ∈ paths := by
  induction paths with
  | nil => exact .inl (List.mem_singleton.mp member)
  | cons first paths ih =>
      unfold insertSorted at member
      split at member
      · exact List.mem_cons.mp member
      · split at member
        · exact .inr member
        · rcases List.mem_cons.mp member with same | member
          · exact .inr (same ▸ List.mem_cons_self)
          · exact (ih member).imp_right (List.mem_cons_of_mem _)

/-- What is inserted is there afterwards, perhaps in another spelling. -/
theorem mem_components_insertSorted {path : String} {paths : List String}
    {key : List Component} :
    key ∈ (insertSorted path paths).map components ↔
      key = components path ∨ key ∈ paths.map components := by
  induction paths with
  | nil => simp [insertSorted]
  | cons first paths ih =>
      unfold insertSorted
      split
      · rw [List.map_cons, List.mem_cons]
      · split
        · rename_i same
          rw [same, List.map_cons, List.mem_cons]
          exact ⟨.inr, fun known => known.elim .inl id⟩
        · rw [List.map_cons, List.mem_cons, ih, List.map_cons, List.mem_cons]
          exact or_left_comm

theorem ordered_insertSorted {paths : List String} (path : String) (ordered : Ordered paths) :
    Ordered (insertSorted path paths) := by
  induction paths with
  | nil => exact List.pairwise_singleton _ path
  | cons first paths ih =>
      obtain ⟨above, rest⟩ := List.pairwise_cons.mp ordered
      unfold insertSorted
      split
      · rename_i less
        refine List.pairwise_cons.mpr ⟨?_, ordered⟩
        intro other member
        rcases List.mem_cons.mp member with rfl | member
        · exact less
        · exact less.trans (above other member)
      · rename_i notLess
        split
        · exact ordered
        · rename_i differs
          have less : sortKey first < sortKey path :=
            lt_of_le_of_ne (not_lt.mp notLess) fun same => differs (sortKey_eq_iff.mp same.symm)
          refine List.pairwise_cons.mpr ⟨?_, ih rest⟩
          intro other member
          rcases mem_of_mem_insertSorted member with rfl | member
          · exact less
          · exact above other member

/-- A list of paths is sorted by inserting one after another. -/
theorem ordered_foldl_insertSorted {paths sorted : List String} (ordered : Ordered sorted) :
    Ordered (paths.foldl (fun sorted path => insertSorted path sorted) sorted) := by
  induction paths generalizing sorted with
  | nil => exact ordered
  | cons path paths ih => exact ih (ordered_insertSorted path ordered)

theorem mem_components_foldl_insertSorted {paths sorted : List String} {key : List Component} :
    key ∈ (paths.foldl (fun sorted path => insertSorted path sorted) sorted).map components ↔
      key ∈ paths.map components ∨ key ∈ sorted.map components := by
  induction paths generalizing sorted with
  | nil => simp
  | cons path paths ih =>
      rw [List.foldl_cons, ih, mem_components_insertSorted, List.map_cons, List.mem_cons]
      exact or_left_comm.trans or_assoc.symm

end ScopeLowering.Path
