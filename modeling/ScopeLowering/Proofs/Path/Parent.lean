import ScopeLowering.Proofs.Path.Pieces
import ScopeLowering.Proofs.Text.Trimming

/-!
# Parents of paths

The parent of a path is what comes before its last step, without the idle pieces there. A path
of one piece has the empty path as its parent.
-/

namespace ScopeLowering.Path

open ScopeLowering.Text (dropTrailing dropTrailing_eq_rdropWhile)

theorem intercalate_pieces (path : String) : "/".intercalate (pieces path) = path := by
  apply String.toList_inj.mp
  rw [String.toList_intercalate, pieces, List.map_map]
  have spelled : String.toList ∘ String.ofList = id := funext fun text => String.toList_ofList
  rw [spelled, List.map_id]
  exact List.intercalate_splitOn '/'

theorem pieces_intercalate {parts : List String} (nonempty : parts ≠ [])
    (plain : ∀ part ∈ parts, '/' ∉ part.toList) : pieces ("/".intercalate parts) = parts := by
  have separate : ∀ text ∈ parts.map String.toList, '/' ∉ text := by
    intro text member
    obtain ⟨part, inside, rfl⟩ := List.mem_map.mp member
    exact plain part inside
  have slash : "/".toList = ['/'] := rfl
  have spelled : String.ofList ∘ String.toList = id := funext fun text => String.ofList_toList
  rw [pieces, String.toList_intercalate, slash,
    List.splitOn_intercalate '/' separate (by simpa using nonempty), List.map_map, spelled,
    List.map_id]

theorem exists_idle_end (parts : List String) :
    ∃ idle, parts = dropTrailing isIdle parts ++ idle ∧ (∀ piece ∈ idle, isIdle piece = true) ∧
      ∀ last, (dropTrailing isIdle parts).getLast? = some last → isIdle last = false := by
  refine ⟨parts.rtakeWhile isIdle, List.rdropWhile_append_rtakeWhile.symm, ?_, ?_⟩
  · intro piece member
    exact List.mem_rtakeWhile_imp member
  · intro last ended
    have nonempty : parts.rdropWhile isIdle ≠ [] := by
      intro nothing
      rw [dropTrailing_eq_rdropWhile, nothing] at ended
      cases ended
    have busy := List.rdropWhile_last_not isIdle parts nonempty
    rw [dropTrailing_eq_rdropWhile, List.getLast?_eq_some_getLast nonempty] at ended
    rwa [Option.some.inj ended, Bool.not_eq_true] at busy

/-- A path whose first piece is not empty says something and starts without a slash. -/
theorem usual {path first : String} {rest : List String} (split : pieces path = first :: rest)
    (nonempty : first ≠ "") : path ≠ "" ∧ isAbsolute path = false := by
  constructor
  · rintro rfl
    exact nonempty (List.cons.inj split).1.symm
  · rw [← Bool.not_eq_true]
    intro absolute
    have spelled : path.toList.head? = some '/' := by simpa [isAbsolute] using absolute
    obtain ⟨text, same⟩ := List.head?_eq_some_iff.mp spelled
    rw [pieces, same, List.splitOn_cons_eq_if_modifyHead] at split
    exact nonempty (List.cons.inj split).1.symm

/-- No idle piece is at the end of a path, unless it is the only piece. -/
def Tidy (path : String) : Prop :=
  ∀ front last, pieces path = front ++ [last] → front = [] ∨ isIdle last = false

/-- A path goes on from its parent by one step, with idle pieces before and after it. -/
structure HasParent (path parent : String) (before : List String) (last : String)
    (after : List String) : Prop where
  parent? : Path.parent? path = some parent
  named : parent ≠ ""
  relative : isAbsolute parent = false
  tidy : Tidy parent
  split : pieces path = pieces parent ++ (before ++ last :: after)
  idle : (∀ piece ∈ before, isIdle piece = true) ∧ ∀ piece ∈ after, isIdle piece = true
  step : isIdle last = false

/-- A path without a parent that says something is one piece. -/
structure Single (path first : String) (after : List String) : Prop where
  parent? : Path.parent? path = some ""
  split : pieces path = first :: after
  idle : ∀ piece ∈ after, isIdle piece = true

theorem single_or_hasParent {path : String} (named : path ≠ "")
    (relative : isAbsolute path = false) :
    (∃ first after, Single path first after) ∨
      ∃ parent before last after, HasParent path parent before last after := by
  obtain ⟨first, rest, split, nonempty⟩ := exists_pieces_cons named relative
  obtain ⟨after, ended, idle, busy⟩ := exists_idle_end rest
  rcases List.eq_nil_or_concat (dropTrailing isIdle rest) with nothing | ⟨front, last, steps⟩
  · rw [nothing, List.nil_append] at ended
    refine .inl ⟨first, after, ?_, ended ▸ split, idle⟩
    simp [Path.parent?, split, nothing, nonempty]
  · rw [List.concat_eq_append] at steps
    obtain ⟨before, between, quiet, loud⟩ := exists_idle_end front
    have plain : ∀ part ∈ first :: dropTrailing isIdle front, '/' ∉ part.toList := by
      intro part member
      suffices inside : part ∈ pieces path from slash_not_mem_of_mem_pieces inside
      rw [split, ended, steps, between]
      rcases List.mem_cons.mp member with rfl | member
      · exact List.mem_cons_self
      · simp [member]
    have spelled : pieces ("/".intercalate (first :: dropTrailing isIdle front)) =
        first :: dropTrailing isIdle front := pieces_intercalate (List.cons_ne_nil _ _) plain
    refine .inr ⟨"/".intercalate (first :: dropTrailing isIdle front), before, last, after, ?_, ?_,
      ?_, ?_, ?_, ⟨quiet, idle⟩, busy last (by simp [steps])⟩
    · unfold Path.parent?
      rw [split]
      dsimp only
      rw [steps]
      split
      · rename_i nothing
        simp at nothing
      · rw [List.dropLast_concat]
        split
        · exact absurd rfl nonempty
        · rfl
    · exact (usual spelled nonempty).1
    · exact (usual spelled nonempty).2
    · intro init final same
      rw [spelled] at same
      cases init with
      | nil => exact .inl rfl
      | cons second others =>
          rw [List.cons_append] at same
          obtain ⟨-, rest⟩ := List.cons.inj same
          exact .inr (loud final (by rw [rest, List.getLast?_concat]))
    · rw [spelled, split, ended, steps]
      conv_lhs => rw [between]
      simp

theorem Single.after_eq_nil {path first : String} {after : List String}
    (single : Single path first after) (tidy : Tidy path) : after = [] := by
  rcases List.eq_nil_or_concat after with nothing | ⟨init, final, rfl⟩
  · exact nothing
  · rw [List.concat_eq_append] at single
    rcases tidy (first :: init) final (by rw [single.split, List.cons_append]) with none | busy
    · cases none
    · rw [single.idle final (by simp)] at busy
      cases busy

theorem HasParent.after_eq_nil {path parent last : String} {before after : List String}
    (has : HasParent path parent before last after) (tidy : Tidy path) : after = [] := by
  rcases List.eq_nil_or_concat after with nothing | ⟨init, final, rfl⟩
  · exact nothing
  · rw [List.concat_eq_append] at has
    rcases tidy (pieces parent ++ (before ++ last :: init)) final (by rw [has.split]; simp)
      with none | busy
    · simp at none
    · rw [has.idle.2 final (by simp)] at busy
      cases busy

theorem ne_empty_of_isAbsolute {path : String} (absolute : isAbsolute path = true) : path ≠ "" := by
  rintro rfl
  cases absolute

/-- The parent of a path from the root is a path from the root. -/
theorem isAbsolute_parent {path parent : String} (absolute : isAbsolute path = true)
    (above : parent? path = some parent) : isAbsolute parent = true := by
  obtain ⟨rest, split⟩ : ∃ rest, pieces path = "" :: rest := by
    have spelled : path.toList.head? = some '/' := by simpa [isAbsolute] using absolute
    obtain ⟨text, same⟩ := List.head?_eq_some_iff.mp spelled
    rw [pieces, same, List.splitOn_cons_eq_if_modifyHead]
    exact ⟨_, rfl⟩
  unfold parent? at above
  rw [split] at above
  dsimp only at above
  split at above
  · cases above
  · split at above
    · obtain rfl := Option.some.inj above
      rfl
    · rename_i more
      obtain rfl := Option.some.inj above
      obtain ⟨next, others, same⟩ := List.exists_cons_of_ne_nil (more rfl)
      rw [same, ← List.singleton_append, String.intercalate_append_of_ne_nil
        (List.cons_ne_nil _ _) (List.cons_ne_nil _ _)]
      simp [isAbsolute]

theorem tidy_empty : Tidy "" := by
  intro front last same
  have split : [""] = front ++ [last] := same
  cases front with
  | nil => exact .inl rfl
  | cons first others => simp at split

/-- The directory of a path is a tidy path, if it is not outside. -/
theorem tidy_or_isAbsolute_parent (path : String) :
    Tidy ((parent? path).getD "") ∨ isAbsolute ((parent? path).getD "") = true := by
  by_cases named : path = ""
  · subst named
    exact .inl tidy_empty
  · cases absolute : isAbsolute path with
    | true =>
        cases above : parent? path with
        | none => exact .inl tidy_empty
        | some parent => exact .inr (isAbsolute_parent absolute above)
    | false =>
        rcases single_or_hasParent named absolute with ⟨first, after, single⟩ |
          ⟨parent, before, last, after, has⟩
        · rw [single.parent?]
          exact .inl tidy_empty
        · rw [has.parent?]
          exact .inl has.tidy

/-- The last piece that is no idle one is the same in two readings of a path. -/
theorem eq_of_idle_end {front start after : List String} {name last : String}
    (same : front ++ [name] = start ++ last :: after)
    (idle : ∀ piece ∈ after, isIdle piece = true) (busy : isIdle name = false) :
    front = start ∧ name = last := by
  rcases List.eq_nil_or_concat after with rfl | ⟨init, final, rfl⟩
  · obtain ⟨rfl, ended⟩ := List.append_inj' same rfl
    exact ⟨rfl, List.singleton_inj.mp ended⟩
  · rw [List.concat_eq_append, ← List.cons_append, ← List.append_assoc] at same
    obtain ⟨-, ended⟩ := List.append_inj' same rfl
    obtain rfl := List.singleton_inj.mp ended
    rw [idle name (by simp)] at busy
    cases busy

/-- A path whose last piece is a name has it as its file name. -/
theorem fileName?_eq {path last : String} {front : List String} (named : path ≠ "")
    (relative : isAbsolute path = false) (split : pieces path = front ++ [last])
    (busy : isIdle last = false) (level : last ≠ "..") : fileName? path = some last := by
  have step : innerComponent? last = some (.name last) := by simp [innerComponent?, busy, level]
  have ended : (components path).getLast? = some (.name last) := by
    rw [components_eq named relative, split, List.filterMap_append]
    simp [step]
  rw [fileName?, ended]

/-- The parent of a path is shorter than the path. -/
theorem HasParent.length_lt {path parent last : String} {before after : List String}
    (has : HasParent path parent before last after) : parent.length < path.length := by
  have more : before ++ last :: after ≠ [] := by simp
  rw [← intercalate_pieces path, has.split,
    String.intercalate_append_of_ne_nil (pieces_ne_nil parent) more, intercalate_pieces]
  simp only [String.length_append]
  have slash : "/".length = 1 := rfl
  omega

end ScopeLowering.Path
