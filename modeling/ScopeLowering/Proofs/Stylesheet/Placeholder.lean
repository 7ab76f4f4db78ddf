import ScopeLowering.Proofs.Text.Keyword
import ScopeLowering.Stylesheet.Selector

/-!
# What a placeholder covers

A placeholder starts with a mark of its own and goes on over characters that are no marks.
So a scan is in plain mode all along a placeholder, and no placeholder starts inside
another one.
-/

namespace ScopeLowering.Stylesheet

open ScopeLowering.Text

namespace Placeholder

def mark : Placeholder → Char
  | .scope => ':'
  | .nesting => '&'

theorem mark_mem_marks (placeholder : Placeholder) : placeholder.mark ∈ marks := by
  cases placeholder <;> decide

theorem exists_of_afterScopeWord? {text rest : List Char}
    (found : afterScopeWord? text = some rest) :
    ∃ passed, text = passed ++ rest ∧ ∀ c ∈ passed, c ∉ marks := by
  obtain ⟨spelled, start, folded⟩ :=
    afterWord?_eq_some_iff.mp (Option.filter_eq_some_iff.mp found).1
  refine ⟨text.takeWhile isBlank ++ spelled, ?_, fun c member => ?_⟩
  · rw [List.append_assoc, ← start, trimStart, List.takeWhile_append_dropWhile]
  · rcases List.mem_append.mp member with blank | letter
    · exact not_mem_marks_of_isBlank (List.mem_takeWhile_imp blank)
    · refine not_mem_marks_of_fold ['s', 'c', 'o', 'p', 'e'] (by simp [marks]) ?_
      rw [← folded]
      exact List.mem_map_of_mem letter

theorem exists_of_extent? {placeholder : Placeholder} {c : Char} {text : List Char} {extent : Nat}
    (found : placeholder.extent? (c :: text) = some extent) :
    c = placeholder.mark ∧ ∀ other ∈ text.take extent, other ∉ marks := by
  unfold extent? at found
  split at found
  · rename_i inner shape
    obtain ⟨rfl, rfl⟩ := List.cons.inj shape
    obtain ⟨rest, word, rfl⟩ := Option.map_eq_some_iff.mp found
    obtain ⟨passed, rfl, unmarked⟩ := exists_of_afterScopeWord? word
    rw [List.length_append, Nat.add_sub_cancel, List.take_left]
    exact ⟨rfl, unmarked⟩
  · rename_i inner shape
    obtain ⟨rfl, rfl⟩ := List.cons.inj shape
    obtain rfl := Option.some.inj found
    exact ⟨rfl, fun other member => absurd member List.not_mem_nil⟩
  · cases found

/-- The invariant of writing in place of placeholders: what is still to be passed over is
the rest of a placeholder, which holds no marks and was entered in plain mode. -/
structure Passing (skip : Nat) (mode : Mode) (text : List Char) : Prop where
  unmarked : ∀ c ∈ text.take skip, c ∉ marks
  plain : skip ≠ 0 → mode = .plain

theorem passing_zero (mode : Mode) (text : List Char) : Passing 0 mode text where
  unmarked := fun _ member => absurd member List.not_mem_nil
  plain := fun nonzero => absurd rfl nonzero

namespace Passing

variable {skip : Nat} {mode : Mode} {c : Char} {text : List Char}

theorem mode_eq (passing : Passing (skip + 1) mode (c :: text)) : mode = .plain :=
  passing.plain (Nat.succ_ne_zero skip)

theorem structural (passing : Passing (skip + 1) mode (c :: text)) :
    mode.structural c = true := by
  rw [passing.mode_eq]
  exact ordinary_of_not_mem_marks (passing.unmarked c (by simp))

theorem next (passing : Passing (skip + 1) mode (c :: text)) :
    Passing skip (mode.next c) text where
  unmarked := fun other member => passing.unmarked other (by simp [member])
  plain := fun _ => Mode.next_of_structural passing.structural

end Passing

def start? (placeholder : Placeholder) (mode : Mode) (c : Char) (text : List Char) : Option Nat :=
  if mode.structural c then placeholder.extent? (c :: text) else none

theorem start?_eq_some_iff {placeholder : Placeholder} {mode : Mode} {c : Char}
    {text : List Char} {extent : Nat} :
    placeholder.start? mode c text = some extent ↔
      mode.structural c = true ∧ placeholder.extent? (c :: text) = some extent := by
  rw [start?, Option.ite_none_right_eq_some]

/-- After the mark of a placeholder comes the rest of it. -/
theorem passing_of_start? {placeholder : Placeholder} {mode : Mode} {c : Char}
    {text : List Char} {extent : Nat} (found : placeholder.start? mode c text = some extent) :
    Passing extent (mode.next c) text where
  unmarked := (exists_of_extent? (start?_eq_some_iff.mp found).2).2
  plain := fun _ => Mode.next_of_structural (start?_eq_some_iff.mp found).1

/-- Where the rest of a placeholder is passed over, no placeholder starts. -/
theorem Passing.start?_eq_none {placeholder : Placeholder} {skip : Nat} {mode : Mode} {c : Char}
    {text : List Char} (passing : Passing (skip + 1) mode (c :: text)) :
    placeholder.start? mode c text = none := by
  cases found : placeholder.start? mode c text with
  | none => rfl
  | some extent =>
      have unmarked := passing.unmarked c (by simp)
      rw [(exists_of_extent? (start?_eq_some_iff.mp found).2).1] at unmarked
      exact absurd placeholder.mark_mem_marks unmarked

/-! ## Writing in place of placeholders -/

variable {placeholder : Placeholder} {root text : List Char} {mode : Mode} {c : Char}

theorem replaceFrom_nil (skip : Nat) : placeholder.replaceFrom root skip mode [] = [] := by
  cases skip <;> rfl

theorem replaceFrom_succ (skip : Nat) :
    placeholder.replaceFrom root (skip + 1) mode (c :: text) =
      placeholder.replaceFrom root skip (mode.next c) text := rfl

theorem replaceFrom_of_start {extent : Nat} (found : placeholder.start? mode c text = some extent) :
    placeholder.replaceFrom root 0 mode (c :: text) =
      root ++ placeholder.replaceFrom root extent (mode.next c) text := by
  rw [start?] at found
  rw [replaceFrom, found]

theorem replaceFrom_of_none (none : placeholder.start? mode c text = none) :
    placeholder.replaceFrom root 0 mode (c :: text) =
      c :: placeholder.replaceFrom root 0 (mode.next c) text := by
  rw [start?] at none
  rw [replaceFrom, none]

end Placeholder

/-! ## Trimming -/

/-- No blank continues a word. -/
theorem isWord_of_isBlank {c : Char} (blank : isBlank c = true) : isWord c = false := by
  have separates : ∀ c ∈ blankCharacters, (!isWord c) = true :=
    List.all_eq_true.mp (by decide +kernel)
  simpa using separates c (mem_blankCharacters blank)

namespace Placeholder

/-- A scope word stays complete before blanks. -/
theorem afterScopeWord?_append_blank {text rest blanks : List Char} (blank : AllBlank blanks)
    (found : afterScopeWord? text = some rest) :
    afterScopeWord? (text ++ blanks) = some (rest ++ blanks) := by
  obtain ⟨word, ends⟩ := Option.filter_eq_some_iff.mp found
  obtain ⟨spelled, start, folded⟩ := afterWord?_eq_some_iff.mp word
  have visible : trimStart text ≠ [] := by
    intro empty
    rw [empty] at start
    obtain ⟨rfl, -⟩ := List.append_eq_nil_iff.mp start.symm
    cases folded
  have kept : trimStart (text ++ blanks) = trimStart text ++ blanks := by
    rw [trimStart, List.dropWhile_append, ← trimStart, if_neg (by simpa using visible)]
  refine Option.filter_eq_some_iff.mpr ⟨?_, ?_⟩
  · rw [kept, start, List.append_assoc]
    exact afterWord?_eq_some_iff.mpr ⟨spelled, rfl, folded⟩
  · cases rest with
    | cons c rest => exact ends
    | nil =>
        cases blanks with
        | nil => rfl
        | cons c blanks => simp [endsWord, isWord_of_isBlank (blank c List.mem_cons_self)]

theorem extent?_append_blank {placeholder : Placeholder} {c : Char} {text blanks : List Char}
    (blank : AllBlank blanks) (found : (placeholder.extent? (c :: text)).isSome = true) :
    (placeholder.extent? (c :: (text ++ blanks))).isSome = true := by
  obtain ⟨extent, covered⟩ := Option.isSome_iff_exists.mp found
  obtain ⟨rfl, -⟩ := exists_of_extent? covered
  cases placeholder with
  | nesting => rfl
  | scope =>
      obtain ⟨rest, word, -⟩ := Option.map_eq_some_iff.mp covered
      have longer := afterScopeWord?_append_blank blank word
      simp [mark, extent?, longer]

theorem occurs_append_blank {placeholder : Placeholder} {mode : Mode} {text blanks : List Char}
    (blank : AllBlank blanks) (occurs : placeholder.occurs mode text = true) :
    placeholder.occurs mode (text ++ blanks) = true := by
  induction text generalizing mode with
  | nil => cases occurs
  | cons c text ih =>
      rw [Placeholder.occurs, Bool.or_eq_true, Bool.and_eq_true] at occurs
      rw [List.cons_append, Placeholder.occurs, Bool.or_eq_true, Bool.and_eq_true]
      rcases occurs with ⟨structural, found⟩ | later
      · exact Or.inl ⟨structural, extent?_append_blank blank found⟩
      · exact Or.inr (ih later)

theorem occurs_append_of_after {placeholder : Placeholder} {mode : Mode} {lead text : List Char}
    (occurs : placeholder.occurs (mode.after lead) text = true) :
    placeholder.occurs mode (lead ++ text) = true := by
  induction lead generalizing mode with
  | nil => exact occurs
  | cons c lead ih =>
      rw [List.cons_append, Placeholder.occurs, Bool.or_eq_true]
      exact Or.inr (ih occurs)

/-- Trimming brings no placeholder about. -/
theorem occurs_of_occurs_trim {placeholder : Placeholder} {text : List Char}
    (occurs : placeholder.occurs .plain (trim text) = true) :
    placeholder.occurs .plain text = true := by
  obtain ⟨lead, tail, blankLead, blankTail, shape⟩ := exists_trim_parts text
  rw [shape]
  refine occurs_append_blank blankTail (occurs_append_of_after ?_)
  rwa [Mode.after_of_ordinary blankLead.ordinary]

end Placeholder

end ScopeLowering.Stylesheet
