import ScopeLowering.Proofs.Text.Trimming
import ScopeLowering.Text.Characters

/-!
# Keywords

What a keyword without case is in a text: some characters that fold to its letters. Blanks
that may follow it end at the first visible character.
-/

namespace ScopeLowering.Text

/-- A keyword is found where the text starts with some spelling of it. -/
theorem afterWord?_eq_some_iff {word text rest : List Char} :
    afterWord? word text = some rest ↔
      ∃ spelled, text = spelled ++ rest ∧ spelled.map fold = word := by
  induction word generalizing text with
  | nil => simp [afterWord?, eq_comm]
  | cons letter word ih =>
      cases text with
      | nil => simp [afterWord?]
      | cons c text =>
          by_cases same : fold c = letter
          · rw [afterWord?, if_pos same, ih]
            constructor
            · rintro ⟨spelled, rfl, folded⟩
              exact ⟨c :: spelled, rfl, by rw [List.map_cons, same, folded]⟩
            · rintro ⟨spelled, shape, folded⟩
              cases spelled with
              | nil => cases folded
              | cons first spelled =>
                  obtain ⟨rfl, rfl⟩ := List.cons.inj shape
                  exact ⟨spelled, rfl, (List.cons.inj folded).2⟩
          · rw [afterWord?, if_neg same]
            constructor
            · intro found
              cases found
            · rintro ⟨spelled, shape, folded⟩
              cases spelled with
              | nil => cases folded
              | cons first spelled =>
                  obtain ⟨rfl, rfl⟩ := List.cons.inj shape
                  exact absurd (List.cons.inj folded).1 same

/-- The first visible character of a text ends the blanks before it. -/
theorem trimStart_eq_cons_iff {c : Char} (visible : isBlank c = false) {text rest : List Char} :
    trimStart text = c :: rest ↔ ∃ blanks, text = blanks ++ c :: rest ∧ AllBlank blanks := by
  constructor
  · intro start
    refine ⟨text.takeWhile isBlank, ?_, fun other member => List.mem_takeWhile_imp member⟩
    rw [← start, trimStart, List.takeWhile_append_dropWhile]
  · rintro ⟨blanks, rfl, blank⟩
    rw [trimStart, List.dropWhile_append_of_pos blank,
      List.dropWhile_cons_of_neg (by simp [visible])]

/-! ## Marks -/

def marks : List Char :=
  ['\\', '\'', '"', '(', ')', '[', ']', '{', '}', ';', ',', ':', '&', '@']

theorem not_mem_marks_of_isBlank {c : Char} (blank : isBlank c = true) : c ∉ marks := by
  intro member
  have visible : ∀ mark ∈ marks, (!isBlank mark) = true := List.all_eq_true.mp (by decide)
  simpa [blank] using visible c member

/-- A character that folds to a letter of a keyword is no mark, as folding leaves marks be. -/
theorem not_mem_marks_of_fold {c : Char} (word : List Char)
    (letters : ∀ letter ∈ word, letter ∉ marks) (folded : fold c ∈ word) : c ∉ marks := by
  intro member
  have fixed : ∀ mark ∈ marks, (fold mark == mark) = true := List.all_eq_true.mp (by decide)
  rw [beq_iff_eq.mp (fixed c member)] at folded
  exact letters c folded member

theorem ordinary_of_not_mem_marks {c : Char} (unmarked : c ∉ marks) :
    Mode.plain.structural c = true := by
  refine Mode.structural_plain_iff.mpr fun mark => unmarked ?_
  have within : ∀ mark ∈ ['\\', '\'', '"'], mark ∈ marks := by simp [marks]
  exact within c mark

end ScopeLowering.Text
