import ScopeLowering.Text.Scan

/-!
# The structural characters of a text

The searches for delimiters, statements and commas look at structural characters only.
The skeleton of a text lists them, so that facts about a search become facts about a list
of characters, and the skeleton of two texts in a row is taken apart at the mode between
them.
-/

namespace ScopeLowering.Text

namespace Mode

def skeleton : Mode → List Char → List Char
  | _, [] => []
  | mode, c :: text =>
      if mode.structural c then c :: (mode.next c).skeleton text
      else (mode.next c).skeleton text

/-- A scan that is not inside a string, though a backslash may wait. -/
def Settled (mode : Mode) : Prop := mode = .plain ∨ mode = .escape

@[simp]
theorem skeleton_nil (mode : Mode) : mode.skeleton [] = [] := rfl

theorem skeleton_of_structural {mode : Mode} {c : Char} (structural : mode.structural c = true)
    (text : List Char) : mode.skeleton (c :: text) = c :: Mode.plain.skeleton text := by
  simp only [skeleton, structural, if_true, next_of_structural structural]

theorem skeleton_of_not_structural {mode : Mode} {c : Char} (literal : ¬mode.structural c = true)
    (text : List Char) : mode.skeleton (c :: text) = (mode.next c).skeleton text := by
  simp only [skeleton, literal, if_false, Bool.false_eq_true]

theorem skeleton_append (mode : Mode) (first second : List Char) :
    mode.skeleton (first ++ second) =
      mode.skeleton first ++ (mode.after first).skeleton second := by
  induction first generalizing mode with
  | nil => rfl
  | cons c first ih =>
      by_cases structural : mode.structural c = true
      · simp only [List.cons_append, skeleton_of_structural structural, ih, after_cons,
          next_of_structural structural]
      · simp only [List.cons_append, skeleton_of_not_structural structural, ih, after_cons]

theorem mem_skeleton_cons {mode : Mode} {c other : Char} {text : List Char} :
    other ∈ mode.skeleton (c :: text) ↔
      (mode.structural c = true ∧ other = c) ∨ other ∈ (mode.next c).skeleton text := by
  by_cases structural : mode.structural c = true
  · rw [skeleton_of_structural structural, next_of_structural structural, List.mem_cons]
    simp [structural]
  · rw [skeleton_of_not_structural structural]
    simp [structural]

/-- A structural character belongs to the text. -/
theorem mem_of_mem_skeleton {mode : Mode} {text : List Char} {c : Char}
    (member : c ∈ mode.skeleton text) : c ∈ text := by
  induction text generalizing mode with
  | nil => exact member
  | cons first text ih =>
      rcases mem_skeleton_cons.mp member with ⟨-, rfl⟩ | inside
      · exact List.mem_cons_self
      · exact List.mem_cons_of_mem _ (ih inside)

/-! ## Ordinary characters -/

/-- Outside strings all is structure but the backslash and the quotation marks. -/
theorem structural_plain_iff {c : Char} :
    Mode.plain.structural c = true ↔ c ∉ ['\\', '\'', '"'] := by
  simp only [structural, isQuotationMark, Quote.ofChar?, List.mem_cons, List.not_mem_nil,
    Bool.and_eq_true, bne_iff_ne, Bool.not_eq_true', Option.isSome_eq_false_iff,
    Option.isNone_iff_eq_none]
  split
  · simp_all
  · split <;> simp_all

/-- A text without quotation marks and backslashes is all structure. -/
theorem after_of_ordinary {text : List Char}
    (ordinary : ∀ c ∈ text, Mode.plain.structural c = true) :
    Mode.plain.after text = .plain := by
  induction text with
  | nil => rfl
  | cons c text ih =>
      rw [after_cons, next_of_structural (ordinary c List.mem_cons_self)]
      exact ih fun other member => ordinary other (List.mem_cons_of_mem _ member)

theorem skeleton_of_ordinary {text : List Char}
    (ordinary : ∀ c ∈ text, Mode.plain.structural c = true) :
    Mode.plain.skeleton text = text := by
  induction text with
  | nil => rfl
  | cons c text ih =>
      rw [skeleton_of_structural (ordinary c List.mem_cons_self),
        ih fun other member => ordinary other (List.mem_cons_of_mem _ member)]

/-- An ordinary character neither opens nor closes a string. -/
theorem settled_next_iff {mode : Mode} {c : Char} (ordinary : Mode.plain.structural c = true) :
    (mode.next c).Settled ↔ mode.Settled := by
  cases mode with
  | plain => simp [next_of_structural ordinary, Settled]
  | escape => simp [next, Settled]
  | quotedEscape quote => simp [next, Settled]
  | quoted quote =>
      have backslash : c ≠ '\\' := by
        rintro rfl
        exact absurd ordinary (by decide)
      have mark : c ≠ quote.char := by
        rintro rfl
        cases quote <;> exact absurd ordinary (by decide)
      simp [next, backslash, mark, Settled]

theorem settled_after_iff {mode : Mode} {text : List Char}
    (ordinary : ∀ c ∈ text, Mode.plain.structural c = true) :
    (mode.after text).Settled ↔ mode.Settled := by
  induction text generalizing mode with
  | nil => rfl
  | cons c text ih =>
      rw [after_cons, ih fun other member => ordinary other (List.mem_cons_of_mem _ member),
        settled_next_iff (ordinary c List.mem_cons_self)]

/-- One ordinary character uses up a backslash that waits. -/
theorem Settled.next_eq {mode : Mode} (settled : mode.Settled) {c : Char}
    (ordinary : Mode.plain.structural c = true) : mode.next c = .plain := by
  rcases settled with rfl | rfl
  · exact next_of_structural ordinary
  · rfl

/-- The skeleton of an ordinary character outside strings is the character itself, or
nothing where a backslash takes it. -/
theorem Settled.skeleton_cons {mode : Mode} (settled : mode.Settled) {c : Char}
    (ordinary : Mode.plain.structural c = true) (text : List Char) :
    mode.skeleton (c :: text) = c :: Mode.plain.skeleton text ∨
      mode.skeleton (c :: text) = Mode.plain.skeleton text := by
  rcases settled with rfl | rfl
  · exact Or.inl (skeleton_of_structural ordinary text)
  · exact Or.inr (skeleton_of_not_structural (by simp [structural]) text)

end Mode

end ScopeLowering.Text
