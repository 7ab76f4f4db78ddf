import ScopeLowering.Json

/-!
# Numbers

A number has an optional sign, digits without leading zeros, and optionally a fraction and an
exponent. It is read to its end, and nothing else is read as a number.
-/

namespace ScopeLowering.Json

variable {text spelling rest : List Char}

def IsDigits (text : List Char) : Prop := text ≠ [] ∧ ∀ c ∈ text, Char.isDigit c = true

/-- The digits before the point: a zero leads no other digits. -/
def IsWhole (text : List Char) : Prop := IsDigits text ∧ (text.head? = some '0' → text = ['0'])

def IsFraction (text : List Char) : Prop :=
  text = [] ∨ ∃ digits, IsDigits digits ∧ text = '.' :: digits

def IsExponent (text : List Char) : Prop :=
  text = [] ∨ ∃ mark sign digits, (mark = 'e' ∨ mark = 'E') ∧ sign ∈ [[], ['+'], ['-']] ∧
    IsDigits digits ∧ text = mark :: (sign ++ digits)

def IsNumber (spelling : List Char) : Prop :=
  ∃ sign whole fraction exponent, sign ∈ [[], ['-']] ∧ IsWhole whole ∧ IsFraction fraction ∧
    IsExponent exponent ∧ spelling = sign ++ (whole ++ (fraction ++ exponent))

def startsNumber (c : Char) : Bool := Char.isDigit c || c = '-'

def continuesNumber (c : Char) : Bool := Char.isDigit c || ['.', 'e', 'E'].contains c

/-- A text that no number goes on with. -/
def EndsNumber (text : List Char) : Prop := ∀ c ∈ text.head?, continuesNumber c = false

/-! ## Digits -/

theorem IsDigits.exists_cons (digits : IsDigits text) :
    ∃ c tail, text = c :: tail ∧ Char.isDigit c = true := by
  obtain ⟨c, tail, rfl⟩ := List.exists_cons_of_ne_nil digits.1
  exact ⟨c, tail, rfl, digits.2 c List.mem_cons_self⟩

theorem IsDigits.append_ne (digits : IsDigits text) {c : Char} (other : Char.isDigit c = false)
    (rest tail : List Char) : text ++ rest ≠ c :: tail := by
  obtain ⟨d, later, rfl, digit⟩ := digits.exists_cons
  rintro same
  rw [(List.cons.inj same).1, other] at digit
  cases digit

theorem readDigits_append (digits : IsDigits text)
    (stop : ∀ c ∈ rest.head?, Char.isDigit c = false) :
    readDigits (text ++ rest) = some (text, rest) := by
  have cut : rest.takeWhile Char.isDigit = [] ∧ rest.dropWhile Char.isDigit = rest := by
    cases rest with
    | nil => exact ⟨rfl, rfl⟩
    | cons c rest => simp [stop c rfl]
  obtain ⟨c, tail, rfl, -⟩ := digits.exists_cons
  rw [readDigits, List.takeWhile_append_of_pos digits.2, List.dropWhile_append_of_pos digits.2,
    cut.1, cut.2, List.append_nil]

theorem of_readDigits {digits : List Char} (read : readDigits text = some (digits, rest)) :
    IsDigits digits ∧ text = digits ++ rest := by
  unfold readDigits at read
  split at read
  · cases read
  · rename_i digits nonempty
    cases read
    exact ⟨⟨nonempty, List.all_eq_true.mp List.all_takeWhile⟩,
      List.takeWhile_append_dropWhile.symm⟩

/-! ## The parts of a number -/

theorem readWhole_append {whole : List Char} (isWhole : IsWhole whole)
    (stop : ∀ c ∈ rest.head?, Char.isDigit c = false) :
    readWhole (whole ++ rest) = some (whole, rest) := by
  by_cases zero : whole.head? = some '0'
  · rw [isWhole.2 zero]
    rfl
  · obtain ⟨c, tail, rfl, -⟩ := isWhole.1.exists_cons
    rw [List.cons_append, readWhole, ← List.cons_append, readDigits_append isWhole.1 stop]
    rintro _ same
    rw [(List.cons.inj same).1] at zero
    exact zero rfl

theorem of_readWhole {whole : List Char} (read : readWhole text = some (whole, rest)) :
    IsWhole whole ∧ text = whole ++ rest := by
  unfold readWhole at read
  split at read
  · cases read
    have zero : IsDigits ['0'] := ⟨by simp, List.forall_mem_singleton.mpr (by decide)⟩
    exact ⟨⟨zero, fun _ => rfl⟩, rfl⟩
  · rename_i led
    obtain ⟨digits, rfl⟩ := of_readDigits read
    refine ⟨⟨digits, fun zero => ?_⟩, rfl⟩
    obtain ⟨c, tail, rfl, -⟩ := digits.exists_cons
    cases zero
    exact absurd rfl (led (tail ++ rest))

theorem IsFraction.head (isFraction : IsFraction text) {c : Char}
    (head : c ∈ (text ++ rest).head?) : c = '.' ∨ c ∈ rest.head? := by
  rcases isFraction with rfl | ⟨digits, -, rfl⟩
  · exact .inr head
  · exact .inl (Option.some.inj head).symm

theorem readFraction_append {fraction : List Char} (isFraction : IsFraction fraction)
    (stop : ∀ c ∈ rest.head?, Char.isDigit c = false ∧ c ≠ '.') :
    readFraction (fraction ++ rest) = some (fraction, rest) := by
  rcases isFraction with rfl | ⟨digits, isDigits, rfl⟩
  · rw [List.nil_append, readFraction]
    rintro _ rfl
    exact (stop '.' rfl).2 rfl
  · rw [List.cons_append, readFraction, readDigits_append isDigits fun c head => (stop c head).1]
    rfl

theorem of_readFraction {fraction : List Char} (read : readFraction text = some (fraction, rest)) :
    IsFraction fraction ∧ text = fraction ++ rest := by
  unfold readFraction at read
  split at read
  · obtain ⟨⟨digits, after⟩, readDigits, same⟩ := Option.map_eq_some_iff.mp read
    cases same
    obtain ⟨isDigits, rfl⟩ := of_readDigits readDigits
    exact ⟨.inr ⟨digits, isDigits, rfl⟩, rfl⟩
  · cases read
    exact ⟨.inl rfl, rfl⟩

theorem IsExponent.head (isExponent : IsExponent text) {c : Char}
    (head : c ∈ (text ++ rest).head?) : (c = 'e' ∨ c = 'E') ∨ c ∈ rest.head? := by
  rcases isExponent with rfl | ⟨mark, sign, digits, marks, -, -, rfl⟩
  · exact .inr head
  · obtain rfl : mark = c := Option.some.inj head
    exact .inl marks

theorem readExponent_append {exponent : List Char} (isExponent : IsExponent exponent)
    (stop : ∀ c ∈ rest.head?, Char.isDigit c = false ∧ ¬(c = 'e' ∨ c = 'E')) :
    readExponent (exponent ++ rest) = some (exponent, rest) := by
  rcases isExponent with rfl | ⟨mark, sign, digits, marks, signs, isDigits, rfl⟩
  · cases rest with
    | nil => rfl
    | cons c rest =>
        have other := (stop c rfl).2
        simp [readExponent, not_or.mp other]
  · have marked : (mark = 'e' || mark = 'E') = true := by simpa using marks
    have read := readDigits_append isDigits fun c head => (stop c head).1
    simp only [List.mem_cons, List.not_mem_nil, or_false] at signs
    rcases signs with rfl | rfl | rfl
    · rw [List.nil_append, List.cons_append,
        readExponent.eq_4 _ _ (isDigits.append_ne (by decide) rest)
          (isDigits.append_ne (by decide) rest), if_pos marked]
      simp only [List.length_nil, List.drop_zero, read]
      rfl
    · simp only [List.cons_append, List.nil_append]
      rw [readExponent.eq_2, if_pos marked]
      simp only [List.length_cons, List.length_nil, List.drop_succ_cons, List.drop_zero, read]
      rfl
    · simp only [List.cons_append, List.nil_append]
      rw [readExponent.eq_3, if_pos marked]
      simp only [List.length_cons, List.length_nil, List.drop_succ_cons, List.drop_zero, read]
      rfl

theorem of_readExponent {exponent : List Char} (read : readExponent text = some (exponent, rest)) :
    IsExponent exponent ∧ text = exponent ++ rest := by
  unfold readExponent at read
  split at read
  · cases read
    exact ⟨.inl rfl, rfl⟩
  · rename_i mark text
    split at read
    · rename_i marked
      have marks : mark = 'e' ∨ mark = 'E' := by simpa using marked
      have parts : ∀ sign ∈ [[], ['+'], ['-']], ∀ tail,
          (readDigits tail).map (fun cut => (mark :: sign ++ cut.1, cut.2)) =
            some (exponent, rest) →
          IsExponent exponent ∧ mark :: (sign ++ tail) = exponent ++ rest := by
        intro sign signs tail read
        obtain ⟨⟨digits, after⟩, readDigits, same⟩ := Option.map_eq_some_iff.mp read
        cases same
        obtain ⟨isDigits, rfl⟩ := of_readDigits readDigits
        exact ⟨.inr ⟨mark, sign, digits, marks, signs, isDigits, rfl⟩, by simp⟩
      split at read
      · exact parts ['+'] (by decide) _ read
      · exact parts ['-'] (by decide) _ read
      · exact parts [] (by decide) _ read
    · cases read
      exact ⟨.inl rfl, rfl⟩

/-! ## Whole numbers -/

theorem IsNumber.exists_cons (number : IsNumber spelling) :
    ∃ c tail, spelling = c :: tail ∧ startsNumber c = true := by
  obtain ⟨sign, whole, fraction, exponent, signs, isWhole, -, -, rfl⟩ := number
  simp only [List.mem_cons, List.not_mem_nil, or_false] at signs
  rcases signs with rfl | rfl
  · obtain ⟨c, tail, rfl, digit⟩ := isWhole.1.exists_cons
    exact ⟨c, _, rfl, by simp [startsNumber, digit]⟩
  · exact ⟨'-', _, rfl, rfl⟩

/-- A number is read to its end if no number goes on with what follows. -/
theorem readNumber_append (number : IsNumber spelling) (ends : EndsNumber rest) :
    readNumber (spelling ++ rest) = some (spelling, rest) := by
  obtain ⟨sign, whole, fraction, exponent, signs, isWhole, isFraction, isExponent, rfl⟩ := number
  have outside : ∀ c ∈ rest.head?, Char.isDigit c = false ∧ c ≠ '.' ∧ ¬(c = 'e' ∨ c = 'E') := by
    intro c head
    simpa [continuesNumber] using ends c head
  have stopsExponent : ∀ c ∈ rest.head?, Char.isDigit c = false ∧ ¬(c = 'e' ∨ c = 'E') :=
    fun c head => ⟨(outside c head).1, (outside c head).2.2⟩
  have stopsFraction : ∀ c ∈ (exponent ++ rest).head?, Char.isDigit c = false ∧ c ≠ '.' := by
    intro c head
    rcases isExponent.head head with (rfl | rfl) | head
    · decide
    · decide
    · exact ⟨(outside c head).1, (outside c head).2.1⟩
  have stopsWhole : ∀ c ∈ (fraction ++ (exponent ++ rest)).head?, Char.isDigit c = false := by
    intro c head
    rcases isFraction.head head with rfl | head
    · decide
    · exact (stopsFraction c head).1
  have parts : readWhole (whole ++ (fraction ++ (exponent ++ rest))) =
      some (whole, fraction ++ (exponent ++ rest)) := readWhole_append isWhole stopsWhole
  simp only [List.mem_cons, List.not_mem_nil, or_false] at signs
  rcases signs with rfl | rfl
  · rw [readNumber.eq_2]
    · simp only [List.length_nil, List.drop_zero, List.nil_append, List.append_assoc, parts,
        Option.bind_eq_bind, Option.bind_some, readFraction_append isFraction stopsFraction,
        readExponent_append isExponent stopsExponent]
      rfl
    · simp only [List.nil_append, List.append_assoc]
      exact isWhole.1.append_ne (by decide) _
  · simp only [List.cons_append, List.nil_append, List.append_assoc]
    rw [readNumber.eq_1]
    simp only [List.length_cons, List.length_nil, List.drop_succ_cons, List.drop_zero, parts,
        Option.bind_eq_bind, Option.bind_some, readFraction_append isFraction stopsFraction,
        readExponent_append isExponent stopsExponent]
    simp

theorem of_readNumber (read : readNumber text = some (spelling, rest)) :
    IsNumber spelling ∧ text = spelling ++ rest := by
  have parts : ∀ sign ∈ [[], ['-']], ∀ tail,
      ((readWhole tail).bind fun whole =>
        (readFraction whole.2).bind fun fraction =>
          (readExponent fraction.2).bind fun exponent =>
            some (sign ++ whole.1 ++ fraction.1 ++ exponent.1, exponent.2)) =
        some (spelling, rest) →
      IsNumber spelling ∧ sign ++ tail = spelling ++ rest := by
    intro sign signs tail read
    obtain ⟨⟨whole, afterWhole⟩, readWhole, read⟩ := Option.bind_eq_some_iff.mp read
    obtain ⟨⟨fraction, afterFraction⟩, readFraction, read⟩ := Option.bind_eq_some_iff.mp read
    obtain ⟨⟨exponent, afterExponent⟩, readExponent, read⟩ := Option.bind_eq_some_iff.mp read
    cases read
    obtain ⟨isWhole, rfl⟩ := of_readWhole readWhole
    obtain ⟨isFraction, rfl⟩ := of_readFraction readFraction
    obtain ⟨isExponent, rfl⟩ := of_readExponent readExponent
    exact ⟨⟨sign, whole, fraction, exponent, signs, isWhole, isFraction, isExponent, by simp⟩,
      by simp⟩
  unfold readNumber at read
  dsimp only at read
  split at read
  · exact parts ['-'] (by decide) _ read
  · exact parts [] (by decide) _ read

end ScopeLowering.Json
