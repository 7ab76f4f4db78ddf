import ScopeLowering.Json
import ScopeLowering.Proofs.Json.Number

/-!
# One step of a reader

What the reader of values does with each start of a text, and the readers of lists with each end
of an item.
-/

namespace ScopeLowering.Json

variable {steps : Nat} {c : Char} {text rest : List Char}

/-! ## Blanks -/

def Blanks (text : List Char) : Prop := ∀ c ∈ text, isBlank c = true

theorem blanks_nil : Blanks [] := fun _ member => nomatch member

theorem skipBlanks_append {blanks : List Char} (blank : Blanks blanks) (rest : List Char) :
    skipBlanks (blanks ++ rest) = skipBlanks rest := List.dropWhile_append_of_pos blank

theorem skipBlanks_cons (visible : isBlank c = false) : skipBlanks (c :: rest) = c :: rest := by
  rw [skipBlanks, List.dropWhile_cons_of_neg (Bool.eq_false_iff.mp visible)]

theorem skipBlanks_before {blanks : List Char} (blank : Blanks blanks)
    (visible : isBlank c = false) (rest : List Char) :
    skipBlanks (blanks ++ c :: rest) = c :: rest :=
  (skipBlanks_append blank _).trans (skipBlanks_cons visible)

theorem skipBlanks_skipBlanks (text : List Char) :
    skipBlanks (skipBlanks text) = skipBlanks text := by
  induction text with
  | nil => rfl
  | cons c text ih =>
      cases blank : isBlank c with
      | true =>
          have skipped : skipBlanks (c :: text) = skipBlanks text :=
            List.dropWhile_cons_of_pos blank
          rw [skipped, ih]
      | false => rw [skipBlanks_cons blank, skipBlanks_cons blank]

/-- Blanks stand before what is left when they are skipped. -/
theorem exists_blanks (text : List Char) :
    ∃ blanks, Blanks blanks ∧ text = blanks ++ skipBlanks text :=
  ⟨text.takeWhile isBlank, List.all_eq_true.mp List.all_takeWhile,
    List.takeWhile_append_dropWhile.symm⟩

theorem readValue_skipBlanks (steps : Nat) (text : List Char) :
    readValue steps (skipBlanks text) = readValue steps text := by
  cases steps with
  | zero => rw [readValue, readValue]
  | succ steps => rw [readValue, readValue, skipBlanks_skipBlanks]

theorem readValue_append {blanks : List Char} (blank : Blanks blanks) :
    readValue steps (blanks ++ text) = readValue steps text := by
  rw [← readValue_skipBlanks, skipBlanks_append blank, readValue_skipBlanks]

theorem readItems_skipBlanks (steps : Nat) (text : List Char) :
    readItems steps (skipBlanks text) = readItems steps text := by
  cases steps with
  | zero => rw [readItems, readItems]
  | succ steps => rw [readItems, readItems, readValue_skipBlanks]

theorem readMember_skipBlanks (steps : Nat) (text : List Char) :
    readMember steps (skipBlanks text) = readMember steps text := by
  cases steps with
  | zero => rw [readMember, readMember]
  | succ steps => rw [readMember, readMember, skipBlanks_skipBlanks]

theorem readMembers_skipBlanks (steps : Nat) (text : List Char) :
    readMembers steps (skipBlanks text) = readMembers steps text := by
  cases steps with
  | zero => rw [readMembers, readMembers]
  | succ steps => rw [readMembers, readMembers, readMember_skipBlanks]

theorem endsNumber_cons (other : continuesNumber c = false) : EndsNumber (c :: rest) := by
  intro d head
  obtain rfl : c = d := Option.some.inj head
  exact other

theorem EndsNumber.blanks {blanks : List Char} (ends : EndsNumber rest) (blank : Blanks blanks) :
    EndsNumber (blanks ++ rest) := by
  cases blanks with
  | nil => exact ends
  | cons c blanks =>
      have known := blank c List.mem_cons_self
      simp only [isBlank, Bool.or_eq_true, decide_eq_true_eq] at known
      refine endsNumber_cons ?_
      rcases known with ((rfl | rfl) | rfl) | rfl <;> decide

/-! ## What a value starts with -/

def startsValue (c : Char) : Bool :=
  Char.isDigit c || ['"', '[', '{', 'n', 't', 'f', '-'].contains c

/-- What starts like no other value is read as a number. -/
theorem readValue_other (apart : ∀ d ∈ ['"', '[', '{', 'n', 't', 'f'], c ≠ d)
    (start : skipBlanks text = c :: rest) :
    readValue (steps + 1) text =
      (readNumber (c :: rest)).map fun cut => (.number cut.1, cut.2) := by
  rw [readValue, start]
  split
  case h_7 => rfl
  all_goals
    rename_i shape
    exact absurd (List.cons.inj shape).1 (apart _ (by decide))

theorem readNumber_eq_none (other : startsValue c = false) : readNumber (c :: rest) = none := by
  rw [Option.eq_none_iff_forall_ne_some]
  rintro ⟨spelling, after⟩ read
  obtain ⟨number, whole⟩ := of_readNumber read
  obtain ⟨d, tail, rfl, starts⟩ := number.exists_cons
  obtain rfl : c = d := (List.cons.inj whole).1
  simp only [startsNumber, Bool.or_eq_true, decide_eq_true_eq] at starts
  rcases starts with digit | rfl
  · simp [startsValue, digit] at other
  · exact absurd other (by decide)

theorem readValue_eq_none (other : startsValue c = false) (start : skipBlanks text = c :: rest)
    (steps : Nat) : readValue steps text = none := by
  cases steps with
  | zero => rw [readValue]
  | succ steps =>
      have apart : ∀ d ∈ ['"', '[', '{', 'n', 't', 'f'], c ≠ d := by
        rintro d member rfl
        have starts : ∀ d ∈ ['"', '[', '{', 'n', 't', 'f'], startsValue d = true :=
          List.all_eq_true.mp (by decide)
        rw [starts c member] at other
        cases other
      rw [readValue_other apart start, readNumber_eq_none other, Option.map_none]

theorem readMember_eq_none (other : c ≠ '"') (start : skipBlanks text = c :: rest) (steps : Nat) :
    readMember steps text = none := by
  cases steps with
  | zero => rw [readMember]
  | succ steps =>
      rw [readMember, start]
      split
      · rename_i shape
        exact absurd (List.cons.inj shape).1 other
      · rfl

/-! ## Values -/

def words : List (List Char × Value) :=
  [(['n', 'u', 'l', 'l'], .null), (['t', 'r', 'u', 'e'], .bool true),
    (['f', 'a', 'l', 's', 'e'], .bool false)]

theorem afterWord?_eq_some_iff {word : List Char} :
    afterWord? word text = some rest ↔ text = word ++ rest := by
  induction word generalizing text with
  | nil => simp [afterWord?]
  | cons letter word ih =>
      cases text with
      | nil => simp [afterWord?]
      | cons c text =>
          by_cases same : c = letter
          · simp [afterWord?, same, ih]
          · simp [afterWord?, same]

theorem readValue_string {literal : Literal} (read : readLiteral text = some (literal, rest)) :
    readValue (steps + 1) ('"' :: text) = some (.string literal, rest) := by
  rw [readValue, skipBlanks_cons (by decide)]
  change (readLiteral text).map _ = _
  rw [read, Option.map_some]

theorem readValue_word {value : Value} (listed : (text, value) ∈ words) :
    readValue (steps + 1) (text ++ rest) = some (value, rest) := by
  simp only [words, List.mem_cons, List.not_mem_nil, or_false, Prod.mk.injEq] at listed
  rcases listed with ⟨rfl, rfl⟩ | ⟨rfl, rfl⟩ | ⟨rfl, rfl⟩
  all_goals
    rw [readValue, List.cons_append, skipBlanks_cons (by decide)]
    simp only [afterWord?_eq_some_iff.mpr rfl, Option.map_some]

theorem readValue_number {spelling : List Char} (number : IsNumber spelling)
    (ends : EndsNumber rest) :
    readValue (steps + 1) (spelling ++ rest) = some (.number spelling, rest) := by
  have read := readNumber_append number ends
  obtain ⟨c, tail, rfl, starts⟩ := number.exists_cons
  have others : ∀ d ∈ [' ', '\t', '\n', '\r', '"', '[', '{', 'n', 't', 'f'],
      (!startsNumber d) = true := List.all_eq_true.mp (by decide)
  have apart : ∀ d ∈ [' ', '\t', '\n', '\r', '"', '[', '{', 'n', 't', 'f'], c ≠ d := by
    rintro d member rfl
    have other := others c member
    rw [starts] at other
    cases other
  have visible : isBlank c = false := by
    simp [isBlank, apart ' ', apart '\t', apart '\n', apart '\r']
  rw [List.cons_append, readValue_other (fun d member => apart d (by simp_all))
    (skipBlanks_cons visible), ← List.cons_append, read, Option.map_some]

theorem readValue_emptyArray {blanks : List Char} (blank : Blanks blanks) :
    readValue (steps + 1) ('[' :: (blanks ++ ']' :: rest)) = some (.array [], rest) := by
  rw [readValue, skipBlanks_cons (by decide)]
  simp only [skipBlanks_before blank (c := ']') (by decide)]

/-- Items that are read are never taken for an empty array. -/
theorem readValue_array {items : List Value} (read : readItems steps text = some (items, rest)) :
    readValue (steps + 1) ('[' :: text) = some (.array items, rest) := by
  rw [readValue, skipBlanks_cons (by decide)]
  simp only
  split
  -- Behind a closing bracket no item could have been read.
  · rename_i tail start
    cases steps with
    | zero =>
        rw [readItems] at read
        cases read
    | succ steps =>
        rw [readItems, readValue_eq_none (by decide) start] at read
        cases read
  · rw [readItems_skipBlanks, read, Option.map_some]

theorem readValue_emptyObject {blanks : List Char} (blank : Blanks blanks) :
    readValue (steps + 1) ('{' :: (blanks ++ '}' :: rest)) = some (.object [], rest) := by
  rw [readValue, skipBlanks_cons (by decide)]
  simp only [skipBlanks_before blank (c := '}') (by decide)]

theorem readValue_object {members : List (Literal × Value)}
    (read : readMembers steps text = some (members, rest)) :
    readValue (steps + 1) ('{' :: text) = some (.object members, rest) := by
  rw [readValue, skipBlanks_cons (by decide)]
  simp only
  split
  · rename_i tail start
    cases steps with
    | zero =>
        rw [readMembers] at read
        cases read
    | succ steps =>
        rw [readMembers, readMember_eq_none (by decide) start] at read
        cases read
  · rw [readMembers_skipBlanks, read, Option.map_some]

/-! ## Items and members -/

theorem readItems_last {item : Value} {after : List Char}
    (read : readValue steps text = some (item, after ++ ']' :: rest)) (blank : Blanks after) :
    readItems (steps + 1) text = some ([item], rest) := by
  have start := skipBlanks_before blank (c := ']') (by decide) rest
  rw [readItems, read, Option.bind_some]
  simp only [start]

theorem readItems_next {item : Value} {items : List Value} {after later : List Char}
    (read : readValue steps text = some (item, after ++ ',' :: later)) (blank : Blanks after)
    (readLater : readItems steps later = some (items, rest)) :
    readItems (steps + 1) text = some (item :: items, rest) := by
  have start := skipBlanks_before blank (c := ',') (by decide) later
  rw [readItems, read, Option.bind_some]
  simp only [start, readLater, Option.map_some]

theorem readMember_append {key : Literal} {value : Value} {before name between : List Char}
    (leading : Blanks before) (blank : Blanks between)
    (readKey : readLiteral name = some (key, between ++ ':' :: text))
    (read : readValue steps text = some (value, rest)) :
    readMember (steps + 1) (before ++ '"' :: name) = some ((key, value), rest) := by
  have start := skipBlanks_before leading (c := '"') (by decide) name
  have colon := skipBlanks_before blank (c := ':') (by decide) text
  rw [readMember]
  simp only [start, readKey, Option.bind_some, colon, read, Option.map_some]

theorem readMembers_last {member : Literal × Value} {after : List Char}
    (read : readMember steps text = some (member, after ++ '}' :: rest)) (blank : Blanks after) :
    readMembers (steps + 1) text = some ([member], rest) := by
  have start := skipBlanks_before blank (c := '}') (by decide) rest
  rw [readMembers, read, Option.bind_some]
  simp only [start]

theorem readMembers_next {member : Literal × Value} {members : List (Literal × Value)}
    {after later : List Char}
    (read : readMember steps text = some (member, after ++ ',' :: later)) (blank : Blanks after)
    (readLater : readMembers steps later = some (members, rest)) :
    readMembers (steps + 1) text = some (member :: members, rest) := by
  have start := skipBlanks_before blank (c := ',') (by decide) later
  rw [readMembers, read, Option.bind_some]
  simp only [start, readLater, Option.map_some]

end ScopeLowering.Json
