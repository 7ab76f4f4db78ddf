import ScopeLowering.Json

/-!
# String literals

The characters of a string can be written as they are, by escapes of two characters, and by the
code units of UTF-16. The reader takes all these spellings, and no other ones.
-/

namespace ScopeLowering.Json

/-! ## Pieces and the texts that write them -/

def shortEscapes : List (Char × Char) :=
  [('"', '"'), ('\\', '\\'), ('/', '/'), ('b', '\x08'), ('f', '\x0C'), ('n', '\n'), ('r', '\r'),
    ('t', '\t')]

def IsHexDigit (value : Nat) (digit : Char) : Prop :=
  value < 16 ∧ (digit = value.digitChar ∨ digit = value.digitChar.toUpper)

instance (value : Nat) (digit : Char) : Decidable (IsHexDigit value digit) :=
  inferInstanceAs (Decidable (_ ∧ _))

inductive Writes : List Piece → List Char → Prop
  | nil : Writes [] []
  | plain {pieces : List Piece} {text : List Char} {c : Char} (visible : 0x20 ≤ c.toNat)
      (quote : c ≠ '"') (backslash : c ≠ '\\') (writes : Writes pieces text) :
      Writes (.character c :: pieces) (c :: text)
  | short {pieces : List Piece} {text : List Char} {letter c : Char}
      (listed : (letter, c) ∈ shortEscapes) (writes : Writes pieces text) :
      Writes (.character c :: pieces) ('\\' :: letter :: text)
  | unit {pieces : List Piece} {text : List Char} {i j k l : Nat} {a b c d : Char}
      (first : IsHexDigit i a) (second : IsHexDigit j b) (third : IsHexDigit k c)
      (fourth : IsHexDigit l d) (writes : Writes pieces text) :
      Writes (.unit (((i * 16 + j) * 16 + k) * 16 + l) :: pieces)
        ('\\' :: 'u' :: a :: b :: c :: d :: text)

theorem hexDigit?_eq_none_of_wide {c : Char} (wide : 'f' < c) : hexDigit? c = none := by
  have above : ∀ bound ≤ 'f', ¬c ≤ bound := fun bound low high =>
    Char.not_lt.mpr (Char.le_trans high low) wide
  simp [hexDigit?, above '9' (by decide), above 'f' (by decide), above 'F' (by decide)]

theorem hexDigit?_eq_some_iff {digit : Char} {value : Nat} :
    hexDigit? digit = some value ↔ IsHexDigit value digit := by
  constructor
  · intro read
    have narrow : digit.toNat ≤ 'f'.toNat := by
      refine Nat.le_of_not_lt fun wide => ?_
      rw [hexDigit?_eq_none_of_wide wide] at read
      cases read
    have known : ∀ code ≤ 'f'.toNat, ∀ value ∈ hexDigit? (Char.ofNat code),
        IsHexDigit value (Char.ofNat code) := by decide
    have spelled := known digit.toNat narrow
    rw [Char.ofNat_toNat] at spelled
    exact spelled value read
  · rintro ⟨small, rfl | rfl⟩
    · have known : ∀ value < 16, hexDigit? value.digitChar = some value := by decide
      exact known value small
    · have known : ∀ value < 16, hexDigit? value.digitChar.toUpper = some value := by decide
      exact known value small

theorem codeUnit?_eq_some_iff {a b c d : Char} {code : Nat} :
    codeUnit? a b c d = some code ↔
      ∃ i j k l, IsHexDigit i a ∧ IsHexDigit j b ∧ IsHexDigit k c ∧ IsHexDigit l d ∧
        ((i * 16 + j) * 16 + k) * 16 + l = code := by
  simp only [codeUnit?, Option.bind_eq_bind, Option.bind_eq_some_iff, hexDigit?_eq_some_iff,
    Option.pure_def, Option.some.injEq, exists_and_left]

theorem escape?_eq_some_iff {letter c : Char} :
    escape? letter = some c ↔ (letter, c) ∈ shortEscapes := by
  constructor
  · intro read
    unfold escape? at read
    split at read <;> cases read <;> decide
  · have known : ∀ pair ∈ shortEscapes, escape? pair.1 = some pair.2 := by decide
    exact known (letter, c)

/-- A literal is read up to its closing quotation mark, which is the first one that no escape
writes. -/
theorem readPieces_append {pieces : List Piece} {text : List Char} (writes : Writes pieces text)
    (rest : List Char) : readPieces (text ++ '"' :: rest) = some (pieces, rest) := by
  induction writes with
  | nil => exact readPieces.eq_1 rest
  | plain visible quote backslash writes ih =>
      rw [List.cons_append, readPieces.eq_4 _ _ quote (fun _ _ _ _ _ same => absurd same backslash)
        fun _ _ same => absurd same backslash, ih]
      simp [Nat.not_lt.mpr visible, backslash]
  | @short pieces text letter c listed writes ih =>
      have letters : ∀ pair ∈ shortEscapes, pair.1 ≠ 'u' := by decide
      have known := escape?_eq_some_iff.mpr listed
      rw [List.cons_append, List.cons_append,
        readPieces.eq_3 _ _ fun _ _ _ _ _ same => absurd same (letters _ listed), known, ih]
      rfl
  | unit first second third fourth writes ih =>
      have known := codeUnit?_eq_some_iff.mpr ⟨_, _, _, _, first, second, third, fourth, rfl⟩
      simp only [List.cons_append, readPieces.eq_2, known, ih]
      rfl

theorem exists_of_readPieces {text rest : List Char} {pieces : List Piece}
    (read : readPieces text = some (pieces, rest)) :
    ∃ body, Writes pieces body ∧ text = body ++ '"' :: rest := by
  induction text using readPieces.induct generalizing pieces with
  | case1 text =>
      rw [readPieces.eq_1] at read
      cases read
      exact ⟨[], .nil, rfl⟩
  | case2 a b c d text ih =>
      rw [readPieces.eq_2, Option.bind_eq_some_iff] at read
      obtain ⟨code, digits, read⟩ := read
      obtain ⟨i, j, k, l, first, second, third, fourth, rfl⟩ := codeUnit?_eq_some_iff.mp digits
      obtain ⟨⟨later, rest⟩, readLater, same⟩ := Option.map_eq_some_iff.mp read
      cases same
      obtain ⟨body, writes, rfl⟩ := ih readLater
      exact ⟨_, .unit first second third fourth writes, rfl⟩
  | case3 letter text short ih =>
      rw [readPieces.eq_3 letter text short, Option.bind_eq_some_iff] at read
      obtain ⟨c, known, read⟩ := read
      obtain ⟨⟨later, rest⟩, readLater, same⟩ := Option.map_eq_some_iff.mp read
      cases same
      obtain ⟨body, writes, rfl⟩ := ih readLater
      exact ⟨_, .short (escape?_eq_some_iff.mp known) writes, rfl⟩
  | case4 c text quote long short refused =>
      rw [readPieces.eq_4 c text quote long short, if_pos refused] at read
      cases read
  | case5 c text quote long short accepted ih =>
      rw [readPieces.eq_4 c text quote long short, if_neg accepted] at read
      obtain ⟨⟨later, rest⟩, readLater, same⟩ := Option.map_eq_some_iff.mp read
      cases same
      obtain ⟨body, writes, rfl⟩ := ih readLater
      simp only [Bool.or_eq_true, decide_eq_true_eq, not_or, Nat.not_lt] at accepted
      exact ⟨c :: body, .plain accepted.1 quote accepted.2 writes, rfl⟩
  | case6 =>
      rw [readPieces.eq_5] at read
      cases read

/-! ## What pieces denote -/

def codeUnits (c : Char) : List Nat :=
  if c.toNat < 0x10000 then [c.toNat]
  else [0xD800 + (c.toNat - 0x10000) / 0x400, 0xDC00 + (c.toNat - 0x10000) % 0x400]

inductive Denotes : List Piece → List Char → Prop
  | nil : Denotes [] []
  | character {pieces : List Piece} {text : List Char} (c : Char)
      (denotes : Denotes pieces text) : Denotes (.character c :: pieces) (c :: text)
  | units {pieces : List Piece} {text : List Char} (c : Char) (denotes : Denotes pieces text) :
      Denotes ((codeUnits c).map .unit ++ pieces) (c :: text)

theorem isLeading_iff {code : Nat} : isLeading code = true ↔ 0xD800 ≤ code ∧ code < 0xDC00 := by
  simp [isLeading]

theorem isTrailing_iff {code : Nat} : isTrailing code = true ↔ 0xDC00 ≤ code ∧ code < 0xE000 := by
  simp [isTrailing]

theorem ordinary_iff {code : Nat} :
    (isLeading code || isTrailing code) = false ↔ code < 0xD800 ∨ 0xE000 ≤ code := by
  rw [Bool.eq_false_iff, Ne, Bool.or_eq_true, isLeading_iff, isTrailing_iff]
  omega

def pairCode (high low : Nat) : Nat := 0x10000 + (high - 0xD800) * 0x400 + (low - 0xDC00)

theorem decodePieces_unit {code : Nat} (ordinary : (isLeading code || isTrailing code) = false)
    (pieces : List Piece) :
    decodePieces (.unit code :: pieces) = (decodePieces pieces).map (Char.ofNat code :: ·) := by
  have leading := (Bool.or_eq_false_iff.mp ordinary).1
  rcases pieces with _ | ⟨c | low, pieces⟩
  · simp [decodePieces, ordinary]
  · simp [decodePieces, ordinary]
  · rw [decodePieces.eq_3, ordinary, leading]
    rfl

theorem decodePieces_pair {high low : Nat} (leading : isLeading high = true)
    (trailing : isTrailing low = true) (pieces : List Piece) :
    decodePieces (.unit high :: .unit low :: pieces) =
      (decodePieces pieces).map (Char.ofNat (pairCode high low) :: ·) := by
  rw [decodePieces.eq_3, leading, trailing]
  rfl

/-- The code units of a character are read as this character. -/
theorem decodePieces_codeUnits (c : Char) (pieces : List Piece) :
    decodePieces ((codeUnits c).map .unit ++ pieces) = (decodePieces pieces).map (c :: ·) := by
  have valid : c.toNat < 0xD800 ∨ 0xDFFF < c.toNat ∧ c.toNat < 0x110000 := c.valid
  unfold codeUnits
  split
  · simp only [List.map_cons, List.map_nil, List.cons_append, List.nil_append]
    rw [decodePieces_unit (ordinary_iff.mpr (by omega)), Char.ofNat_toNat]
  · have leading : isLeading (0xD800 + (c.toNat - 0x10000) / 0x400) = true :=
      isLeading_iff.mpr (by omega)
    have trailing : isTrailing (0xDC00 + (c.toNat - 0x10000) % 0x400) = true :=
      isTrailing_iff.mpr (by omega)
    have joined : pairCode (0xD800 + (c.toNat - 0x10000) / 0x400)
        (0xDC00 + (c.toNat - 0x10000) % 0x400) = c.toNat := by
      unfold pairCode
      omega
    simp only [List.map_cons, List.map_nil, List.cons_append, List.nil_append]
    rw [decodePieces_pair leading trailing, joined, Char.ofNat_toNat]

theorem toNat_ofNat {code : Nat} (valid : code.isValidChar) : (Char.ofNat code).toNat = code := by
  rw [Char.ofNat, dif_pos valid]
  rfl

theorem codeUnits_unit {code : Nat} (ordinary : (isLeading code || isTrailing code) = false)
    (small : code < 0x10000) : codeUnits (Char.ofNat code) = [code] := by
  have apart := ordinary_iff.mp ordinary
  have valid : code.isValidChar := by
    unfold Nat.isValidChar
    omega
  rw [codeUnits, toNat_ofNat valid, if_pos small]

theorem codeUnits_pair {high low : Nat} (leading : isLeading high = true)
    (trailing : isTrailing low = true) :
    codeUnits (Char.ofNat (pairCode high low)) = [high, low] := by
  rw [isLeading_iff] at leading
  rw [isTrailing_iff] at trailing
  have wide : 0x10000 ≤ pairCode high low ∧ pairCode high low < 0x110000 := by
    unfold pairCode
    omega
  have valid : (pairCode high low).isValidChar := by
    unfold Nat.isValidChar
    omega
  have first : 0xD800 + (pairCode high low - 0x10000) / 0x400 = high := by
    unfold pairCode
    omega
  have second : 0xDC00 + (pairCode high low - 0x10000) % 0x400 = low := by
    unfold pairCode
    omega
  rw [codeUnits, toNat_ofNat valid, if_neg (Nat.not_lt.mpr wide.1), first, second]

theorem Denotes.unit {pieces : List Piece} {text : List Char} {code : Nat}
    (ordinary : (isLeading code || isTrailing code) = false) (small : code < 0x10000)
    (denotes : Denotes pieces text) :
    Denotes (.unit code :: pieces) (Char.ofNat code :: text) := by
  have extended := denotes.units (Char.ofNat code)
  rwa [codeUnits_unit ordinary small] at extended

/-- What is read is denoted: a unit is part of a pair, or no surrogate. -/
theorem denotes_of_decodePieces {pieces : List Piece} {text : List Char}
    (narrow : ∀ code, .unit code ∈ pieces → code < 0x10000)
    (decoded : decodePieces pieces = some text) : Denotes pieces text := by
  induction pieces using decodePieces.induct generalizing text with
  | case1 =>
      cases decoded
      exact .nil
  | case2 c pieces ih =>
      rw [decodePieces, Option.map_eq_some_iff] at decoded
      obtain ⟨later, decoded, rfl⟩ := decoded
      exact .character c (ih (fun code member => narrow code (.tail _ member)) decoded)
  | case3 high low pieces paired ih =>
      obtain ⟨leading, trailing⟩ := Bool.and_eq_true_iff.mp paired
      rw [decodePieces_pair leading trailing, Option.map_eq_some_iff] at decoded
      obtain ⟨later, decoded, rfl⟩ := decoded
      have denotes := ih (fun code member => narrow code (.tail _ (.tail _ member))) decoded
      have extended := denotes.units (Char.ofNat (pairCode high low))
      rwa [codeUnits_pair leading trailing] at extended
  | case4 high low pieces unpaired lone =>
      rw [decodePieces.eq_3, if_neg unpaired, if_pos lone] at decoded
      cases decoded
  | case5 high low pieces unpaired ordinary ih =>
      rw [decodePieces_unit (Bool.eq_false_iff.mpr ordinary), Option.map_eq_some_iff] at decoded
      obtain ⟨later, decoded, rfl⟩ := decoded
      exact .unit (Bool.eq_false_iff.mpr ordinary) (narrow high List.mem_cons_self)
        (ih (fun code member => narrow code (.tail _ member)) decoded)
  | case6 code pieces single lone =>
      rw [decodePieces.eq_4 code pieces single, if_pos lone] at decoded
      cases decoded
  | case7 code pieces single ordinary ih =>
      rw [decodePieces_unit (Bool.eq_false_iff.mpr ordinary), Option.map_eq_some_iff] at decoded
      obtain ⟨later, decoded, rfl⟩ := decoded
      exact .unit (Bool.eq_false_iff.mpr ordinary) (narrow code List.mem_cons_self)
        (ih (fun code member => narrow code (.tail _ member)) decoded)

theorem decodePieces_of_denotes {pieces : List Piece} {text : List Char}
    (denotes : Denotes pieces text) : decodePieces pieces = some text := by
  induction denotes with
  | nil => rfl
  | character c denotes ih => rw [decodePieces, ih, Option.map_some]
  | units c denotes ih => rw [decodePieces_codeUnits, ih, Option.map_some]

/-- The code units that are written have sixteen bits. -/
theorem Writes.narrow {pieces : List Piece} {text : List Char} (writes : Writes pieces text)
    {code : Nat} (member : .unit code ∈ pieces) : code < 0x10000 := by
  induction writes with
  | nil => cases member
  | plain _ _ _ _ ih | short _ _ ih =>
      rcases List.mem_cons.mp member with same | later
      · cases same
      · exact ih later
  | unit first second third fourth _ ih =>
      rcases List.mem_cons.mp member with same | later
      · cases same
        have bounds := And.intro (And.intro first.1 second.1) (And.intro third.1 fourth.1)
        omega
      · exact ih later

/-! ## Literals -/

/-- A literal and a text between quotation marks that spells it: the pieces of the text denote
the characters of the literal, or no characters if there is a lone surrogate. -/
def SpellsLiteral (literal : Literal) (text : List Char) : Prop :=
  ∃ pieces, Writes pieces text ∧ ∀ denoted, literal = some denoted ↔ Denotes pieces denoted.toList

theorem decodePieces_eq_iff {pieces : List Piece} {text : List Char} (writes : Writes pieces text)
    {literal : Literal} :
    (decodePieces pieces).map String.ofList = literal ↔
      ∀ denoted, literal = some denoted ↔ Denotes pieces denoted.toList := by
  have decoded : ∀ denoted, (decodePieces pieces).map String.ofList = some denoted ↔
      Denotes pieces denoted.toList := by
    intro denoted
    rw [Option.map_eq_some_iff]
    constructor
    · rintro ⟨characters, decoded, rfl⟩
      rw [String.toList_ofList]
      exact denotes_of_decodePieces (fun _ => writes.narrow) decoded
    · intro denotes
      exact ⟨_, decodePieces_of_denotes denotes, String.ofList_toList⟩
  constructor
  · rintro rfl
    exact decoded
  · intro spelled
    exact Option.ext fun denoted => (decoded denoted).trans (spelled denoted).symm

/-- The reader takes the literals up to the quotation mark that closes them. -/
theorem readLiteral_eq_some_iff {text rest : List Char} {literal : Literal} :
    readLiteral text = some (literal, rest) ↔
      ∃ body, SpellsLiteral literal body ∧ text = body ++ '"' :: rest := by
  constructor
  · intro read
    obtain ⟨⟨pieces, rest⟩, written, same⟩ := Option.map_eq_some_iff.mp read
    cases same
    obtain ⟨body, writes, rfl⟩ := exists_of_readPieces written
    exact ⟨body, ⟨pieces, writes, (decodePieces_eq_iff writes).mp rfl⟩, rfl⟩
  · rintro ⟨body, ⟨pieces, writes, denotes⟩, rfl⟩
    rw [readLiteral, readPieces_append writes, Option.map_some,
      (decodePieces_eq_iff writes).mpr denotes]

end ScopeLowering.Json
