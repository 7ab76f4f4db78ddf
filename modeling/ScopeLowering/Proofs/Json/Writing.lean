import ScopeLowering.Proofs.Json.Grammar

/-!
# Values that can be written

Every string and every natural number has a spelling, and so have the arrays and the objects of
values that have one.
-/

namespace ScopeLowering.Json

/-- Control characters can be written by their code, quotation marks and backslashes by an
escape, and all others as they are. -/
theorem exists_writes (text : List Char) :
    ∃ pieces body, Writes pieces body ∧ Denotes pieces text := by
  induction text with
  | nil => exact ⟨[], [], .nil, .nil⟩
  | cons c text ih =>
      obtain ⟨pieces, body, writes, denotes⟩ := ih
      by_cases control : c.toNat < 0x20
      · have zero : IsHexDigit 0 '0' := by decide
        have third : IsHexDigit (c.toNat / 16) (c.toNat / 16).digitChar := ⟨by omega, .inl rfl⟩
        have fourth : IsHexDigit (c.toNat % 16) (c.toNat % 16).digitChar := ⟨by omega, .inl rfl⟩
        have code : ((0 * 16 + 0) * 16 + c.toNat / 16) * 16 + c.toNat % 16 = c.toNat := by omega
        have units : codeUnits c = [c.toNat] := if_pos (by omega)
        have written := Writes.unit zero zero third fourth writes
        have denoted := denotes.units c
        rw [code] at written
        rw [units] at denoted
        exact ⟨_, _, written, denoted⟩
      · by_cases marked : c = '"' ∨ c = '\\'
        · have listed : (c, c) ∈ shortEscapes := by
            rcases marked with rfl | rfl <;> decide
          exact ⟨_, _, .short listed writes, denotes.character c⟩
        · obtain ⟨quote, backslash⟩ := not_or.mp marked
          exact ⟨_, _, .plain (Nat.le_of_not_lt control) quote backslash writes,
            denotes.character c⟩

theorem exists_spellsLiteral (text : String) : ∃ body, SpellsLiteral (some text) body := by
  obtain ⟨pieces, body, writes, denotes⟩ := exists_writes text.toList
  refine ⟨body, pieces, writes, (decodePieces_eq_iff writes).mp ?_⟩
  rw [decodePieces_of_denotes denotes, Option.map_some, String.ofList_toList]

theorem head?_toDigits {number : Nat} (positive : 0 < number) :
    (Nat.toDigits 10 number).head? ≠ some '0' := by
  induction number using Nat.strongRecOn with
  | ind number ih =>
      by_cases small : number < 10
      · have digits : ∀ digit < 10, 0 < digit → [digit.digitChar].head? ≠ some '0' := by decide
        rw [Nat.toDigits_of_lt_base small]
        exact digits number small positive
      · have leading := ih (number / 10) (by omega) (by omega)
        obtain ⟨c, digits, shape⟩ :=
          List.exists_cons_of_ne_nil (Nat.toDigits_ne_nil (n := number / 10) (b := 10))
        rw [Nat.toDigits_of_base_le (by decide) (Nat.le_of_not_lt small)]
        rw [shape] at leading ⊢
        exact leading

/-- The decimal digits of a number spell it, as they have no leading zeros. -/
theorem isNumber_toDigits (number : Nat) : IsNumber (Nat.toDigits 10 number) := by
  have digits : IsDigits (Nat.toDigits 10 number) :=
    ⟨Nat.toDigits_ne_nil, fun _ => Nat.isDigit_of_mem_toDigits (by decide) (by decide)⟩
  have zero : (Nat.toDigits 10 number).head? = some '0' → Nat.toDigits 10 number = ['0'] := by
    intro head
    obtain rfl : number = 0 := Nat.eq_zero_of_not_pos fun positive => head?_toDigits positive head
    rfl
  exact ⟨[], _, [], [], by decide, ⟨digits, zero⟩, .inl rfl, .inl rfl, by simp⟩

/-! ## Arrays and objects -/

def Writable (value : Value) : Prop := ∃ text, Spells (.value value) text

theorem Spells.element_of_value {value : Value} {text : List Char}
    (spells : Spells (.value value) text) : Spells (.element value) text := by
  have element := Spells.element blanks_nil spells blanks_nil
  rwa [List.nil_append, List.append_nil] at element

theorem Writable.string (text : String) : Writable (.string (some text)) := by
  obtain ⟨body, spells⟩ := exists_spellsLiteral text
  exact ⟨_, .string spells⟩

theorem exists_spells_items {item : Value} {items : List Value}
    (each : ∀ value ∈ item :: items, Writable value) :
    ∃ text, Spells (.items (item :: items)) text := by
  induction items generalizing item with
  | nil =>
      obtain ⟨text, spells⟩ := each item List.mem_cons_self
      exact ⟨text, .lastItem spells.element_of_value⟩
  | cons next items ih =>
      obtain ⟨text, spells⟩ := each item List.mem_cons_self
      obtain ⟨later, spellsLater⟩ := ih fun value member => each value (.tail _ member)
      exact ⟨_, .nextItem spells.element_of_value spellsLater⟩

theorem Writable.array {items : List Value} (each : ∀ item ∈ items, Writable item) :
    Writable (.array items) := by
  cases items with
  | nil => exact ⟨_, .emptyArray blanks_nil⟩
  | cons item items =>
      obtain ⟨text, spells⟩ := exists_spells_items each
      exact ⟨_, .array spells⟩

theorem exists_spells_member {key : String} {value : Value} (writable : Writable value) :
    ∃ text, Spells (.member (some key, value)) text := by
  obtain ⟨name, named⟩ := exists_spellsLiteral key
  obtain ⟨text, spells⟩ := writable
  exact ⟨_, .member blanks_nil named blanks_nil spells.element_of_value⟩

def namedMembers (members : List (String × Value)) : List (Literal × Value) :=
  members.map fun member => (some member.1, member.2)

theorem exists_spells_members {member : String × Value} {members : List (String × Value)}
    (each : ∀ named ∈ member :: members, Writable named.2) :
    ∃ text, Spells (.members (namedMembers (member :: members))) text := by
  induction members generalizing member with
  | nil =>
      obtain ⟨text, spells⟩ := exists_spells_member (each member List.mem_cons_self)
      exact ⟨text, .lastMember spells⟩
  | cons next members ih =>
      obtain ⟨text, spells⟩ := exists_spells_member (each member List.mem_cons_self)
      obtain ⟨later, spellsLater⟩ := ih fun value present => each value (.tail _ present)
      exact ⟨_, .nextMember spells spellsLater⟩

theorem Writable.object {members : List (String × Value)}
    (each : ∀ member ∈ members, Writable member.2) :
    Writable (.object (namedMembers members)) := by
  cases members with
  | nil => exact ⟨_, .emptyObject blanks_nil⟩
  | cons member members =>
      obtain ⟨text, spells⟩ := exists_spells_members each
      exact ⟨_, .object spells⟩

end ScopeLowering.Json
