import ScopeLowering.Proofs.Json.Literal
import ScopeLowering.Proofs.Json.Reading

/-!
# The grammar of JSON

The texts that spell a value, by the rules of the grammar, and what the readers take of a text.
The reader of whole texts takes the texts of the grammar, and gives the value that they spell.
-/

namespace ScopeLowering.Json

inductive Phrase where
  | value (value : Value)
  | element (value : Value)
  | items (items : List Value)
  | member (member : Literal × Value)
  | members (members : List (Literal × Value))

inductive Spells : Phrase → List Char → Prop
  | word {text : List Char} {value : Value} (listed : (text, value) ∈ words) :
      Spells (.value value) text
  | number {spelling : List Char} (number : IsNumber spelling) :
      Spells (.value (.number spelling)) spelling
  | string {literal : Literal} {text : List Char} (spells : SpellsLiteral literal text) :
      Spells (.value (.string literal)) ('"' :: (text ++ ['"']))
  | emptyArray {blanks : List Char} (blank : Blanks blanks) :
      Spells (.value (.array [])) ('[' :: (blanks ++ [']']))
  | array {items : List Value} {text : List Char} (spells : Spells (.items items) text) :
      Spells (.value (.array items)) ('[' :: (text ++ [']']))
  | emptyObject {blanks : List Char} (blank : Blanks blanks) :
      Spells (.value (.object [])) ('{' :: (blanks ++ ['}']))
  | object {members : List (Literal × Value)} {text : List Char}
      (spells : Spells (.members members) text) :
      Spells (.value (.object members)) ('{' :: (text ++ ['}']))
  | element {value : Value} {before text after : List Char} (leading : Blanks before)
      (spells : Spells (.value value) text) (trailing : Blanks after) :
      Spells (.element value) (before ++ (text ++ after))
  | lastItem {item : Value} {text : List Char} (spells : Spells (.element item) text) :
      Spells (.items [item]) text
  | nextItem {item : Value} {items : List Value} {text later : List Char}
      (first : Spells (.element item) text) (spells : Spells (.items items) later) :
      Spells (.items (item :: items)) (text ++ ',' :: later)
  | member {key : Literal} {value : Value} {before name between text : List Char}
      (leading : Blanks before) (named : SpellsLiteral key name) (blank : Blanks between)
      (spells : Spells (.element value) text) :
      Spells (.member (key, value))
        (before ++ '"' :: (name ++ '"' :: (between ++ ':' :: text)))
  | lastMember {member : Literal × Value} {text : List Char}
      (spells : Spells (.member member) text) : Spells (.members [member]) text
  | nextMember {member : Literal × Value} {members : List (Literal × Value)}
      {text later : List Char} (first : Spells (.member member) text)
      (spells : Spells (.members members) later) :
      Spells (.members (member :: members)) (text ++ ',' :: later)

variable {steps : Nat} {c : Char} {text rest : List Char}

/-! ## Every text of the grammar is read -/

/-- That a text which starts with a given one is read as a phrase up to the end of it, but for
the blanks there. The steps are twice the characters; those of a list count its closing mark. -/
def IsRead (text : List Char) : Phrase → Prop
  | .value value => ∀ steps rest, 2 * text.length ≤ steps → EndsNumber rest →
      readValue steps (text ++ rest) = some (value, rest)
  | .element value => ∀ steps rest, 2 * text.length ≤ steps → EndsNumber rest →
      ∃ after, Blanks after ∧ readValue steps (text ++ rest) = some (value, after ++ rest)
  | .items items => ∀ steps rest, 2 * (text.length + 1) ≤ steps →
      readItems steps (text ++ ']' :: rest) = some (items, rest)
  | .member member => ∀ steps rest, 2 * text.length ≤ steps → EndsNumber rest →
      ∃ after, Blanks after ∧ readMember steps (text ++ rest) = some (member, after ++ rest)
  | .members members => ∀ steps rest, 2 * (text.length + 1) ≤ steps →
      readMembers steps (text ++ '}' :: rest) = some (members, rest)

/-- By induction on the spelling: every rule of the grammar is one step of a reader. -/
theorem Spells.isRead {phrase : Phrase} (spells : Spells phrase text) : IsRead text phrase := by
  induction spells with
  | word listed =>
      have nonempty : ∀ pair ∈ words, pair.1 ≠ [] := by simp [words]
      intro steps rest enough ends
      obtain ⟨c, tail, rfl⟩ := List.exists_cons_of_ne_nil (nonempty _ listed)
      cases steps with
      | zero => cases enough
      | succ steps => exact readValue_word listed
  | number number =>
      intro steps rest enough ends
      obtain ⟨c, tail, rfl, -⟩ := number.exists_cons
      cases steps with
      | zero => cases enough
      | succ steps => exact readValue_number number ends
  | string spelled =>
      intro steps rest enough ends
      cases steps with
      | zero => cases enough
      | succ steps =>
          rw [List.cons_append, List.append_assoc]
          exact readValue_string (readLiteral_eq_some_iff.mpr ⟨_, spelled, rfl⟩)
  | emptyArray blank =>
      intro steps rest enough ends
      cases steps with
      | zero => cases enough
      | succ steps =>
          rw [List.cons_append, List.append_assoc]
          exact readValue_emptyArray blank
  | @array items text spells ih =>
      intro steps rest enough ends
      simp only [List.length_cons, List.length_append, List.length_nil] at enough
      obtain ⟨steps, rfl⟩ := Nat.exists_eq_succ_of_ne_zero (n := steps) (by omega)
      rw [List.cons_append, List.append_assoc]
      exact readValue_array (ih steps rest (by omega))
  | emptyObject blank =>
      intro steps rest enough ends
      cases steps with
      | zero => cases enough
      | succ steps =>
          rw [List.cons_append, List.append_assoc]
          exact readValue_emptyObject blank
  | object spells ih =>
      intro steps rest enough ends
      simp only [List.length_cons, List.length_append, List.length_nil] at enough
      obtain ⟨steps, rfl⟩ := Nat.exists_eq_succ_of_ne_zero (n := steps) (by omega)
      rw [List.cons_append, List.append_assoc]
      exact readValue_object (ih steps rest (by omega))
  | @element value before text after leading spells trailing ih =>
      intro steps rest enough ends
      simp only [List.length_append] at enough
      refine ⟨after, trailing, ?_⟩
      rw [List.append_assoc, List.append_assoc, readValue_append leading]
      exact ih steps (after ++ rest) (by omega) (ends.blanks trailing)
  | lastItem spells ih =>
      intro steps rest enough
      obtain ⟨steps, rfl⟩ := Nat.exists_eq_succ_of_ne_zero (n := steps) (by omega)
      obtain ⟨after, blank, read⟩ := ih steps (']' :: rest) (by omega) (endsNumber_cons (by decide))
      exact readItems_last read blank
  | nextItem first spells ihFirst ih =>
      intro steps rest enough
      simp only [List.length_cons, List.length_append] at enough
      obtain ⟨steps, rfl⟩ := Nat.exists_eq_succ_of_ne_zero (n := steps) (by omega)
      rw [List.append_assoc, List.cons_append]
      obtain ⟨after, blank, read⟩ := ihFirst steps (',' :: _) (by omega)
        (endsNumber_cons (by decide))
      exact readItems_next read blank (ih steps rest (by omega))
  | member leading named blank spells ih =>
      intro steps rest enough ends
      simp only [List.length_cons, List.length_append] at enough
      obtain ⟨steps, rfl⟩ := Nat.exists_eq_succ_of_ne_zero (n := steps) (by omega)
      obtain ⟨after, trailing, read⟩ := ih steps rest (by omega) ends
      refine ⟨after, trailing, ?_⟩
      simp only [List.append_assoc, List.cons_append]
      exact readMember_append leading blank (readLiteral_eq_some_iff.mpr ⟨_, named, rfl⟩) read
  | lastMember spells ih =>
      intro steps rest enough
      obtain ⟨steps, rfl⟩ := Nat.exists_eq_succ_of_ne_zero (n := steps) (by omega)
      obtain ⟨after, blank, read⟩ := ih steps ('}' :: rest) (by omega) (endsNumber_cons (by decide))
      exact readMembers_last read blank
  | nextMember first spells ihFirst ih =>
      intro steps rest enough
      simp only [List.length_cons, List.length_append] at enough
      obtain ⟨steps, rfl⟩ := Nat.exists_eq_succ_of_ne_zero (n := steps) (by omega)
      rw [List.append_assoc, List.cons_append]
      obtain ⟨after, blank, read⟩ := ihFirst steps (',' :: _) (by omega)
        (endsNumber_cons (by decide))
      exact readMembers_next read blank (ih steps rest (by omega))

/-! ## Only texts of the grammar are read -/

structure Faithful (steps : Nat) : Prop where
  value {text rest : List Char} {value : Value} :
    readValue steps text = some (value, rest) →
      ∃ before body, Blanks before ∧ Spells (.value value) body ∧ text = before ++ (body ++ rest)
  items {text rest : List Char} {items : List Value} :
    readItems steps text = some (items, rest) →
      ∃ body, Spells (.items items) body ∧ text = body ++ ']' :: rest
  /-- The blanks behind a member belong to it. -/
  member {text rest : List Char} {member : Literal × Value} :
    readMember steps text = some (member, rest) →
      ∃ body, (∀ after, Blanks after → Spells (.member member) (body ++ after)) ∧
        text = body ++ rest
  members {text rest : List Char} {members : List (Literal × Value)} :
    readMembers steps text = some (members, rest) →
      ∃ body, Spells (.members members) body ∧ text = body ++ '}' :: rest

theorem exists_of_skipBlanks {tail : List Char} (start : skipBlanks text = tail) :
    ∃ blanks, Blanks blanks ∧ text = blanks ++ tail := by
  obtain ⟨blanks, blank, whole⟩ := exists_blanks text
  exact ⟨blanks, blank, whole.trans (congrArg (blanks ++ ·) start)⟩

theorem exists_of_afterWord? {word tail : List Char} {value taken : Value}
    (listed : (c :: word, value) ∈ words)
    (read : (afterWord? word tail).map (fun text => (value, text)) = some (taken, rest)) :
    ∃ body, Spells (.value taken) body ∧ c :: tail = body ++ rest := by
  obtain ⟨after, found, same⟩ := Option.map_eq_some_iff.mp read
  cases same
  obtain rfl := afterWord?_eq_some_iff.mp found
  exact ⟨c :: word, .word listed, rfl⟩

theorem Faithful.readValue_succ (faithful : Faithful steps) {value : Value}
    (read : readValue (steps + 1) text = some (value, rest)) :
    ∃ before body,
      Blanks before ∧ Spells (.value value) body ∧ text = before ++ (body ++ rest) := by
  -- What is read starts where the blanks end.
  suffices found : ∃ body, Spells (.value value) body ∧ skipBlanks text = body ++ rest by
    obtain ⟨body, spells, start⟩ := found
    obtain ⟨before, blank, whole⟩ := exists_of_skipBlanks start
    exact ⟨before, body, blank, spells, whole⟩
  rw [readValue] at read
  split at read
  case h_1 start =>
    obtain ⟨⟨literal, after⟩, readLiteral, same⟩ := Option.map_eq_some_iff.mp read
    cases same
    obtain ⟨body, spelled, rfl⟩ := readLiteral_eq_some_iff.mp readLiteral
    exact ⟨_, .string spelled, by simp [start]⟩
  case h_2 start =>
    split at read
    · rename_i closing
      cases read
      obtain ⟨blanks, blank, rfl⟩ := exists_of_skipBlanks closing
      exact ⟨_, .emptyArray blank, by simp [start]⟩
    · obtain ⟨⟨items, after⟩, readItems, same⟩ := Option.map_eq_some_iff.mp read
      cases same
      rw [readItems_skipBlanks] at readItems
      obtain ⟨body, spelled, rfl⟩ := faithful.items readItems
      exact ⟨_, .array spelled, by simp [start]⟩
  case h_3 start =>
    split at read
    · rename_i closing
      cases read
      obtain ⟨blanks, blank, rfl⟩ := exists_of_skipBlanks closing
      exact ⟨_, .emptyObject blank, by simp [start]⟩
    · obtain ⟨⟨members, after⟩, readMembers, same⟩ := Option.map_eq_some_iff.mp read
      cases same
      rw [readMembers_skipBlanks] at readMembers
      obtain ⟨body, spelled, rfl⟩ := faithful.members readMembers
      exact ⟨_, .object spelled, by simp [start]⟩
  case h_4 start =>
    rw [start]
    exact exists_of_afterWord? (by simp [words]) read
  case h_5 start =>
    rw [start]
    exact exists_of_afterWord? (by simp [words]) read
  case h_6 start =>
    rw [start]
    exact exists_of_afterWord? (by simp [words]) read
  case h_7 =>
    obtain ⟨⟨spelling, after⟩, readNumber, same⟩ := Option.map_eq_some_iff.mp read
    cases same
    obtain ⟨number, start⟩ := of_readNumber readNumber
    exact ⟨spelling, .number number, start⟩

theorem Faithful.readItems_succ (faithful : Faithful steps) {items : List Value}
    (read : readItems (steps + 1) text = some (items, rest)) :
    ∃ body, Spells (.items items) body ∧ text = body ++ ']' :: rest := by
  rw [readItems] at read
  obtain ⟨⟨item, after⟩, readItem, readRest⟩ := Option.bind_eq_some_iff.mp read
  obtain ⟨before, body, leading, spelled, rfl⟩ := faithful.value readItem
  simp only at readRest
  split at readRest
  · rename_i start
    cases readRest
    obtain ⟨blanks, blank, rfl⟩ := exists_of_skipBlanks start
    exact ⟨_, .lastItem (.element leading spelled blank), by simp⟩
  · rename_i start
    obtain ⟨blanks, blank, rfl⟩ := exists_of_skipBlanks start
    obtain ⟨⟨items, after⟩, readLater, same⟩ := Option.map_eq_some_iff.mp readRest
    cases same
    obtain ⟨later, spelledLater, rfl⟩ := faithful.items readLater
    exact ⟨_, .nextItem (.element leading spelled blank) spelledLater, by simp⟩
  · cases readRest

theorem Faithful.readMember_succ (faithful : Faithful steps) {member : Literal × Value}
    (read : readMember (steps + 1) text = some (member, rest)) :
    ∃ body, (∀ after, Blanks after → Spells (.member member) (body ++ after)) ∧
      text = body ++ rest := by
  rw [readMember] at read
  split at read
  · rename_i start
    obtain ⟨before, leading, rfl⟩ := exists_of_skipBlanks start
    obtain ⟨⟨key, after⟩, readLiteral, readRest⟩ := Option.bind_eq_some_iff.mp read
    obtain ⟨name, named, rfl⟩ := readLiteral_eq_some_iff.mp readLiteral
    simp only at readRest
    split at readRest
    · rename_i colon
      obtain ⟨between, blank, rfl⟩ := exists_of_skipBlanks colon
      obtain ⟨⟨value, after⟩, readValue, same⟩ := Option.map_eq_some_iff.mp readRest
      cases same
      obtain ⟨before', body, front, spelled, rfl⟩ := faithful.value readValue
      refine ⟨before ++ '"' :: (name ++ '"' :: (between ++ ':' :: (before' ++ body))), ?_, by simp⟩
      intro after trailing
      have spelled := Spells.member leading named blank (.element front spelled trailing)
      simpa using spelled
    · cases readRest
  · cases read

theorem Faithful.readMembers_succ (faithful : Faithful steps) {members : List (Literal × Value)}
    (read : readMembers (steps + 1) text = some (members, rest)) :
    ∃ body, Spells (.members members) body ∧ text = body ++ '}' :: rest := by
  rw [readMembers] at read
  obtain ⟨⟨member, after⟩, readMember, readRest⟩ := Option.bind_eq_some_iff.mp read
  obtain ⟨body, spelled, rfl⟩ := faithful.member readMember
  simp only at readRest
  split at readRest
  · rename_i start
    cases readRest
    obtain ⟨blanks, blank, rfl⟩ := exists_of_skipBlanks start
    exact ⟨_, .lastMember (spelled blanks blank), by simp⟩
  · rename_i start
    obtain ⟨blanks, blank, rfl⟩ := exists_of_skipBlanks start
    obtain ⟨⟨members, after⟩, readLater, same⟩ := Option.map_eq_some_iff.mp readRest
    cases same
    obtain ⟨later, spelledLater, rfl⟩ := faithful.members readLater
    exact ⟨_, .nextMember (spelled blanks blank) spelledLater, by simp⟩
  · cases readRest

/-- By induction on the steps, all readers at once. -/
theorem faithful (steps : Nat) : Faithful steps := by
  induction steps with
  | zero =>
      constructor <;> intro text rest _ read
      · rw [readValue] at read
        cases read
      · rw [readItems] at read
        cases read
      · rw [readMember] at read
        cases read
      · rw [readMembers] at read
        cases read
  | succ steps ih =>
      exact ⟨ih.readValue_succ, ih.readItems_succ, ih.readMember_succ, ih.readMembers_succ⟩

/-! ## Whole texts -/

/-- The values of a text are those that the grammar gives it. -/
theorem parse?_eq_some_iff {text : String} {value : Value} :
    parse? text = some value ↔ Spells (.element value) text.toList := by
  constructor
  · intro read
    unfold parse? at read
    split at read
    · rename_i value rest readValue
      split at read
      · rename_i ended
        cases read
        obtain ⟨before, body, leading, spelled, whole⟩ := (faithful _).value readValue
        obtain ⟨after, trailing, rfl⟩ := exists_of_skipBlanks (List.isEmpty_iff.mp ended)
        rw [whole, List.append_nil]
        exact .element leading spelled trailing
      · cases read
    · cases read
  · intro spells
    obtain ⟨after, blank, read⟩ := spells.isRead (2 * text.length + 2) []
      (by rw [String.length_toList]; omega) nofun
    rw [List.append_nil, List.append_nil] at read
    have ended : skipBlanks after = [] := by
      have skipped := skipBlanks_append blank []
      rwa [List.append_nil] at skipped
    simp [parse?, read, ended]

end ScopeLowering.Json
