import ScopeLowering.Text.Characters

/-!
# Scans

A scan from left to right tells structure from literal text. Quotation marks, all that stands
between them, the backslash and the character after it are literal; every other character is
structural. Searches for a character or for a closing delimiter pass over literal text. Positions
are counted in bytes of the UTF-8 encoding; an offset that falls inside a character, or past the
end, names no position.
-/

namespace ScopeLowering.Text

inductive Quote where
  | single
  | double
deriving DecidableEq, Repr

def Quote.char : Quote → Char
  | .single => '\''
  | .double => '"'

def Quote.ofChar? (c : Char) : Option Quote :=
  if c = '\'' then some .single
  else if c = '"' then some .double
  else none

def isQuotationMark (c : Char) : Bool := (Quote.ofChar? c).isSome

/-- What a scan remembers: the string it is inside of, and whether a backslash waits. -/
inductive Mode where
  | plain
  | escape
  | quoted (quote : Quote)
  | quotedEscape (quote : Quote)
deriving DecidableEq, Repr

namespace Mode

def next : Mode → Char → Mode
  | .plain, c =>
      if c = '\\' then .escape
      else match Quote.ofChar? c with
        | some quote => .quoted quote
        | none => .plain
  | .escape, _ => .plain
  | .quoted quote, c =>
      if c = '\\' then .quotedEscape quote
      else if c = quote.char then .plain
      else .quoted quote
  | .quotedEscape quote, _ => .quoted quote

/-- Whether the next character is structure and not literal text. -/
def structural : Mode → Char → Bool
  | .plain, c => c != '\\' && !isQuotationMark c
  | _, _ => false

def after (mode : Mode) (text : List Char) : Mode := text.foldl next mode

@[simp]
theorem after_nil (mode : Mode) : mode.after [] = mode := rfl

@[simp]
theorem after_cons (mode : Mode) (c : Char) (text : List Char) :
    mode.after (c :: text) = (mode.next c).after text := rfl

theorem after_append (mode : Mode) (first second : List Char) :
    mode.after (first ++ second) = (mode.after first).after second :=
  List.foldl_append

/-- Structure is met in plain mode only. -/
theorem eq_plain_of_structural {mode : Mode} {c : Char} (h : mode.structural c = true) :
    mode = .plain := by
  cases mode <;> simp_all [structural]

/-- Structure leaves the mode as it is. -/
theorem next_of_structural {mode : Mode} {c : Char} (h : mode.structural c = true) :
    mode.next c = .plain := by
  obtain rfl := eq_plain_of_structural h
  simp only [structural, isQuotationMark, Bool.and_eq_true, bne_iff_ne, ne_eq, Bool.not_eq_true',
    Option.isSome_eq_false_iff, Option.isNone_iff_eq_none] at h
  simp [next, h]

end Mode

/-! ## Byte offsets -/

def byteSize : List Char → Nat
  | [] => 0
  | c :: text => c.utf8Size + byteSize text

@[simp]
theorem byteSize_nil : byteSize [] = 0 := rfl

@[simp]
theorem byteSize_cons (c : Char) (text : List Char) :
    byteSize (c :: text) = c.utf8Size + byteSize text := rfl

theorem byteSize_append (first second : List Char) :
    byteSize (first ++ second) = byteSize first + byteSize second := by
  induction first with
  | nil => simp
  | cons c first ih => simp [ih, Nat.add_assoc]

def fromOffset? : Nat → List Char → Option (List Char)
  | 0, text => some text
  | _ + 1, [] => none
  | offset + 1, c :: text =>
      if c.utf8Size ≤ offset + 1 then fromOffset? (offset + 1 - c.utf8Size) text else none

/-! ## Delimiters -/

def keep (c : Char) : Option (List Char × List Char) → Option (List Char × List Char) :=
  Option.map fun cut => (c :: cut.1, cut.2)

def cutAt? (target : Char) : Mode → List Char → Option (List Char × List Char)
  | _, [] => none
  | mode, c :: text =>
      if mode.structural c && c == target then some ([], text)
      else keep c (cutAt? target (mode.next c) text)

/-- The texts before and after the delimiter that closes `depth + 1` open ones. -/
def closing? (opener closer : Char) : Nat → Mode → List Char → Option (List Char × List Char)
  | _, _, [] => none
  | depth, mode, c :: text =>
      if mode.structural c && c == opener then
        keep c (closing? opener closer (depth + 1) (mode.next c) text)
      else if mode.structural c && c == closer then
        match depth with
        | 0 => some ([], text)
        | depth + 1 => keep c (closing? opener closer depth (mode.next c) text)
      else keep c (closing? opener closer depth (mode.next c) text)

/-- What stands inside a pair of parentheses and after it, given the text after `(`. -/
def parenthesized? (text : List Char) : Option (List Char × List Char) :=
  closing? '(' ')' 0 .plain text

def braced? (text : List Char) : Option (List Char × List Char) :=
  closing? '{' '}' 0 .plain text

/-- A cut takes the target out of the text and keeps everything else. -/
theorem eq_of_cutAt? {target : Char} {mode : Mode} {text before rest : List Char}
    (found : cutAt? target mode text = some (before, rest)) :
    text = before ++ target :: rest := by
  induction text generalizing mode before with
  | nil => simp [cutAt?] at found
  | cons c text ih =>
      unfold cutAt? at found
      split at found
      · simp_all
      · simp only [keep, Option.map_eq_some_iff, Prod.mk.injEq] at found
        obtain ⟨⟨inner, tail⟩, cut, rfl, rfl⟩ := found
        simp [ih cut]

/-- The closing delimiter stands between the text inside and the text after it. -/
theorem eq_of_closing? {opener closer : Char} {depth : Nat} {mode : Mode}
    {text inside rest : List Char}
    (found : closing? opener closer depth mode text = some (inside, rest)) :
    text = inside ++ closer :: rest := by
  induction text generalizing depth mode inside with
  | nil => simp [closing?] at found
  | cons c text ih =>
      have kept : ∀ {depth : Nat},
          keep c (closing? opener closer depth (mode.next c) text) = some (inside, rest) →
          c :: text = inside ++ closer :: rest := by
        intro depth found
        simp only [keep, Option.map_eq_some_iff, Prod.mk.injEq] at found
        obtain ⟨⟨inner, tail⟩, cut, rfl, rfl⟩ := found
        simp [ih cut]
      unfold closing? at found
      split at found
      · exact kept found
      · split at found
        · cases depth with
          | zero => simp_all
          | succ depth => exact kept found
        · exact kept found

def matchingDelimiter? (opener closer : Char) (text : List Char) (offset : Nat) : Option Nat :=
  match fromOffset? offset text with
  | some (c :: rest) =>
      if c = opener then
        (closing? opener closer 0 .plain rest).map fun cut => offset + c.utf8Size + byteSize cut.1
      else none
  | _ => none

def matchingBrace? (text : List Char) (offset : Nat) : Option Nat :=
  matchingDelimiter? '{' '}' text offset

def matchingParenthesis? (text : List Char) (offset : Nat) : Option Nat :=
  matchingDelimiter? '(' ')' text offset

def nextStructural? (text : List Char) (offset : Nat) (target : Char) : Option Nat :=
  ((fromOffset? offset text).bind (cutAt? target .plain)).map fun cut => offset + byteSize cut.1

end ScopeLowering.Text
