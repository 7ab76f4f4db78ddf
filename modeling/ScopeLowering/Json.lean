/-!
# JSON

Accepts exactly the JSON texts of RFC 8259. A value is kept as it is written: members keep their
order and their repetitions, numbers keep their spelling. Each reader takes a value from the front
of a text and gives what follows it.
-/

namespace ScopeLowering.Json

/-- A string literal; `none` if an escape in it denotes a lone surrogate, which is no
character. -/
abbrev Literal := Option String

inductive Value where
  | null
  | bool (value : Bool)
  | number (spelling : List Char)
  | string (literal : Literal)
  | array (items : List Value)
  | object (members : List (Literal × Value))
deriving Repr

def isBlank (c : Char) : Bool := c = ' ' || c = '\t' || c = '\n' || c = '\r'

def skipBlanks (text : List Char) : List Char := text.dropWhile isBlank

def afterWord? : List Char → List Char → Option (List Char)
  | [], text => some text
  | letter :: word, c :: text => if c = letter then afterWord? word text else none
  | _ :: _, [] => none

/-- A character of a string literal, or a code unit written by an escape. -/
inductive Piece where
  | character (c : Char)
  | unit (code : Nat)
deriving DecidableEq, Repr

def hexDigit? (c : Char) : Option Nat :=
  if '0' ≤ c && c ≤ '9' then some (c.toNat - '0'.toNat)
  else if 'a' ≤ c && c ≤ 'f' then some (c.toNat - 'a'.toNat + 10)
  else if 'A' ≤ c && c ≤ 'F' then some (c.toNat - 'A'.toNat + 10)
  else none

def codeUnit? (a b c d : Char) : Option Nat := do
  let a ← hexDigit? a
  let b ← hexDigit? b
  let c ← hexDigit? c
  let d ← hexDigit? d
  return ((a * 16 + b) * 16 + c) * 16 + d

def escape? : Char → Option Char
  | '"' => some '"'
  | '\\' => some '\\'
  | '/' => some '/'
  | 'b' => some '\x08'
  | 'f' => some '\x0C'
  | 'n' => some '\n'
  | 'r' => some '\r'
  | 't' => some '\t'
  | _ => none

def readPieces : List Char → Option (List Piece × List Char)
  | '"' :: text => some ([], text)
  | '\\' :: 'u' :: a :: b :: c :: d :: text =>
      (codeUnit? a b c d).bind fun code =>
        (readPieces text).map fun cut => (.unit code :: cut.1, cut.2)
  | '\\' :: e :: text =>
      (escape? e).bind fun c =>
        (readPieces text).map fun cut => (.character c :: cut.1, cut.2)
  | c :: text =>
      if c.toNat < 0x20 || c = '\\' then none
      else (readPieces text).map fun cut => (.character c :: cut.1, cut.2)
  | [] => none

def isLeading (code : Nat) : Bool := 0xD800 ≤ code && code < 0xDC00

def isTrailing (code : Nat) : Bool := 0xDC00 ≤ code && code < 0xE000

/-- The characters of a literal. Two code units that form a surrogate pair give one. -/
def decodePieces : List Piece → Option (List Char)
  | [] => some []
  | .character c :: pieces => (decodePieces pieces).map (c :: ·)
  | .unit high :: .unit low :: pieces =>
      if isLeading high && isTrailing low then
        let c := Char.ofNat (0x10000 + (high - 0xD800) * 0x400 + (low - 0xDC00))
        (decodePieces pieces).map (c :: ·)
      else if isLeading high || isTrailing high then none
      else (decodePieces (.unit low :: pieces)).map (Char.ofNat high :: ·)
  | .unit code :: pieces =>
      if isLeading code || isTrailing code then none
      else (decodePieces pieces).map (Char.ofNat code :: ·)

def readLiteral (text : List Char) : Option (Literal × List Char) :=
  (readPieces text).map fun cut => ((decodePieces cut.1).map String.ofList, cut.2)

def readDigits (text : List Char) : Option (List Char × List Char) :=
  match text.takeWhile Char.isDigit with
  | [] => none
  | digits => some (digits, text.dropWhile Char.isDigit)

/-- Reads the digits before the point: a zero stands alone. -/
def readWhole : List Char → Option (List Char × List Char)
  | '0' :: text => some (['0'], text)
  | text => readDigits text

def readFraction : List Char → Option (List Char × List Char)
  | '.' :: text => (readDigits text).map fun cut => ('.' :: cut.1, cut.2)
  | text => some ([], text)

def readExponent : List Char → Option (List Char × List Char)
  | [] => some ([], [])
  | c :: text =>
      if c = 'e' || c = 'E' then
        let sign := match text with
          | '+' :: _ => ['+']
          | '-' :: _ => ['-']
          | _ => []
        (readDigits (text.drop sign.length)).map fun cut => (c :: sign ++ cut.1, cut.2)
      else some ([], c :: text)

def readNumber (text : List Char) : Option (List Char × List Char) := do
  let sign := match text with
    | '-' :: _ => ['-']
    | _ => []
  let (whole, text) ← readWhole (text.drop sign.length)
  let (fraction, text) ← readFraction text
  let (exponent, text) ← readExponent text
  return (sign ++ whole ++ fraction ++ exponent, text)

mutual

/-- Reads a value; every nested value and every item takes one step. -/
def readValue : Nat → List Char → Option (Value × List Char)
  | 0, _ => none
  | steps + 1, text =>
      match skipBlanks text with
      | '"' :: text => (readLiteral text).map fun cut => (.string cut.1, cut.2)
      | '[' :: text =>
          match skipBlanks text with
          | ']' :: text => some (.array [], text)
          | text => (readItems steps text).map fun cut => (.array cut.1, cut.2)
      | '{' :: text =>
          match skipBlanks text with
          | '}' :: text => some (.object [], text)
          | text => (readMembers steps text).map fun cut => (.object cut.1, cut.2)
      | 'n' :: text => (afterWord? ['u', 'l', 'l'] text).map fun text => (.null, text)
      | 't' :: text => (afterWord? ['r', 'u', 'e'] text).map fun text => (.bool true, text)
      | 'f' :: text =>
          (afterWord? ['a', 'l', 's', 'e'] text).map fun text => (.bool false, text)
      | text => (readNumber text).map fun cut => (.number cut.1, cut.2)

def readItems : Nat → List Char → Option (List Value × List Char)
  | 0, _ => none
  | steps + 1, text =>
      (readValue steps text).bind fun (item, text) =>
        match skipBlanks text with
        | ']' :: text => some ([item], text)
        | ',' :: text => (readItems steps text).map fun cut => (item :: cut.1, cut.2)
        | _ => none

def readMembers : Nat → List Char → Option (List (Literal × Value) × List Char)
  | 0, _ => none
  | steps + 1, text =>
      (readMember steps text).bind fun (member, text) =>
        match skipBlanks text with
        | '}' :: text => some ([member], text)
        | ',' :: text => (readMembers steps text).map fun cut => (member :: cut.1, cut.2)
        | _ => none

def readMember : Nat → List Char → Option ((Literal × Value) × List Char)
  | 0, _ => none
  | steps + 1, text =>
      match skipBlanks text with
      | '"' :: text =>
          (readLiteral text).bind fun (key, text) =>
            match skipBlanks text with
            | ':' :: text => (readValue steps text).map fun cut => ((key, cut.1), cut.2)
            | _ => none
      | _ => none

end

/-- The value that a whole text writes. No reader takes more steps than twice the
characters it reads. -/
def parse? (text : String) : Option Value :=
  match readValue (2 * text.length + 2) text.toList with
  | some (value, rest) => if (skipBlanks rest).isEmpty then some value else none
  | none => none

end ScopeLowering.Json
