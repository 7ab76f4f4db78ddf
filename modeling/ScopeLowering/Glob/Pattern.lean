/-!
# Glob patterns

The tokens of a pattern and the texts they match. A question mark, a star and a class
match any character, the slash included; two stars, which must stand alone between
slashes, match whole directories.
-/

namespace ScopeLowering.Glob

inductive Defect where
  | wildcards
  | recursiveWildcards
  | invalidRange
deriving DecidableEq, Repr

def Defect.message : Defect → String
  | .wildcards => "wildcards are either regular `*` or recursive `**`"
  | .recursiveWildcards => "recursive wildcards must form a single path component"
  | .invalidRange => "invalid range pattern"

structure PatternFault where
  position : Nat
  defect : Defect
deriving DecidableEq, Repr

def PatternFault.message (fault : PatternFault) : String :=
  s!"Pattern syntax error near position {fault.position}: {fault.defect.message}"

inductive Token where
  | literal (c : Char)
  | anyCharacter
  | oneOf (ranges : List (Char × Char))
  | noneOf (ranges : List (Char × Char))
  | anySequence
  | anyDirectories
deriving DecidableEq, Repr

/-- The ranges of a class: `a-b`, or a single character. -/
def classRanges : List Char → List (Char × Char)
  | first :: '-' :: last :: rest => (first, last) :: classRanges rest
  | c :: rest => (c, c) :: classRanges rest
  | [] => []

def untilBracket? : List Char → Option (List Char × List Char)
  | [] => none
  | c :: text =>
      if c = ']' then some ([], text)
      else (untilBracket? text).map fun cut => (c :: cut.1, cut.2)

theorem length_of_untilBracket? {text before rest : List Char}
    (found : untilBracket? text = some (before, rest)) :
    text.length = before.length + 1 + rest.length := by
  induction text generalizing before with
  | nil => simp [untilBracket?] at found
  | cons c text ih =>
      unfold untilBracket? at found
      split at found
      · simp_all; omega
      · simp only [Option.map_eq_some_iff, Prod.mk.injEq] at found
        obtain ⟨⟨inner, tail⟩, cut, rfl, rfl⟩ := found
        simp [ih cut]; omega

/-- A class given the text after its opening bracket: the token, the characters it takes
and the rest. A bracket that comes first in a class belongs to it. -/
def classToken? : List Char → Option (Token × Nat × List Char)
  | '!' :: first :: text =>
      (untilBracket? text).map fun cut =>
        (.noneOf (classRanges (first :: cut.1)), cut.1.length + 3, cut.2)
  | ['!'] => none
  | first :: text =>
      (untilBracket? text).map fun cut =>
        (.oneOf (classRanges (first :: cut.1)), cut.1.length + 2, cut.2)
  | [] => none

theorem length_of_classToken? {text rest : List Char} {token : Token} {taken : Nat}
    (found : classToken? text = some (token, taken, rest)) :
    rest.length < text.length := by
  unfold classToken? at found
  split at found <;> simp only [Option.map_eq_some_iff, Prod.mk.injEq, reduceCtorEq] at found
  all_goals
    obtain ⟨⟨inner, tail⟩, cut, -, -, rfl⟩ := found
    have := length_of_untilBracket? cut
    simp only [List.length_cons] at *
    omega

/-- The tokens of the text from a position on. The character before that position tells
whether a path component starts there. -/
def tokensFrom (position : Nat) (previous : Option Char) (text : List Char) :
    Except PatternFault (List Token) :=
  match text with
  | [] => .ok []
  | '?' :: rest => (tokensFrom (position + 1) (some '?') rest).map (.anyCharacter :: ·)
  | '*' :: '*' :: '*' :: _ => .error ⟨position + 2, .wildcards⟩
  | '*' :: '*' :: rest =>
      if previous.all (· = '/') then
        match rest with
        | [] => .ok [.anyDirectories]
        | '/' :: rest => (tokensFrom (position + 3) (some '/') rest).map (.anyDirectories :: ·)
        | _ => .error ⟨position + 2, .recursiveWildcards⟩
      else .error ⟨position - 1, .recursiveWildcards⟩
  | '*' :: rest => (tokensFrom (position + 1) (some '*') rest).map (.anySequence :: ·)
  | '[' :: rest =>
      match _found : classToken? rest with
      | some (token, taken, rest) =>
          (tokensFrom (position + 1 + taken) (some ']') rest).map (token :: ·)
      | none => .error ⟨position, .invalidRange⟩
  | c :: rest => (tokensFrom (position + 1) (some c) rest).map (.literal c :: ·)
termination_by text.length
decreasing_by
  all_goals simp only [List.length_cons]
  case _ => omega
  case _ => omega
  case _ => omega
  case _ => have := length_of_classToken? _found; omega
  case _ => omega

def tokens (pattern : String) : Except PatternFault (List Token) :=
  tokensFrom 0 none pattern.toList

def inClass (ranges : List (Char × Char)) (c : Char) : Bool :=
  ranges.any fun range => range.1 ≤ c && c ≤ range.2

/-- What is left of a text after the directories at its start, and nothing. -/
def afterDirectories : List Char → List (List Char)
  | [] => [[]]
  | c :: text => if c = '/' then text :: afterDirectories text else afterDirectories text

def matchTokens : List Token → List Char → Bool
  | [], text => text.isEmpty
  | .anySequence :: tokens, text =>
      (List.range (text.length + 1)).any fun count => matchTokens tokens (text.drop count)
  | .anyDirectories :: tokens, text => (text :: afterDirectories text).any (matchTokens tokens)
  | .literal c :: tokens, text =>
      match text with
      | [] => false
      | d :: rest => d = c && matchTokens tokens rest
  | .anyCharacter :: tokens, text =>
      match text with
      | [] => false
      | _ :: rest => matchTokens tokens rest
  | .oneOf ranges :: tokens, text =>
      match text with
      | [] => false
      | d :: rest => inClass ranges d && matchTokens tokens rest
  | .noneOf ranges :: tokens, text =>
      match text with
      | [] => false
      | d :: rest => !inClass ranges d && matchTokens tokens rest

end ScopeLowering.Glob
