import ScopeLowering.Stylesheet.Selector

/-!
# Lowering

Turns scope blocks into plain rules. A comment runs from its opening mark to the nearest closing
mark after it; comments do not nest, and a mark that is never closed opens none. A scope block is an
`@scope` head with a root selector in parentheses and a body in braces; the search for blocks goes
from left to right and resumes after each one, so that a block inside another is part of the outer
body. The body is read as a sequence of constructs, headers with bodies in braces, and statements
without a body that stand before a header are left out. Style rules get their selectors under the
root, definition at-rules stay as they are, and grouping at-rules are lowered inside.
-/

namespace ScopeLowering.Stylesheet

open ScopeLowering.Text

/-! ## Comments -/

def commentEnd? : List Char → Option Nat
  | '*' :: '/' :: _ => some 2
  | _ :: text => (commentEnd? text).map (· + 1)
  | [] => none

def withoutCommentsFrom : Nat → List Char → List Char
  | skip + 1, _ :: text => withoutCommentsFrom skip text
  | 0, '/' :: '*' :: text =>
      match commentEnd? text with
      | some length => withoutCommentsFrom length text
      | none => '/' :: '*' :: text
  | 0, c :: text => c :: withoutCommentsFrom 0 text
  | _, [] => []

def withoutComments (text : List Char) : List Char := withoutCommentsFrom 0 text

/-! ## Scope blocks -/

/-- The root selector of a block, trimmed, and the exact text between its braces. -/
structure ScopeBlock where
  root : List Char
  body : List Char
deriving DecidableEq, Repr

def afterHead? : List Char → Option (List Char)
  | '@' :: text =>
      match (afterWord? ['s', 'c', 'o', 'p', 'e'] text).map trimStart with
      | some ('(' :: rest) => some rest
      | _ => none
  | _ => none

/-- The block that starts a text, and the text after it. Only blanks may stand between
the root and the body. -/
def firstBlock? (text : List Char) : Option (ScopeBlock × List Char) :=
  (afterHead? text).bind fun opened =>
    (parenthesized? opened).bind fun root =>
      match trimStart root.2 with
      | '{' :: rest => (braced? rest).map fun closed => (⟨trim root.1, closed.1⟩, closed.2)
      | _ => none

theorem length_trimStart_le (text : List Char) : (trimStart text).length ≤ text.length :=
  (List.dropWhile_sublist isBlank).length_le

theorem length_of_afterHead? {text rest : List Char}
    (found : afterHead? text = some rest) :
    rest.length < text.length := by
  unfold afterHead? at found
  split at found
  · rename_i inner
    split at found
    · rename_i tail head
      obtain rfl := Option.some.inj found
      obtain ⟨word, after, trimmed⟩ := Option.map_eq_some_iff.mp head
      have := length_of_afterWord? after
      have := length_trimStart_le word
      have := congrArg List.length trimmed
      simp only [List.length_cons] at *
      omega
    · simp at found
  · simp at found

theorem length_of_firstBlock? {text rest : List Char} {block : ScopeBlock}
    (found : firstBlock? text = some (block, rest)) :
    rest.length < text.length := by
  simp only [firstBlock?, Option.bind_eq_some_iff] at found
  obtain ⟨opened, head, ⟨inside, after⟩, closed, found⟩ := found
  split at found
  · rename_i tail trimmed
    simp only [Option.map_eq_some_iff, Prod.mk.injEq] at found
    obtain ⟨⟨body, last⟩, matched, -, rfl⟩ := found
    have := length_of_afterHead? head
    have := congrArg List.length (eq_of_closing? closed)
    have := congrArg List.length (eq_of_closing? matched)
    have := length_trimStart_le after
    have := congrArg List.length trimmed
    simp only [List.length_append, List.length_cons] at *
    omega
  · simp at found

/-- The scope blocks of a stylesheet in order, those with a blank root left out. -/
def scopeBlocks (text : List Char) : List ScopeBlock :=
  match _found : firstBlock? text with
  | some (block, rest) =>
      if block.root.isEmpty then scopeBlocks rest else block :: scopeBlocks rest
  | none =>
      match text with
      | [] => []
      | _ :: text => scopeBlocks text
termination_by text.length
decreasing_by
  · exact length_of_firstBlock? _found
  · exact length_of_firstBlock? _found
  · simp

/-! ## Constructs -/

def bracketDepth (depth : Int) (c : Char) : Int :=
  if c = '(' ∨ c = '[' then depth + 1 else if c = ')' ∨ c = ']' then depth - 1 else depth

/-- The text after the last statement that ends at a semicolon of depth zero or less. -/
def afterStatements? : Int → Mode → List Char → Option (List Char)
  | _, _, [] => none
  | depth, mode, c :: text =>
      if mode.structural c then
        (afterStatements? (bracketDepth depth c) (mode.next c) text).orElse fun _ =>
          if c = ';' ∧ depth ≤ 0 then some text else none
      else afterStatements? depth (mode.next c) text

def dropStatements (text : List Char) : List Char :=
  (afterStatements? 0 .plain text).getD text

inductive Kind where
  | plain
  /-- An at-rule whose body holds no selectors. -/
  | definition
  /-- Any other at-rule; its body is a block of rules. -/
  | grouping
deriving DecidableEq, Repr

def startsWithDefinition (text : List Char) : Bool :=
  [['k', 'e', 'y', 'f', 'r', 'a', 'm', 'e', 's'],
    ['f', 'o', 'n', 't', '-', 'f', 'a', 'c', 'e']].any fun name =>
    ((afterWord? name text).filter endsWord).isSome

def afterVendor? : List Char → Option (List Char)
  | '-' :: text =>
      match text.takeWhile foldsToLetter, text.dropWhile foldsToLetter with
      | _ :: _, '-' :: rest => some rest
      | _, _ => none
  | _ => none

def Kind.ofHeader : List Char → Kind
  | '@' :: text =>
      if startsWithDefinition text || ((afterVendor? text).any startsWithDefinition) then
        .definition
      else .grouping
  | _ => .plain

structure Construct where
  header : List Char
  body : List Char
deriving DecidableEq, Repr

def Construct.kind (construct : Construct) : Kind := Kind.ofHeader construct.header

def firstConstruct? (text : List Char) : Option (Construct × List Char) :=
  (cutAt? '{' .plain text).bind fun opened =>
    (braced? opened.2).map fun closed =>
      (⟨trim (dropStatements opened.1), closed.1⟩, closed.2)

theorem length_of_firstConstruct? {text rest : List Char} {construct : Construct}
    (found : firstConstruct? text = some (construct, rest)) :
    rest.length < text.length := by
  simp only [firstConstruct?, Option.bind_eq_some_iff, Option.map_eq_some_iff,
    Prod.mk.injEq] at found
  obtain ⟨⟨before, opened⟩, cut, ⟨inside, closed⟩, matched, -, rfl⟩ := found
  have := congrArg List.length (eq_of_cutAt? cut)
  have := congrArg List.length (eq_of_closing? matched)
  simp only [List.length_append, List.length_cons] at *
  omega

/-- The constructs of a block in order. Reading stops where a body is not closed. -/
def constructs (text : List Char) : List Construct :=
  match _found : firstConstruct? text with
  | some (construct, rest) => construct :: constructs rest
  | none => []
termination_by text.length
decreasing_by exact length_of_firstConstruct? _found

/-! ## Lowering -/

/-- The number of grouping at-rules that may enclose a construct. -/
def maxNesting : Nat := 128

def joinLines (texts : List (List Char)) : List Char := ['\n'].intercalate texts

def braces (header body : List Char) : List Char := header ++ ' ' :: '{' :: (body ++ ['}'])

/-- The text of a construct under a root, given how the bodies of grouping at-rules are
written. A rule without selectors and a grouping at-rule without a writer give nothing. -/
def Construct.lower? (root : List Char) (inner : Option (List Char → List Char))
    (construct : Construct) : Option (List Char) :=
  match construct.kind with
  | .definition => some (braces construct.header construct.body)
  | .grouping =>
      inner.map fun write => braces construct.header ('\n' :: write construct.body ++ ['\n'])
  | .plain =>
      let selectors := selectorsUnder root construct.header
      if selectors.isEmpty then none else some (braces selectors construct.body)

/-- The rules of a block under a root, with `levels` more levels of grouping at-rules. -/
def lowerBlock (root : List Char) : Nat → List Char → List Char
  | 0, body => joinLines ((constructs body).filterMap (Construct.lower? root none))
  | levels + 1, body =>
      joinLines ((constructs body).filterMap
        (Construct.lower? root (some (lowerBlock root levels))))

def ScopeBlock.lower (block : ScopeBlock) : List Char :=
  lowerBlock block.root maxNesting block.body

/-- The plain rules of a stylesheet's scope blocks; none if it has no scope block. -/
def lower? (stylesheet : List Char) : Option (List Char) :=
  match scopeBlocks (withoutComments stylesheet) with
  | [] => none
  | blocks => some (joinLines (blocks.map ScopeBlock.lower))

end ScopeLowering.Stylesheet
