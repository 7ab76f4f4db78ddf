import ScopeLowering.Text.Scan

/-!
# Selectors

Brings the selectors of a scope block under the scope root, so that they match inside the root
only. A selector may name the root by a placeholder, `:scope` or the nesting mark; then the root is
written out in its place. Any other selector is made a descendant of the root. Placeholders are
structural characters; inside a string or behind a backslash the same characters are plain text.

A selector list is cut at its commas of depth zero. Parentheses count from the start of the list,
and one that closes too many makes the depth negative, where no comma cuts.
-/

namespace ScopeLowering.Stylesheet

open ScopeLowering.Text

inductive Placeholder where
  | scope
  | nesting
deriving DecidableEq, Repr

namespace Placeholder

/-- What follows the word `scope`, blanks before it and its case being free. -/
def afterScopeWord? (text : List Char) : Option (List Char) :=
  (afterWord? ['s', 'c', 'o', 'p', 'e'] (trimStart text)).filter endsWord

/-- The number of characters a placeholder takes after its first one, if the text
starts with the placeholder. -/
def extent? : Placeholder → List Char → Option Nat
  | .scope, ':' :: text => (afterScopeWord? text).map fun rest => text.length - rest.length
  | .nesting, '&' :: _ => some 0
  | _, _ => none

def occurs (placeholder : Placeholder) : Mode → List Char → Bool
  | _, [] => false
  | mode, c :: text =>
      (mode.structural c && (placeholder.extent? (c :: text)).isSome)
        || placeholder.occurs (mode.next c) text

/-- Writes the root in place of every placeholder, after passing over the given number
of characters. -/
def replaceFrom (placeholder : Placeholder) (root : List Char) :
    Nat → Mode → List Char → List Char
  | _, _, [] => []
  | skip + 1, mode, c :: text => placeholder.replaceFrom root skip (mode.next c) text
  | 0, mode, c :: text =>
      match if mode.structural c then placeholder.extent? (c :: text) else none with
      | some extent => root ++ placeholder.replaceFrom root extent (mode.next c) text
      | none => c :: placeholder.replaceFrom root 0 (mode.next c) text

def replace (placeholder : Placeholder) (root selector : List Char) : List Char :=
  placeholder.replaceFrom root 0 .plain selector

end Placeholder

inductive Scoping where
  | vanish
  | substitute (placeholder : Placeholder)
  | descend
deriving DecidableEq, Repr

/-- How a selector comes under the root; `:scope` goes before the nesting mark. -/
def Scoping.ofSelector (selector : List Char) : Scoping :=
  let selector := trim selector
  if selector.isEmpty then .vanish
  else if Placeholder.scope.occurs .plain selector then .substitute .scope
  else if Placeholder.nesting.occurs .plain selector then .substitute .nesting
  else .descend

def selectorUnder (root selector : List Char) : List Char :=
  match Scoping.ofSelector selector with
  | .vanish => []
  | .substitute placeholder => placeholder.replace root (trim selector)
  | .descend => root ++ ' ' :: trim selector

/-! ## Lists of selectors -/

def extendFirst (c : Char) : List (List Char) → List (List Char)
  | [] => [[c]]
  | part :: parts => (c :: part) :: parts

def parenthesisDepth (depth : Int) (c : Char) : Int :=
  if c = '(' then depth + 1 else if c = ')' then depth - 1 else depth

/-- The parts between commas of depth zero; there is one part more than commas. -/
def partsAtCommas : Int → Mode → List Char → List (List Char)
  | _, _, [] => [[]]
  | depth, mode, c :: text =>
      if mode.structural c then
        if c = ',' ∧ depth = 0 then [] :: partsAtCommas depth (mode.next c) text
        else extendFirst c (partsAtCommas (parenthesisDepth depth c) (mode.next c) text)
      else extendFirst c (partsAtCommas depth (mode.next c) text)

def dropEmptyLast (parts : List (List Char)) : List (List Char) :=
  if parts.getLast? = some [] then parts.dropLast else parts

/-- The selectors of a list, untrimmed. An empty one at the end is no selector. -/
def splitSelectors (text : List Char) : List (List Char) :=
  dropEmptyLast (partsAtCommas 0 .plain text)

def selectorsUnder (root text : List Char) : List Char :=
  let selectors := (splitSelectors text).map (selectorUnder root)
  [',', ' '].intercalate (selectors.filter fun selector => !selector.isEmpty)

end ScopeLowering.Stylesheet
