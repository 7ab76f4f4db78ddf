import ScopeLowering.Failure
import ScopeLowering.Glob.Walk
import ScopeLowering.Text.Characters

/-!
# Sources

Stylesheet texts with a label for where they come from. A text that starts with the marker of
generated output is no source. A search finds the stylesheets that a program works on: the files
named by some patterns and not excluded by others, sorted, each once.
-/

namespace ScopeLowering

structure Source where
  origin : String
  text : String
deriving DecidableEq, Repr

namespace Source

def marker : String := "/* @scope-polyfill generated */"

def standardInput : String := "<stdin>"

/-- Whether a text is generated output, blanks before the marker being free. -/
def isMarked (text : String) : Bool :=
  marker.toList.isPrefixOf (Text.trimStart text.toList)

/-- The source at a path, or nothing if the file is generated output. -/
def read (tree : Files.Tree) (path : String) : Except Failure (Option Source) :=
  match tree.readText path with
  | .error fault => .error (.file path fault)
  | .ok text => .ok (if isMarked text then none else some ⟨path, text⟩)

def ofInput (input : Files.Content) : Except Failure Source :=
  match input with
  | .text text => .ok ⟨standardInput, text⟩
  | .bytes _ => .error (.file standardInput .notText)

end Source

end ScopeLowering

namespace ScopeLowering.Source

open ScopeLowering.Files (Tree)

structure Search where
  wanted : List String
  excluded : List (List Glob.Token)
deriving DecidableEq, Repr

/-- The files found, and the directories that could not be listed on the way. -/
structure Finding where
  paths : List String
  failures : List Failure
deriving DecidableEq, Repr

def Finding.complete (finding : Finding) : Bool := finding.failures.isEmpty

namespace Search

/-- A search, refused at the first malformed pattern of files to leave out. -/
def make (wanted excluded : List String) : Except Failure Search := do
  let excluded ← excluded.mapM fun pattern =>
    (Glob.tokens pattern).mapError (Failure.pattern pattern)
  return ⟨wanted, excluded⟩

/-- Whether a path, as it is spelled, is left out. -/
def excludes (search : Search) (path : String) : Bool :=
  search.excluded.any fun tokens => Glob.matchTokens tokens path.toList

def collect (search : Search) (tree : Tree) (finding : Finding) : Glob.Sighting → Finding
  | .entry path =>
      if tree.isFile path && !search.excludes path then
        { finding with paths := Path.insertSorted path finding.paths }
      else finding
  | .unreadable path fault =>
      { finding with failures := finding.failures ++ [.unreadable path fault] }

def plans (search : Search) : Except Failure (List Glob.Plan) :=
  search.wanted.mapM fun pattern => (Glob.plan pattern).mapError (Failure.pattern pattern)

def run (search : Search) (tree : Tree) : Except Failure Finding := do
  let plans ← search.plans
  return (plans.flatMap fun plan => plan.walk tree).foldl (search.collect tree) ⟨[], []⟩

end Search

end ScopeLowering.Source
