import ScopeLowering.Text.Characters

/-!
# Paths

A path is text with slashes. Two spellings are the same path when their components
agree: repeated slashes and inner or trailing dots do not count, a leading dot does.
The parts of a path that an operation keeps stay as they are spelled.
-/

namespace ScopeLowering.Path

inductive Component where
  | root
  | here
  | up
  | name (text : String)
deriving DecidableEq, Repr

def isAbsolute (path : String) : Bool := path.toList.head? = some '/'

def hasFinalSlash (path : String) : Bool := path.toList.getLast? = some '/'

def pieces (path : String) : List String := (path.toList.splitOn '/').map String.ofList

/-- A piece that stands for no step after the first one. -/
def isIdle (piece : String) : Bool := piece = "" || piece = "."

def innerComponent? (piece : String) : Option Component :=
  if isIdle piece then none else if piece = ".." then some .up else some (.name piece)

def components (path : String) : List Component :=
  match pieces path with
  | [] => []
  | first :: rest =>
      let start :=
        if first = "" then (if rest.isEmpty then [] else [.root])
        else if first = "." then [.here]
        else (innerComponent? first).toList
      start ++ rest.filterMap innerComponent?

def Component.sortKey : Component → List Nat
  | .root => [0]
  | .here => [1]
  | .up => [2]
  | .name text => 3 :: text.toList.map Char.toNat

def sortKey (path : String) : List (List Nat) := (components path).map Component.sortKey

/-- Adds a path to a sorted list of paths unless the list has a spelling of it. -/
def insertSorted (path : String) : List String → List String
  | [] => [path]
  | other :: others =>
      if sortKey path < sortKey other then path :: other :: others
      else if components path = components other then other :: others
      else other :: insertSorted path others

/-- The path without its last component, if it has one that can be dropped. -/
def parent? (path : String) : Option String :=
  match pieces path with
  | [] => none
  | first :: rest =>
      match Text.dropTrailing isIdle rest with
      | [] => if first = "" then none else some ""
      | steps =>
          match first, Text.dropTrailing isIdle steps.dropLast with
          | "", [] => some "/"
          | first, before => some ("/".intercalate (first :: before))

def ancestors (path : String) : List String :=
  climb path.length path
where
  climb : Nat → String → List String
  | 0, _ => []
  | fuel + 1, path =>
      if path = "" then []
      else path :: match parent? path with
        | some parent => climb fuel parent
        | none => []

def fileName? (path : String) : Option String :=
  match (components path).getLast? with
  | some (.name text) => some text
  | _ => none

/-- A file name up to its last dot. A dot at the start does not end the stem. -/
def stem (fileName : String) : String :=
  let reversed := fileName.toList.reverse
  match reversed.dropWhile (· != '.') with
  | _ :: c :: before => String.ofList (c :: before).reverse
  | _ => fileName

/-- A path from a directory. A path that starts with a slash replaces the directory. -/
def join (directory path : String) : String :=
  if isAbsolute path then path
  else if directory = "" || hasFinalSlash directory then directory ++ path
  else directory ++ "/" ++ path

end ScopeLowering.Path
