import ScopeLowering.Source

/-!
# Output

The output of a source is a file named after the source, or standard output. A run acts on a world:
the files, what was printed, and the log. Printing never fails here.
-/

namespace ScopeLowering.Output

inductive Destination where
  | standardOutput
  | file (path : String)
deriving DecidableEq, Repr

/-- Where output goes: the directory of output files, what follows the stem of a source in
their names, and whether everything goes to standard output instead. -/
structure Layout where
  directory : Option String
  suffix : String
  toStandardOutput : Bool
deriving DecidableEq, Repr

def namelessStem : String := "stylesheet"

/-- The output file of a source: in the output directory or else next to the source. -/
def Layout.outputFile (layout : Layout) (origin : String) : String :=
  let stem := ((Path.fileName? origin).map Path.stem).getD namelessStem
  let directory := layout.directory.getD ((Path.parent? origin).getD "")
  Path.join directory (stem ++ layout.suffix)

/-- The destination of a source. Standard input has no file to be named after. -/
def Layout.destination (layout : Layout) (origin : String) : Destination :=
  if layout.toStandardOutput ∨ origin = Source.standardInput then .standardOutput
  else .file (layout.outputFile origin)

def render (css : String) : String := Source.marker ++ "\n" ++ css ++ "\n"

/-! ## The outside world -/

open ScopeLowering.Files (Content Tree)

structure World where
  tree : Tree
  printed : String
  log : List Log.Line
deriving DecidableEq, Repr

namespace World

def ofTree (tree : Tree) : World := ⟨tree, "", []⟩

def report (world : World) (level : Log.Level) (message : String) : World :=
  { world with log := world.log ++ [⟨level, message⟩] }

def print (world : World) (text : String) : World :=
  { world with printed := world.printed ++ text }

/-- Writes a file, after making the directories above it. Directories that were made
stay, even if the file cannot be written. -/
def writeFile (world : World) (path text : String) : World × Option Failure :=
  let parent := (Path.parent? path).getD ""
  match world.tree.makeDirectories parent with
  | (tree, some fault) => ({ world with tree }, some (.file parent fault))
  | (tree, none) =>
      match tree.write path (.text text) with
      | .ok tree => ({ world with tree }, none)
      | .error fault => ({ world with tree }, some (.file path fault))

def deliver (world : World) (destination : Destination) (css : String) :
    World × Option Failure :=
  match destination with
  | .standardOutput => (world.print (render css), none)
  | .file path => world.writeFile path (render css)

end World

end ScopeLowering.Output
