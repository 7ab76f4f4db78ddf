import ScopeLowering.Files.Tree
import ScopeLowering.Glob.Pattern

/-!
# Glob walks

Finds the entries of a file tree that a pattern names. The pattern is followed component
by component; a plain name is looked up, a pattern of names needs the directory to be
listed, and two stars visit every directory below.
-/

namespace ScopeLowering.Glob

open ScopeLowering.Files (Fault Tree)

inductive Step where
  | name (text : String)
  | names (tokens : List Token)
  | directories
deriving DecidableEq, Repr

def literalText? : List Token → Option (List Char)
  | [] => some []
  | .literal c :: tokens => (literalText? tokens).map (c :: ·)
  | _ :: _ => none

def Step.ofTokens (tokens : List Token) : Step :=
  if tokens = [.anyDirectories] then .directories
  else match literalText? tokens with
    | some text => .name (String.ofList text)
    | none => .names tokens

def Step.accepts (step : Step) (name : String) : Bool :=
  match step with
  | .name text => name = text
  | .names tokens => matchTokens tokens name.toList
  | .directories => true

structure Plan where
  start : String
  steps : List Step
  directoriesOnly : Bool
deriving DecidableEq, Repr

/-- Writes a run of double-star steps as one. -/
def mergeDirectories : List Step → List Step
  | .directories :: .directories :: steps => mergeDirectories (.directories :: steps)
  | step :: steps => step :: mergeDirectories steps
  | [] => []

/-- The pieces between slashes; a slash at the end opens no piece. -/
def terminatedPieces (text : List Char) : List (List Char) :=
  let pieces := text.splitOn '/'
  if pieces.getLast? = some [] then pieces.dropLast else pieces

/-- The walk of a pattern. A pattern that starts with a slash is followed from the root, any
other one from the working directory. An empty piece is a step, too: it stays where it is if
that is a directory with a spelling of its own, and leads nowhere from the working directory.
A pattern without pieces has one such step. -/
def plan (pattern : String) : Except PatternFault Plan := do
  let _ ← tokens pattern
  let (start, rest) := match pattern.toList with
    | '/' :: rest => ("/", rest)
    | text => (".", text)
  let steps ← (terminatedPieces rest).mapM fun piece => do
    return Step.ofTokens (← tokensFrom 0 none piece)
  let last := if rest.isEmpty then [Step.name ""] else []
  return ⟨start, mergeDirectories (steps ++ last), Path.hasFinalSlash pattern⟩

/-- What a walk meets: an entry the pattern names, or a directory it cannot list. -/
inductive Sighting where
  | entry (path : String)
  | unreadable (path : String) (fault : Fault)
deriving DecidableEq, Repr

/-- A path below a directory; the working directory itself is not spelled. -/
def extend (directory name : String) : String :=
  if Path.components directory = [.here] then name else Path.join directory name

def visitBelow (tree : Tree) (visit : String → String → Bool → List Sighting) :
    Nat → String → List Sighting
  | 0, _ => []
  | depth + 1, directory =>
      match tree.list directory with
      | .error fault => [.unreadable directory fault]
      | .ok children =>
          children.flatMap fun (name, node) =>
            let path := extend directory name
            visit path name node.isDirectory
              ++ if node.isDirectory then visitBelow tree visit depth path else []

def walkSteps (tree : Tree) (directoriesOnly : Bool) : List Step → String → List Sighting
  | [], path => if directoriesOnly && !tree.isDirectory path then [] else [.entry path]
  | .name text :: steps, path =>
      let next := extend path text
      let present :=
        if text = "." || text = ".." then tree.isDirectory path else tree.pathExists next
      if present then walkSteps tree directoriesOnly steps next else []
  | .names tokens :: steps, path =>
      if tree.isDirectory path then
        match tree.list path with
        | .error fault => [.unreadable path fault]
        | .ok children =>
            let special := if tokens.head? = some (.literal '.') then ["..", "."] else []
            let dots := special.flatMap fun name =>
              if matchTokens tokens name.toList then
                walkSteps tree directoriesOnly steps (Path.join path name)
              else []
            dots ++ children.flatMap fun (name, _) =>
              if matchTokens tokens name.toList then
                walkSteps tree directoriesOnly steps (extend path name)
              else []
      else []
  | [.directories], path =>
      if tree.isDirectory path then
        visitBelow tree (fun child _ isDirectory => if isDirectory then [.entry child] else [])
          tree.size path
      else []
  | .directories :: step :: steps, path =>
      if tree.isDirectory path then
        visitBelow tree
          (fun child name _ =>
            if step.accepts name then walkSteps tree directoriesOnly steps child else [])
          tree.size path
      else []

def Plan.walk (plan : Plan) (tree : Tree) : List Sighting :=
  walkSteps tree plan.directoriesOnly plan.steps plan.start

end ScopeLowering.Glob
