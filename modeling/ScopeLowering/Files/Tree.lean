import ScopeLowering.Path
import ScopeLowering.Table

/-!
# File trees

The files and directories below a working directory. A path is followed step by step from the top
of the tree: each directory on the way must allow it, a dot stays, and two dots go up. Nothing is
known outside the tree, neither above its top nor from the root.
-/

namespace ScopeLowering.Files

inductive Fault where
  | notFound
  | denied
  | alreadyExists
  | notADirectory
  | isADirectory
  | notText
deriving DecidableEq, Repr

def Fault.message : Fault → String
  | .notFound => "No such file or directory (os error 2)"
  | .denied => "Permission denied (os error 13)"
  | .alreadyExists => "File exists (os error 17)"
  | .notADirectory => "Not a directory (os error 20)"
  | .isADirectory => "Is a directory (os error 21)"
  | .notText => "stream did not contain valid UTF-8"

/-- What a file holds: text, or bytes that are not the UTF-8 encoding of any text. -/
inductive Content where
  | text (text : String)
  | bytes (bytes : List UInt8)
deriving DecidableEq, Repr

def Content.ofBytes (bytes : List UInt8) : Content :=
  match String.fromUTF8? ⟨bytes.toArray⟩ with
  | some decoded => .text decoded
  | none => .bytes bytes

inductive Entry where
  | file (content : Content) (modified : Int)
  | directory
deriving DecidableEq, Repr

/-- What the permissions of an entry allow: everything, all but changes, or nothing. -/
inductive Access where
  | writable
  | readable
  | locked
deriving DecidableEq, Repr

structure Node where
  entry : Entry
  access : Access
deriving DecidableEq, Repr

def Node.isDirectory (node : Node) : Bool := node.entry = .directory

def Node.isFile (node : Node) : Bool := !node.isDirectory

/-- The names that lead from the top of the tree to an entry. -/
abbrev Key := List String

/-- The entries below a working directory, and the time at which files are written. -/
structure Tree where
  nodes : Table Key Node
  clock : Int
deriving DecidableEq, Repr

/-- Where a path leads: to an entry, or to a free name in a directory. -/
inductive Place where
  | occupied (key : Key) (node : Node)
  | vacant (key : Key)
deriving DecidableEq, Repr

namespace Tree

def empty : Tree := ⟨⟨[([], ⟨.directory, .writable⟩)]⟩, 0⟩

def size (tree : Tree) : Nat := tree.nodes.size

def follow (tree : Tree) : Key → Node → List String → Except Fault Place
  | key, node, [] => .ok (.occupied key node)
  | key, node, piece :: rest =>
      if node.isFile then .error .notADirectory
      else if piece = "" then tree.follow key node rest
      else if node.access = .locked then .error .denied
      else if piece = "." then tree.follow key node rest
      else if piece = ".." then
        match key, tree.nodes.get? key.dropLast with
        | _ :: _, some parent => tree.follow key.dropLast parent rest
        | _, _ => .error .notFound
      else
        match tree.nodes.get? (key ++ [piece]) with
        | some child => tree.follow (key ++ [piece]) child rest
        | none => if rest.all (· = "") then .ok (.vacant (key ++ [piece])) else .error .notFound

/-- The place a path leads to. A path from the root leads out of the tree. -/
def locate (tree : Tree) (path : String) : Except Fault Place :=
  match tree.nodes.get? [] with
  | some top =>
      if path = "" || Path.isAbsolute path then .error .notFound
      else tree.follow [] top (Path.pieces path)
  | none => .error .notFound

def stat (tree : Tree) (path : String) : Except Fault Node :=
  match tree.locate path with
  | .ok (.occupied _ node) => .ok node
  | .ok (.vacant _) => .error .notFound
  | .error fault => .error fault

def pathExists (tree : Tree) (path : String) : Bool := (tree.stat path).isOk

def isFile (tree : Tree) (path : String) : Bool :=
  match tree.stat path with
  | .ok node => node.isFile
  | .error _ => false

def isDirectory (tree : Tree) (path : String) : Bool :=
  match tree.stat path with
  | .ok node => node.isDirectory
  | .error _ => false

def modified? (tree : Tree) (path : String) : Option Int :=
  match tree.stat path with
  | .ok ⟨.file _ modified, _⟩ => some modified
  | _ => none

def readText (tree : Tree) (path : String) : Except Fault String :=
  match tree.stat path with
  | .error fault => .error fault
  | .ok node =>
      if node.access = .locked then .error .denied
      else match node.entry with
        | .file (.text text) _ => .ok text
        | .file (.bytes _) _ => .error .notText
        | .directory => .error .isADirectory

def children (tree : Tree) (key : Key) : List (String × Node) :=
  let named := tree.nodes.entries.filterMap fun (other, node) =>
    match other.getLast? with
    | some name => if other = key ++ [name] then some (name, node) else none
    | none => none
  named.mergeSort fun first second => first.1 ≤ second.1

def list (tree : Tree) (path : String) : Except Fault (List (String × Node)) :=
  match tree.locate path with
  | .error fault => .error fault
  | .ok (.vacant _) => .error .notFound
  | .ok (.occupied key node) =>
      if node.isFile then .error .notADirectory
      else if node.access = .locked then .error .denied
      else .ok (tree.children key)

def create (tree : Tree) (key : Key) (entry : Entry) : Except Fault Tree :=
  match tree.nodes.get? key.dropLast with
  | some ⟨.directory, .writable⟩ =>
      .ok { tree with nodes := tree.nodes.insert key ⟨entry, .writable⟩ }
  | some _ => .error .denied
  | none => .error .notFound

def makeDirectory (tree : Tree) (path : String) : Except Fault Tree :=
  match tree.locate path with
  | .error fault => .error fault
  | .ok (.occupied _ _) => .error .alreadyExists
  | .ok (.vacant key) => tree.create key .directory

/-- Makes the first of the given directories, after the ones above it where one is
missing. A directory that exists needs no making. -/
def makeChain (tree : Tree) : List String → Tree × Option Fault
  | [] => (tree, none)
  | path :: above =>
      match tree.makeDirectory path with
      | .ok tree => (tree, none)
      | .error .notFound =>
          match tree.makeChain above with
          | (tree, some fault) => (tree, some fault)
          | (tree, none) => settle tree path (tree.makeDirectory path)
      | .error fault => settle tree path (.error fault)
where
  settle (tree : Tree) (path : String) : Except Fault Tree → Tree × Option Fault
  | .ok made => (made, none)
  | .error fault => (tree, if tree.isDirectory path then none else some fault)

/-- Makes a directory and the directories above it. What was made before a fault stays. -/
def makeDirectories (tree : Tree) (path : String) : Tree × Option Fault :=
  tree.makeChain (Path.ancestors path)

def write (tree : Tree) (path : String) (content : Content) : Except Fault Tree :=
  let bare := String.ofList (Text.dropTrailing (· = '/') path.toList)
  match tree.locate (if bare = "" then path else bare) with
  | .error fault => .error fault
  | .ok place =>
      if Path.hasFinalSlash path then .error .isADirectory
      else match place with
        | .occupied _ ⟨.directory, _⟩ => .error .isADirectory
        | .occupied key ⟨.file _ _, .writable⟩ =>
            let node := ⟨.file content tree.clock, .writable⟩
            .ok { tree with nodes := tree.nodes.insert key node }
        | .occupied _ _ => .error .denied
        | .vacant key => tree.create key (.file content tree.clock)

def files (tree : Tree) : List (String × Content) :=
  let named := tree.nodes.entries.filterMap fun (key, node) =>
    match node.entry with
    | .file content _ => some ("/".intercalate key, content)
    | .directory => none
  named.mergeSort fun first second => first.1 ≤ second.1

end Tree

end ScopeLowering.Files
