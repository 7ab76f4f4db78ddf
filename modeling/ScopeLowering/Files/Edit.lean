import ScopeLowering.Files.Tree

/-!
# Edits

Changes made to a file tree from outside the program, by the owner of the files. An
edit that cannot be made leaves the tree as it is.
-/

namespace ScopeLowering.Files

inductive Edit where
  | write (path : String) (content : Content) (modified : Int)
  | makeDirectory (path : String)
  | touch (path : String) (modified : Int)
  | remove (path : String)
  | restrict (path : String) (access : Access)
  | unlock
deriving DecidableEq, Repr

namespace Tree

def update (tree : Tree) (path : String) (change : Node → Node) : Tree :=
  match tree.locate path with
  | .ok (.occupied key node) => { tree with nodes := tree.nodes.insert key (change node) }
  | _ => tree

def remove (tree : Tree) (path : String) : Tree :=
  match tree.locate path with
  | .ok (.occupied key _) =>
      { tree with nodes := tree.nodes.filter fun other _ => !key.isPrefixOf other }
  | _ => tree

/-- Writes a file with a given time of change, in directories made as needed. -/
def place (tree : Tree) (path : String) (content : Content) (modified : Int) : Tree :=
  let ready := (tree.makeDirectories ((Path.parent? path).getD "")).1
  match { ready with clock := modified }.write path content with
  | .ok written => { written with clock := tree.clock }
  | .error _ => ready

def edit (tree : Tree) : Edit → Tree
  | .write path content modified => tree.place path content modified
  | .makeDirectory path => (tree.makeDirectories path).1
  | .touch path modified =>
      tree.update path fun node =>
        match node.entry with
        | .file content _ => { node with entry := .file content modified }
        | .directory => node
  | .remove path => tree.remove path
  | .restrict path access => tree.update path fun node => { node with access := access }
  | .unlock =>
      { tree with nodes := tree.nodes.mapValues fun node => { node with access := .writable } }

end Tree

end ScopeLowering.Files
