import Mathlib.Data.List.Basic
import ScopeLowering.Source

/-!
# Redacted trees

The text of a generated file can be taken out of a tree without a trace: paths lead to the same
places, and every question but the one for that text has the same answer. What is written to
two trees that are the same when redacted changes them in the same way.
-/

namespace ScopeLowering.Files

def Node.redacted (node : Node) : Node :=
  match node with
  | ⟨.file (.text text) modified, access⟩ =>
      ⟨.file (.text (if Source.isMarked text then Source.marker else text)) modified, access⟩
  | node => node

namespace Node

@[simp]
theorem access_redacted (node : Node) : node.redacted.access = node.access := by
  obtain ⟨⟨text | bytes, modified⟩ | _, access⟩ := node <;> rfl

@[simp]
theorem isDirectory_redacted (node : Node) : node.redacted.isDirectory = node.isDirectory := by
  obtain ⟨⟨text | bytes, modified⟩ | _, access⟩ := node <;> rfl

@[simp]
theorem isFile_redacted (node : Node) : node.redacted.isFile = node.isFile :=
  congrArg (! ·) node.isDirectory_redacted

end Node

def Place.redacted : Place → Place
  | .occupied key node => .occupied key node.redacted
  | .vacant key => .vacant key

namespace Tree

/-- A tree with the bare marker in place of every generated text. -/
def redacted (tree : Tree) : Tree := { tree with nodes := tree.nodes.mapValues Node.redacted }

variable {tree : Tree} {key : Key} {node : Node}

@[simp]
theorem get?_redacted (tree : Tree) (key : Key) :
    tree.redacted.nodes.get? key = (tree.nodes.get? key).map Node.redacted :=
  Table.get?_mapValues tree.nodes Node.redacted key

@[simp]
theorem size_redacted (tree : Tree) : tree.redacted.size = tree.size := List.length_map ..

/-! ## Paths -/

theorem follow_redacted (pieces : List String) :
    tree.redacted.follow key node.redacted pieces =
      (tree.follow key node pieces).map Place.redacted := by
  induction pieces generalizing key node with
  | nil => rfl
  | cons piece rest ih =>
      rw [follow.eq_def, follow.eq_def tree key node (piece :: rest)]
      dsimp only
      rw [Node.isFile_redacted, Node.access_redacted, get?_redacted, get?_redacted]
      split
      · rfl
      · split
        · exact ih
        · split
          · rfl
          · split
            · exact ih
            · split
              · cases key with
                | nil => rfl
                | cons name names =>
                    cases tree.nodes.get? (name :: names).dropLast with
                    | none => rfl
                    | some parent => exact ih
              · cases tree.nodes.get? (key ++ [piece]) with
                | none =>
                    dsimp only [Option.map_none]
                    split <;> rfl
                | some child => exact ih

theorem locate_redacted (tree : Tree) (path : String) :
    tree.redacted.locate path = (tree.locate path).map Place.redacted := by
  rw [locate, locate, get?_redacted]
  cases tree.nodes.get? [] with
  | none => rfl
  | some top =>
      dsimp only [Option.map_some]
      split
      · rfl
      · exact follow_redacted _

theorem stat_redacted (tree : Tree) (path : String) :
    tree.redacted.stat path = (tree.stat path).map Node.redacted := by
  rw [stat, stat, locate_redacted]
  obtain fault | ⟨key, node⟩ | key := tree.locate path <;> rfl

/-! ## Questions -/

@[simp]
theorem pathExists_redacted (tree : Tree) (path : String) :
    tree.redacted.pathExists path = tree.pathExists path := by
  rw [pathExists, pathExists, stat_redacted]
  cases tree.stat path <;> rfl

@[simp]
theorem isFile_redacted (tree : Tree) (path : String) :
    tree.redacted.isFile path = tree.isFile path := by
  rw [isFile, isFile, stat_redacted]
  cases tree.stat path with
  | error fault => rfl
  | ok node => exact node.isFile_redacted

@[simp]
theorem isDirectory_redacted (tree : Tree) (path : String) :
    tree.redacted.isDirectory path = tree.isDirectory path := by
  rw [isDirectory, isDirectory, stat_redacted]
  cases tree.stat path with
  | error fault => rfl
  | ok node => exact node.isDirectory_redacted

@[simp]
theorem modified?_redacted (tree : Tree) (path : String) :
    tree.redacted.modified? path = tree.modified? path := by
  rw [modified?, modified?, stat_redacted]
  obtain fault | ⟨⟨text | bytes, modified⟩ | _, access⟩ := tree.stat path <;> rfl

/-- The only answer that differs is the text of a generated file. -/
theorem readText_redacted (tree : Tree) (path : String) :
    tree.redacted.readText path = (tree.readText path).map fun text =>
      if Source.isMarked text then Source.marker else text := by
  rw [readText, readText, stat_redacted]
  obtain fault | ⟨⟨text | bytes, modified⟩ | _, access⟩ := tree.stat path
  · rfl
  · simp only [Except.map, Node.redacted]
    split <;> rfl
  · simp only [Except.map, Node.redacted]
    split <;> rfl
  · simp only [Except.map, Node.redacted]
    split <;> rfl

theorem isMarked_marker : Source.isMarked Source.marker = true := by decide +kernel

/-- Reading a source passes generated files over, whatever their text. -/
@[simp]
theorem read_redacted (tree : Tree) (path : String) :
    Source.read tree.redacted path = Source.read tree path := by
  rw [Source.read, Source.read, readText_redacted]
  cases tree.readText path with
  | error fault => rfl
  | ok text =>
      by_cases marked : Source.isMarked text = true
      · simp [Except.map, marked, isMarked_marker]
      · simp [Except.map, marked]

theorem children_redacted (tree : Tree) (key : Key) :
    tree.redacted.children key =
      (tree.children key).map fun child => (child.1, child.2.redacted) := by
  have sorted (named : List (String × Node)) :
      (named.mergeSort fun first second => first.1 ≤ second.1).map
          (fun child => (child.1, child.2.redacted)) =
        (named.map fun child => (child.1, child.2.redacted)).mergeSort
          fun first second => first.1 ≤ second.1 :=
    List.map_mergeSort fun _ _ _ _ => rfl
  unfold children
  dsimp only
  rw [sorted, redacted, Table.mapValues, List.filterMap_map, List.map_filterMap]
  congr 1
  refine List.filterMap_congr fun entry _ => ?_
  obtain ⟨other, node⟩ := entry
  dsimp only [Function.comp]
  cases other.getLast? with
  | none => rfl
  | some name =>
      dsimp only
      split <;> rfl

theorem list_redacted (tree : Tree) (path : String) :
    tree.redacted.list path =
      (tree.list path).map (List.map fun child => (child.1, child.2.redacted)) := by
  rw [list, list, locate_redacted]
  obtain fault | ⟨key, node⟩ | key := tree.locate path
  · rfl
  · simp only [Except.map, Place.redacted, Node.isFile_redacted, Node.access_redacted]
    split
    · rfl
    · split
      · rfl
      · rw [children_redacted]
  · rfl

end Tree

end ScopeLowering.Files
