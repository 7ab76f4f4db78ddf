import ScopeLowering.CommandLine.Run

/-!
# The program

Reads the working directory into a file tree, runs the command line on it, and writes
what has changed. Everything between reading and writing is decided by the library.
-/

namespace ScopeLowering

open ScopeLowering.CommandLine (Arguments Outcome Refusal Watch)
open ScopeLowering.Files (Content Entry Key Node Tree)
open ScopeLowering.Output (World)

def changeTime (info : IO.FS.Metadata) : Int :=
  info.modified.sec * 1000000000 + info.modified.nsec.toNat

partial def readEntry (above : Key) (tree : Tree) (entry : IO.FS.DirEntry) : IO Tree := do
  let key := above ++ [entry.fileName]
  let add (node : Node) : Tree := { tree with nodes := tree.nodes.insert key node }
  match ← entry.path.metadata.toBaseIO with
  | .error _ => return tree
  | .ok info =>
      if info.type == .dir then
        match ← entry.path.readDir.toBaseIO with
        | .error _ => return add ⟨.directory, .locked⟩
        | .ok entries => entries.foldlM (readEntry key) (add ⟨.directory, .writable⟩)
      else
        match ← (IO.FS.readBinFile entry.path).toBaseIO with
        | .error _ => return add ⟨.file (.text "") (changeTime info), .locked⟩
        | .ok bytes =>
            return add ⟨.file (Content.ofBytes bytes.toList) (changeTime info), .writable⟩

def readTree : IO Tree := do
  let entries ← (← IO.currentDir).readDir
  entries.foldlM (readEntry []) Tree.empty

def writeChanges (earlier later : Tree) : IO Unit :=
  for (key, node) in later.nodes.entries do
    if earlier.nodes.get? key != some node then
      let path := "/".intercalate key
      match node.entry with
      | .directory => IO.FS.createDirAll path
      | .file (.text text) _ => IO.FS.writeFile path text
      | .file (.bytes _) _ => pure ()

def showWorld (earlier : Tree) (world : World) (console : Log.Level) : IO Unit := do
  writeChanges earlier world.tree
  (← IO.getStdout).putStr world.printed
  (← IO.getStdout).flush
  (← IO.getStderr).putStr (Log.console console world.log)

/-- Waits for some milliseconds. A single wait has 32 bits, so a longer one is made of parts. -/
def pause (milliseconds : UInt64) : IO Unit := do
  for _ in [0:milliseconds.toNat / longestWait.toNat] do
    IO.sleep longestWait
  IO.sleep (milliseconds % longestWait.toUInt64).toUInt32
where
  longestWait : UInt32 := 0xFFFFFFFF

partial def watchForever (watch : Watch) (interval : UInt64) (console : Log.Level) : IO Unit := do
  let tree ← readTree
  let (watch, world) := watch.round (World.ofTree tree)
  showWorld tree world console
  pause interval
  watchForever watch interval console

def runArguments (arguments : Arguments) : IO UInt32 := do
  let tree ← readTree
  let input ←
    if arguments.readsInput then (← IO.getStdin).readBinToEnd else pure ByteArray.empty
  let outcome := CommandLine.run tree arguments (Content.ofBytes input.toList)
  showWorld tree outcome.world outcome.console
  match outcome.ending with
  | .exit code => return code.toUInt32
  | .failure failure =>
      (← IO.getStderr).putStrLn s!"Error: {failure.fullMessage}"
      return 2
  | .watching watch interval =>
      watchForever watch interval outcome.console
      return 0

end ScopeLowering

def main (commandLine : List String) : IO UInt32 := do
  match ScopeLowering.CommandLine.Arguments.parse commandLine with
  | .ok arguments => ScopeLowering.runArguments arguments
  | .error refusal =>
      match refusal.complaint? with
      | some complaint =>
          (← IO.getStderr).putStrLn s!"error: {complaint}\n\n{ScopeLowering.CommandLine.usage}"
          return 2
      | none =>
          let text := if refusal = .displayVersion then ScopeLowering.CommandLine.versionText
            else ScopeLowering.CommandLine.usage
          (← IO.getStdout).putStr text
          return 0
