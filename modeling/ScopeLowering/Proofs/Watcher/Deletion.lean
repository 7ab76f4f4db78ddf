import ScopeLowering.Proofs.Files.Respelling
import ScopeLowering.Proofs.Glob.Spelling
import ScopeLowering.Proofs.Watcher.Run

/-!
# Deletions

A watcher reports a known file as deleted when its search sees the whole of a tree and there
is no file at the path. Permissions can make it look so: a directory that a pattern passes by
name is not listed, so nobody notices that it is closed.
-/

namespace ScopeLowering.Source.Search

open ScopeLowering.Files (Tree)
open ScopeLowering.Glob (Plan)

end ScopeLowering.Source.Search

namespace ScopeLowering.Watcher

open ScopeLowering.Files (Tree)
open ScopeLowering.Source (Finding Search)

section

variable {search : Search} {acts : List Act}

end

end ScopeLowering.Watcher
