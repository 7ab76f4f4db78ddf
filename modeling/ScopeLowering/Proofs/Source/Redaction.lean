import ScopeLowering.Proofs.Files.Redaction
import ScopeLowering.Proofs.Json.Reading
import ScopeLowering.Proofs.Text.Keyword
import ScopeLowering.Settings
import ScopeLowering.Watcher

/-!
# Searches and settings of redacted trees

No walk, no search and no round of a watcher looks into a file, so all of them go on a redacted
tree as on the tree itself. A settings file is looked into, but no generated text is a JSON text,
for none starts with a slash: a settings file that is generated output is malformed, whatever its
text.
-/

namespace ScopeLowering

open ScopeLowering.Files (Tree)

namespace Glob

theorem visitBelow_redacted (tree : Tree) (visit : String → String → Bool → List Sighting)
    (depth : Nat) (directory : String) :
    visitBelow tree.redacted visit depth directory = visitBelow tree visit depth directory := by
  induction depth generalizing directory with
  | zero => rfl
  | succ depth ih =>
      rw [visitBelow, visitBelow, Tree.list_redacted]
      cases tree.list directory with
      | error fault => rfl
      | ok children =>
          dsimp only [Except.map]
          rw [List.flatMap_map]
          simp only [Files.Node.isDirectory_redacted, ih]

theorem walkSteps_redacted (tree : Tree) (directoriesOnly : Bool) :
    (steps : List Step) → (path : String) →
      walkSteps tree.redacted directoriesOnly steps path =
        walkSteps tree directoriesOnly steps path
  | [], path => by simp only [walkSteps, Tree.isDirectory_redacted]
  | .name text :: steps, path => by
      simp only [walkSteps, Tree.isDirectory_redacted, Tree.pathExists_redacted,
        walkSteps_redacted tree directoriesOnly steps]
  | .names tokens :: steps, path => by
      simp only [walkSteps, Tree.isDirectory_redacted, Tree.list_redacted,
        walkSteps_redacted tree directoriesOnly steps]
      cases tree.list path with
      | error fault => rfl
      | ok children =>
          simp only [Except.map, List.flatMap_map]
  | [.directories], path => by
      simp only [walkSteps, Tree.isDirectory_redacted, visitBelow_redacted, Tree.size_redacted]
  | .directories :: step :: steps, path => by
      simp only [walkSteps, Tree.isDirectory_redacted, visitBelow_redacted, Tree.size_redacted,
        walkSteps_redacted tree directoriesOnly steps]

end Glob

theorem Source.Search.run_redacted (search : Source.Search) (tree : Tree) :
    search.run tree.redacted = search.run tree := by
  have collects : search.collect tree.redacted = search.collect tree := by
    funext finding sighting
    cases sighting with
    | entry path => simp only [collect, Tree.isFile_redacted]
    | unreadable path fault => rfl
  simp only [run, Glob.Plan.walk, Glob.walkSteps_redacted, collects]

namespace Watcher

theorem scan_redacted (search : Source.Search) (tree : Tree) (records : Records) :
    scan search tree.redacted records = scan search tree records := by
  simp only [scan, search.run_redacted, noteAll, missing, Tree.modified?_redacted]

theorem prime_redacted (watcher : Watcher) (tree : Tree) :
    watcher.prime tree.redacted = watcher.prime tree := by
  simp only [prime, scan_redacted]

theorem poll_redacted (watcher : Watcher) (tree : Tree) :
    watcher.poll tree.redacted = watcher.poll tree := by
  simp only [poll, scan_redacted]

end Watcher

/-! ## Generated files as settings -/

namespace Json

/-- Behind blanks and a slash no value is read. -/
theorem exists_skipBlanks {blanks : List Char} (blank : Text.AllBlank blanks) (rest : List Char) :
    ∃ c tail, skipBlanks (blanks ++ '/' :: rest) = c :: tail ∧ startsValue c = false := by
  have valueless : ∀ c ∈ Text.blankCharacters, (!startsValue c) = true :=
    List.all_eq_true.mp (by decide +kernel)
  induction blanks with
  | nil => exact ⟨'/', rest, rfl, by decide⟩
  | cons c blanks ih =>
      by_cases skipped : isBlank c = true
      · obtain ⟨d, tail, start, other⟩ := ih fun e member => blank e (List.mem_cons_of_mem c member)
        refine ⟨d, tail, ?_, other⟩
        rwa [List.cons_append, skipBlanks, List.dropWhile_cons_of_pos skipped]
      · refine ⟨c, blanks ++ '/' :: rest, ?_, ?_⟩
        · rw [List.cons_append, skipBlanks, List.dropWhile_cons_of_neg skipped]
        · simpa using valueless c (Text.mem_blankCharacters (blank c List.mem_cons_self))

end Json

theorem Source.exists_of_isMarked {text : String} (marked : isMarked text = true) :
    ∃ blanks rest, text.toList = blanks ++ '/' :: rest ∧ Text.AllBlank blanks := by
  obtain ⟨rest, start⟩ := List.isPrefixOf_iff_prefix.mp marked
  obtain ⟨blanks, shape, blank⟩ := (Text.trimStart_eq_cons_iff (by decide)).mp start.symm
  exact ⟨blanks, _, shape, blank⟩

namespace Settings

theorem ofText_of_isMarked {text : String} (marked : Source.isMarked text = true) :
    ofText text = .error .malformedSettings := by
  obtain ⟨blanks, rest, shape, blank⟩ := Source.exists_of_isMarked marked
  obtain ⟨c, tail, start, other⟩ := Json.exists_skipBlanks blank rest
  rw [← shape] at start
  have unread : ofJson? text = none := by
    rw [ofJson?, Json.parse?, Json.readValue_eq_none other start]
    rfl
  rw [ofText, unread]

/-- A settings file gives the same settings in a redacted tree. -/
theorem load_redacted (tree : Tree) (path : String) : load tree.redacted path = load tree path := by
  rw [load, load, Tree.readText_redacted]
  cases tree.readText path with
  | error fault => rfl
  | ok text =>
      by_cases marked : Source.isMarked text = true
      · simp only [Except.map, marked, if_true, ofText_of_isMarked Tree.isMarked_marker,
          ofText_of_isMarked marked]
      · simp only [Except.map, marked, if_false, Bool.false_eq_true]

theorem loadOrStandard_redacted (tree : Tree) (path : String) :
    loadOrStandard tree.redacted path = loadOrStandard tree path := by
  rw [loadOrStandard, loadOrStandard, Tree.pathExists_redacted, load_redacted]

end Settings

end ScopeLowering
