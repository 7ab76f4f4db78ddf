import ScopeLowering.CommandLine.Run
import ScopeLowering.Proofs.Files.Above
import ScopeLowering.Proofs.Session.Success
import ScopeLowering.Proofs.Source.Finding

/-!
# The exit code

A run over files ends with the exit code 0 if and only if the search was complete and the session
had no failure over the files found. Else it ends with the exit code 1. It changes output files
only.
-/

namespace ScopeLowering.CommandLine

open ScopeLowering.Files (Content Key Tree)
open ScopeLowering.Output (Layout World)
open ScopeLowering.Session (Flawless Yields)
open ScopeLowering.Source (Finding Search)

theorem exitCode_eq_zero_iff {failed : Nat} : exitCode failed = 0 ↔ failed = 0 := by
  unfold exitCode
  split
  · exact iff_of_true rfl ‹_›
  · exact iff_of_false Nat.one_ne_zero ‹_›

theorem exitCode_cases (failed : Nat) : exitCode failed = 0 ∨ exitCode failed = 1 := by
  unfold exitCode
  split
  · exact .inl rfl
  · exact .inr rfl

theorem tree_warnAll (world : World) (introduction : String) (failures : List Failure) :
    (warnAll world introduction failures).tree = world.tree := by
  unfold warnAll
  induction failures generalizing world with
  | nil => rfl
  | cons failure failures ih => exact ih _

/-- Command lines of a single run over files, with the settings of that run and what is found. -/
structure FileRun (tree : Tree) (arguments : Arguments) (settings : Settings)
    (finding : Finding) : Prop where
  loaded : loadSettings tree arguments = .ok settings
  awake : settings.nativeScope = false
  files : arguments.readsInput = false
  once : arguments.watch = false
  written : arguments.standardOutput = false
  found : ∃ search, Search.make settings.wanted settings.excluded = .ok search ∧
    search.run tree = .ok finding
  named : Source.standardInput ∉ finding.paths

section

variable {tree : Tree} {arguments : Arguments} {settings : Settings} {finding : Finding}

theorem FileRun.nodup (single : FileRun tree arguments settings finding) : finding.paths.Nodup := by
  obtain ⟨search, -, found⟩ := single.found
  exact (Search.ordered_of_run found).nodup.of_map

variable [TextHash]

/-- A run over files is one batch of a new session. -/
theorem FileRun.run_eq (single : FileRun tree arguments settings finding) (input : Content) :
    ∃ world, world.tree = tree ∧
      (run tree arguments input).ending = .exit (exitCode
        (((Session.ofSettings settings false).lowerFiles world finding.paths).report.failed +
          finding.failures.length)) ∧
      (run tree arguments input).world.tree =
        ((Session.ofSettings settings false).lowerFiles world finding.paths).world.tree := by
  obtain ⟨search, made, found⟩ := single.found
  have quiet : (Session.ofSettings settings false).announce (World.ofTree tree) =
      World.ofTree tree := by
    rw [Session.announce, Session.ofSettings, single.awake]
    rfl
  have ran : (run tree arguments input).ending =
        (runFiles (Session.ofSettings settings false) (.ofTree tree) settings false).1 ∧
      (run tree arguments input).world =
        (runFiles (Session.ofSettings settings false) (.ofTree tree) settings false).2 := by
    simp only [run, single.loaded, single.files, single.written, single.once, quiet,
      Bool.false_eq_true, if_false, and_self]
  refine ⟨warnAll (.ofTree tree) "Skipping glob entry" finding.failures,
    tree_warnAll _ _ _, ?_, ?_⟩
  · rw [ran.1]
    simp only [runFiles, made, World.ofTree, found, Bool.false_eq_true, if_false]
  · rw [ran.2]
    simp only [runFiles, made, World.ofTree, found, Bool.false_eq_true, if_false]
    rfl

/-- The exit code tells whether all went well: every directory was listed, every file was read,
and every output file was written for one source only. It then holds the rules of that source, as
different output files do not share a file. In any case nothing but output files and directories
is written. -/
theorem exit_zero_iff (single : FileRun tree arguments settings finding) (input : Content)
    (apart : ∀ first ∈ finding.paths, ∀ second ∈ finding.paths, ∀ css rules key,
      Yields tree first css → Yields tree second rules →
      (run tree arguments input).world.tree.Reaches
        ((Session.ofSettings settings false).layout.outputFile first) key →
      (run tree arguments input).world.tree.Reaches
        ((Session.ofSettings settings false).layout.outputFile second) key →
      Path.components ((Session.ofSettings settings false).layout.outputFile first) =
        Path.components ((Session.ofSettings settings false).layout.outputFile second)) :
    ((run tree arguments input).ending = .exit 0 ∨ (run tree arguments input).ending = .exit 1) ∧
    ((run tree arguments input).ending = .exit 0 ↔ finding.complete = true ∧
      Flawless (Session.ofSettings settings false) tree finding.paths) ∧
    ((run tree arguments input).ending = .exit 0 →
      ∀ path ∈ finding.paths, ∀ css, Yields tree path css →
        (run tree arguments input).world.tree.readText
          ((Session.ofSettings settings false).layout.outputFile path) =
            .ok (Source.marker ++ "\n" ++ css ++ "\n")) ∧
    ∀ key, tree.Fate (run tree arguments input).world.tree
      (fun file => ∃ path ∈ finding.paths, (∃ css, Yields tree path css) ∧
        (Session.ofSettings settings false).layout.outputFile path = file) key := by
  obtain ⟨world, rfl, ending, after⟩ := single.run_eq input
  rw [after] at apart ⊢
  have zero : (run world.tree arguments input).ending = .exit 0 ↔ finding.complete = true ∧
      Flawless (Session.ofSettings settings false) world.tree finding.paths := by
    rw [ending, Ending.exit.injEq, exitCode_eq_zero_iff, Nat.add_eq_zero_iff,
      Session.failed_lowerFiles_iff single.awake single.nodup single.named, List.length_eq_zero_iff,
      Finding.complete, List.isEmpty_iff, and_comm]
  refine ⟨?_, zero, ?_, ?_⟩
  · rw [ending, Ending.exit.injEq, Ending.exit.injEq]
    exact exitCode_cases _
  · intro ended path member css yields
    refine Session.readText_of_flawless single.awake single.named (zero.mp ended).2 member yields ?_
    intro other inside rules key asks mine others
    exact apart path member other inside css rules key yields asks mine others
  · exact Session.fate_lowerFiles_ofSettings single.awake world single.named

end

def workDirectory : Tree :=
  ((Tree.empty.edit (.write "a.css" (.text (Session.cardSource "" "0").text) 0)).edit
    (.write "pages/b.css" (.text (Session.cardSource "" "1").text) 0)).edit
    (.write "a.scoped.css" (.text (Output.render "old")) 0)

def threePaths : Arguments :=
  { Arguments.empty with paths := ["pages/*.css", "a.css", "a.scoped.css"] }

def foundPaths : Finding := ⟨["a.css", "a.scoped.css", "pages/b.css"], []⟩

/-- A run that writes two output files, one of them anew. -/
theorem exit_zero_iff_workDirectory :
    (run workDirectory threePaths (.text "")).ending = .exit 0 ∧
      Flawless (Session.ofSettings { Settings.standard with wanted := threePaths.paths } false)
        workDirectory foundPaths.paths ∧
      (run workDirectory threePaths (.text "")).world.tree.readText "a.scoped.css" =
        .ok (Source.marker ++ "\n" ++ ".card p \x7b top: 0 \x7d" ++ "\n") := by
  have single : FileRun workDirectory threePaths
      { Settings.standard with wanted := threePaths.paths } foundPaths :=
    ⟨by decide +kernel, rfl, rfl, rfl, rfl, ⟨⟨threePaths.paths, []⟩, rfl, by decide +kernel⟩,
      by decide⟩
  have ended : (run workDirectory threePaths (.text "")).ending = .exit 0 := by decide +kernel
  have keys : ∀ first ∈ foundPaths.paths, ∀ second ∈ foundPaths.paths,
      (run workDirectory threePaths (.text "")).world.tree.key?
          ((Session.ofSettings .standard false).layout.outputFile first) =
        (run workDirectory threePaths (.text "")).world.tree.key?
          ((Session.ofSettings .standard false).layout.outputFile second) →
      Path.components ((Session.ofSettings .standard false).layout.outputFile first) =
        Path.components ((Session.ofSettings .standard false).layout.outputFile second) := by
    decide +kernel
  obtain ⟨-, zero, filled, -⟩ := exit_zero_iff single (.text "") (by
    intro first inside second member css rules key _ _ reaches others
    rw [Tree.reaches_iff_key?] at reaches others
    exact keys first inside second member (reaches.trans others.symm))
  have yields : Yields workDirectory "a.css" ".card p \x7b top: 0 \x7d" := by
    refine ⟨(Session.cardSource "" "0").text, ".card p \x7b top: 0 \x7d".toList, ?_, ?_, ?_, ?_⟩
    · decide +kernel
    · decide +kernel
    · decide +kernel
    · rfl
  exact ⟨ended, (zero.mp ended).2, filled ended "a.css" (by decide) _ yields⟩

end ScopeLowering.CommandLine
