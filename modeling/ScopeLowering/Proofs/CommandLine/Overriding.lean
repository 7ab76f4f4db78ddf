import ScopeLowering.CommandLine.Run
import ScopeLowering.Files.Edit

/-!
# Settings of a file under a command line

The command line takes the place of what a settings file says, but the file is judged before
that. So a value that is not allowed in the file ends the run, though the command line would
have replaced it or made it allowed.
-/

namespace ScopeLowering

open ScopeLowering.Files (Tree)

namespace Settings

theorem check_eq_ok_iff {settings : Settings} :
    settings.check = .ok () ↔
      settings.wanted ≠ [] ∧ settings.suffix ≠ "" ∧
        (settings.suffix = ".css" → settings.outDirectory ≠ none) ∧
        settings.watching.interval ≠ 0 := by
  have suffix : ¬(settings.suffix = "" ∨ settings.outDirectory.isNone ∧ settings.suffix = ".css") ↔
      settings.suffix ≠ "" ∧ (settings.suffix = ".css" → settings.outDirectory ≠ none) := by
    rw [not_or, not_and', Option.isNone_iff_eq_none]
  unfold check
  split
  · simp_all
  · split
    · rename_i refused
      exact iff_of_false nofun fun ⟨_, named, placed, _⟩ => suffix.mpr ⟨named, placed⟩ refused
    · rename_i accepted
      obtain ⟨named, placed⟩ := suffix.mp accepted
      split <;> simp_all

/-- The settings that a run starts from: those of the file that is asked for, else those of
the usual file, else the standard ones. They need not be allowed. -/
inductive Supplied (tree : Tree) : Option String → Settings → Prop
  | named {path text : String} {file : Settings} (read : tree.readText path = .ok text)
      (decoded : ofJson? text = some file) : Supplied tree (some path) file
  | usual {text : String} {file : Settings} (present : tree.pathExists fileName = true)
      (read : tree.readText fileName = .ok text) (decoded : ofJson? text = some file) :
      Supplied tree none file
  | absent (missing : tree.pathExists fileName = false) : Supplied tree none standard

theorem load_of_decoded {tree : Tree} {path text : String} {file : Settings}
    (read : tree.readText path = .ok text) (decoded : ofJson? text = some file) :
    load tree path = file.check.map fun _ => file := by
  rw [load, read]
  simp only [ofText, decoded]

end Settings

namespace CommandLine

variable {tree : Tree} {arguments : Arguments} {file : Settings}

/-- Settings that are loaded and then overridden are judged twice. -/
theorem override_of_loaded {loaded : Except Failure Settings}
    (judged : loaded = file.check.map fun _ => file) :
    (do
      let loaded ← loaded
      let settings := override loaded arguments
      settings.check
      return settings) =
      (file.check.bind fun _ => (override file arguments).check).map
        fun _ => override file arguments := by
  subst judged
  cases file.check with
  | error failure => rfl
  | ok =>
      change ((override file arguments).check >>= fun _ => pure (override file arguments)) =
        (override file arguments).check.map fun _ => override file arguments
      cases (override file arguments).check <;> rfl

/-- The file is judged, then the settings that the command line makes of it. -/
theorem loadSettings_eq (supplied : Settings.Supplied tree arguments.config file) :
    loadSettings tree arguments =
      (file.check.bind fun _ => (override file arguments).check).map
        fun _ => override file arguments := by
  cases chosen : arguments.config with
  | some path =>
      rw [chosen] at supplied
      cases supplied with
      | named read decoded =>
          rw [loadSettings, chosen]
          exact override_of_loaded (Settings.load_of_decoded read decoded)
  | none =>
      rw [chosen] at supplied
      rw [loadSettings, chosen]
      refine override_of_loaded ?_
      cases supplied with
      | usual present read decoded =>
          rw [Settings.loadOrStandard, if_pos present]
          exact Settings.load_of_decoded read decoded
      | absent missing =>
          rw [Settings.loadOrStandard, if_neg (by simp [missing])]
          rfl

/-- The settings of a run are those of the file with what the command line says in their place,
judged as they then are, just where the file passes the check by itself or fails it in the same
way. The file fails it by a value that the command line makes good exactly if it has no
patterns, an empty suffix, or the suffix of stylesheets without an output directory. -/
theorem loadSettings_supplied (supplied : Settings.Supplied tree arguments.config file) :
    loadSettings tree arguments =
      (file.check.bind fun _ => (override file arguments).check).map
        (fun _ => override file arguments) ∧
    (loadSettings tree arguments =
        (override file arguments).check.map (fun _ => override file arguments) ↔
      file.check = .ok () ∨ file.check = (override file arguments).check) ∧
    ((override file arguments).check = .ok () →
      (loadSettings tree arguments = .ok (override file arguments) ↔
        file.wanted ≠ [] ∧ file.suffix ≠ "" ∧
          (file.suffix = ".css" → file.outDirectory ≠ none))) := by
  have loaded := loadSettings_eq supplied
  refine ⟨loaded, ?_, fun accepted => ?_⟩
  · rw [loaded]
    cases file.check with
    | ok => simp [Except.bind]
    | error failure =>
        cases (override file arguments).check with
        | error other => simp [Except.bind, Except.map]
        | ok => simp [Except.bind, Except.map]
  · have interval := (Settings.check_eq_ok_iff.mp accepted).2.2.2
    have judged : loadSettings tree arguments = .ok (override file arguments) ↔
        file.check = .ok () := by
      rw [loaded, accepted]
      cases file.check with
      | ok => simp [Except.bind, Except.map]
      | error failure => simp [Except.bind, Except.map]
    rw [judged, Settings.check_eq_ok_iff]
    simp only [and_assoc.symm]
    exact and_iff_left interval

def settingsTree (path text : String) : Tree := Tree.empty.edit (.write path (.text text) 0)

def stylesheetsInto (directory : Option String) : Settings :=
  { Settings.standard with outDirectory := directory, suffix := ".css" }

def intoDist : Arguments := { Arguments.empty with outDirectory := some "dist" }

def placedTree : Tree :=
  settingsTree "scope-polyfill.json" "\x7b\"suffix\":\".css\",\"outDir\":\"out\"\x7d"

/-- Another output directory keeps the suffix allowed. -/
theorem loadSettings_supplied_placedTree :
    Settings.Supplied placedTree intoDist.config (stylesheetsInto (some "out")) ∧
      (override (stylesheetsInto (some "out")) intoDist).check = .ok () ∧
      loadSettings placedTree intoDist = .ok (stylesheetsInto (some "dist")) := by
  have read : placedTree.readText Settings.fileName =
      .ok "\x7b\"suffix\":\".css\",\"outDir\":\"out\"\x7d" := rfl
  have supplied : Settings.Supplied placedTree intoDist.config (stylesheetsInto (some "out")) :=
    .usual (by decide +kernel) read (by decide +kernel)
  exact ⟨supplied, rfl, ((loadSettings_supplied supplied).2.2 rfl).mpr (by decide)⟩

def unplacedTree : Tree := settingsTree "c.json" "\x7b\"suffix\":\".css\"\x7d"

/-- An output directory makes the suffix of a file allowed, and yet the file is refused. -/
theorem exists_refused_settings : ∃ arguments file,
    (Arguments.parse ["-o", "dist", "-c", "c.json"]).toOption = some arguments ∧
      Settings.Supplied unplacedTree arguments.config file ∧
      override file arguments = stylesheetsInto (some "dist") ∧
      (override file arguments).check = .ok () ∧
      loadSettings unplacedTree arguments = .error (.setting "suffix" ".css") := by
  have read : unplacedTree.readText "c.json" = .ok "\x7b\"suffix\":\".css\"\x7d" := rfl
  have supplied : Settings.Supplied unplacedTree (some "c.json") (stylesheetsInto none) :=
    .named read (by decide +kernel)
  exact ⟨{ intoDist with config := some "c.json" }, _, by decide +kernel, supplied, rfl, rfl,
    (loadSettings_eq supplied).trans rfl⟩

end CommandLine

end ScopeLowering
