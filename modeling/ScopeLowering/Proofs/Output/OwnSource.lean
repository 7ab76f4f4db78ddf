import ScopeLowering.Proofs.Files.Above
import ScopeLowering.Session

/-!
# Sources and their output files

The output file of a source has the stem of the source in its name, and lies in the output
directory or else next to the source. So it is the source itself if the directory is the one of
the source and the suffix is what follows the stem in the name of the source. The check of the
settings rules this out in one case only: no output directory, and a source with the extension
of stylesheets.
-/

namespace ScopeLowering.Path

theorem exists_stem_append (name : String) : ∃ extension, name = stem name ++ extension := by
  unfold stem
  dsimp only
  split
  · rename_i dot c before cut
    refine ⟨String.ofList (name.toList.reverse.takeWhile (· != '.') ++ [dot]).reverse, ?_⟩
    have whole := List.takeWhile_append_dropWhile (p := (· != '.')) (l := name.toList.reverse)
    rw [cut] at whole
    apply String.toList_inj.mp
    rw [String.toList_append, String.toList_ofList, String.toList_ofList, ← List.reverse_append,
      List.append_assoc, List.singleton_append, whole, List.reverse_reverse]
  · exact ⟨"", String.append_empty.symm⟩

theorem slash_not_mem_stem {name : String} (plain : '/' ∉ name.toList) :
    '/' ∉ (stem name).toList := by
  obtain ⟨extension, spelled⟩ := exists_stem_append name
  rw [spelled, String.toList_append, List.mem_append, not_or] at plain
  exact plain.1

theorem stem_ne_empty {name : String} (named : name ≠ "") : stem name ≠ "" := by
  unfold stem
  dsimp only
  split
  · simp
  · exact named

/-- A path is joined to a directory by its first part. -/
theorem join_append {first : String} (named : first ≠ "") (directory rest : String) :
    join directory (first ++ rest) = join directory first ++ rest := by
  unfold join
  rw [isAbsolute_append named]
  split
  · rfl
  · split
    · exact String.append_assoc.symm
    · exact String.append_assoc.symm

theorem join_ne_empty_of_ne {path : String} (named : path ≠ "") (directory : String) :
    join directory path ≠ "" := by
  unfold join
  split
  · exact named
  · split <;> simp [named]

end ScopeLowering.Path

namespace ScopeLowering.Settings

/-- What the check of the settings demands of the suffix. -/
theorem suffix_of_check {settings : Settings} (accepted : settings.check = .ok ()) :
    settings.suffix ≠ "" ∧ ¬ (settings.outDirectory = none ∧ settings.suffix = ".css") := by
  unfold check at accepted
  split at accepted
  · cases accepted
  · split at accepted
    · cases accepted
    · rename_i suffix
      simpa using suffix

end ScopeLowering.Settings

namespace ScopeLowering.Output.Layout

def directoryOf (layout : Layout) (origin : String) : String :=
  layout.directory.getD ((Path.parent? origin).getD "")

theorem destination_of_fileName? {layout : Layout} {origin name : String}
    (toFiles : layout.toStandardOutput = false) (labelled : origin ≠ Source.standardInput)
    (named : Path.fileName? origin = some name) :
    layout.destination origin =
      .file (Path.join (layout.directoryOf origin) (Path.stem name ++ layout.suffix)) := by
  simp [destination, toFiles, labelled, outputFile, named, directoryOf]

end ScopeLowering.Output.Layout

namespace ScopeLowering.Session

open ScopeLowering.Files (Key Tree)

/-- A source is its own output file just where the directory and the name of the output are
those of the source. A suffix with slashes adds directories to the one of the output. The check
of the settings keeps stylesheets from being their own output files if there is no output
directory. -/
theorem reaches_destination_iff {settings : Settings} {tree : Tree} {origin : String}
    (accepted : settings.check = .ok ()) (labelled : origin ≠ Source.standardInput)
    (file : tree.isFile origin = true) :
    ∃ outer name path, tree.Reaches origin (outer ++ [name]) ∧
      Path.fileName? origin = some name ∧
      (ofSettings settings false).layout.destination origin = .file path ∧
      ('/' ∉ settings.suffix.toList →
        (tree.Reaches path (outer ++ [name]) ↔ Path.stem name ++ settings.suffix = name ∧
          ∀ directory, settings.outDirectory = some directory → tree.Opens directory outer) ∧
        (settings.outDirectory = none → name = Path.stem name ++ ".css" →
          ¬ tree.Reaches path (outer ++ [name]))) ∧
      ∀ front last, settings.suffix = front ++ "/" ++ last → '/' ∉ last.toList →
        (tree.Reaches path (outer ++ [name]) ↔ last = name ∧
          tree.Reaches (Path.join ((ofSettings settings false).layout.directoryOf origin)
            (Path.stem name ++ front)) outer) := by
  obtain ⟨outer, name, reaches, fileIn, named, above⟩ := Tree.exists_fileIn file
  have toFiles : (ofSettings settings false).layout.toStandardOutput = false := rfl
  have target := Output.Layout.destination_of_fileName? toFiles labelled named
  have spelled := Path.stem_ne_empty fileIn.isName.1
  have plain := Path.slash_not_mem_stem fileIn.isName.2.2.2
  refine ⟨outer, name, _, reaches, named, target, ?_, ?_⟩
  · intro flat
    have joined : tree.Reaches (Path.join ((ofSettings settings false).layout.directoryOf origin)
          (Path.stem name ++ settings.suffix)) (outer ++ [name]) ↔
        Path.stem name ++ settings.suffix = name ∧
          tree.Opens ((ofSettings settings false).layout.directoryOf origin) outer :=
      fileIn.reaches_join_iff (by simp [spelled]) (by simp [plain, flat])
    have placed : tree.Opens ((ofSettings settings false).layout.directoryOf origin) outer ↔
        ∀ directory, settings.outDirectory = some directory → tree.Opens directory outer := by
      cases chosen : settings.outDirectory with
      | none => simp [Output.Layout.directoryOf, ofSettings, chosen, above]
      | some directory => simp [Output.Layout.directoryOf, ofSettings, chosen]
    refine ⟨joined.trans (and_congr_right fun _ => placed), ?_⟩
    intro beside stylesheet overwrites
    have same : Path.stem name ++ settings.suffix = Path.stem name ++ ".css" :=
      (joined.mp overwrites).1.trans stylesheet
    exact (Settings.suffix_of_check accepted).2 ⟨beside, String.append_right_inj _ |>.mp same⟩
  · intro front last suffix flat
    have cut : Path.join ((ofSettings settings false).layout.directoryOf origin)
        (Path.stem name ++ (ofSettings settings false).layout.suffix) =
          Path.join ((ofSettings settings false).layout.directoryOf origin)
            (Path.stem name ++ front) ++ "/" ++ last := by
      have whole : Path.stem name ++ (ofSettings settings false).layout.suffix =
          (Path.stem name ++ front) ++ ("/" ++ last) := by
        simp [ofSettings, suffix, String.append_assoc]
      rw [whole, Path.join_append (by simp [spelled]), String.append_assoc]
    rw [cut]
    exact fileIn.reaches_slash_iff flat (Path.join_ne_empty_of_ne (by simp [spelled]) _)

def ownDirectory : Settings :=
  { Settings.standard with outDirectory := some "src", suffix := ".css" }

def twoSources : Tree :=
  (Tree.empty.edit (.write "src/a.css" (.text "") 0)).edit (.write "src/a.less" (.text "") 0)

/-- The source with another extension is not its own output file. -/
theorem reaches_destination_iff_twoSources : ∃ path key,
    (ofSettings ownDirectory false).layout.destination "src/a.less" = .file path ∧
      twoSources.Reaches "src/a.less" key ∧ ¬ twoSources.Reaches path key := by
  have accepted : ownDirectory.check = .ok () := rfl
  have labelled : "src/a.less" ≠ Source.standardInput := by decide
  have file : twoSources.isFile "src/a.less" = true := by decide +kernel
  obtain ⟨outer, name, path, reaches, named, target, flat, -⟩ :=
    reaches_destination_iff accepted labelled file
  obtain rfl : "a.less" = name := Option.some.inj (Eq.trans (by decide +kernel) named)
  refine ⟨path, _, target, reaches, ?_⟩
  intro overwrites
  obtain ⟨iff, -⟩ := flat (by decide)
  have same := (iff.mp overwrites).1
  exact absurd same (by decide +kernel)

/-- A source can be its own output file under settings that pass the check. -/
theorem exists_destination_is_source : ∃ settings tree origin path key,
    settings.check = .ok () ∧ origin ≠ Source.standardInput ∧ Tree.isFile tree origin = true ∧
      (ofSettings settings false).layout.destination origin = .file path ∧
      tree.Reaches origin key ∧ tree.Reaches path key := by
  refine ⟨ownDirectory, twoSources, "src/a.css", "src/a.css", ["src", "a.css"], rfl, by decide,
    by decide +kernel, by decide +kernel, ?_⟩
  have located : twoSources.Reaches "src/a.css" ["src", "a.css"] :=
    ⟨⟨.file (.text "") 0, .writable⟩, by decide +kernel⟩
  exact ⟨located, located⟩

end ScopeLowering.Session
