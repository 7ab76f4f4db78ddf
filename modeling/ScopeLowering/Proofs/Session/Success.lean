import ScopeLowering.Proofs.Session.Intake
import ScopeLowering.Proofs.Session.Journal

/-!
# Runs without a failure

A run over some paths counts no failure if and only if every file was read, no output file was
wanted twice, and every output file was written. Then each output file holds the rules of its
source, as the source was before the run.
-/

namespace ScopeLowering.Session

open ScopeLowering.Files (Key Tree)
open ScopeLowering.Output (Layout World)

/-- The file at a path is no generated output, and has scope blocks with some rules. -/
def Yields (tree : Tree) (path css : String) : Prop :=
  ∃ text rules, tree.readText path = .ok text ∧ Source.isMarked text = false ∧
    Stylesheet.lower? text.toList = some rules ∧ String.ofList rules = css

/-- The output file of a path is not the one of a path before that has rules. -/
def Unclaimed (layout : Layout) (tree : Tree) (earlier : List String) (path : String) : Prop :=
  ∀ other ∈ earlier, ∀ css, Yields tree other css →
    Path.components (layout.outputFile other) ≠ Path.components (layout.outputFile path)

section

variable [TextHash]

/-- Every file can be read, each output file is the one of a single path, and it can be written
once the paths before are lowered. -/
structure Flawless (session : Session) (tree : Tree) (paths : List String) : Prop where
  readable : ∀ path ∈ paths, ∃ text, tree.readText path = .ok text
  unclaimed : ∀ earlier path later css, paths = earlier ++ path :: later → Yields tree path css →
    Unclaimed session.layout tree earlier path
  written : ∀ earlier path later css, paths = earlier ++ path :: later → Yields tree path css →
    ((session.lowerFiles (.ofTree tree) earlier).world.writeFile
      (session.layout.outputFile path) (Output.render css)).2 = none

end

/-! ## Sources of the paths -/

section

variable {tree : Tree} {path css : String} {paths : List String} {source : Source}

theorem yields_iff : Yields tree path css ↔ ∃ source rules, source? tree path = some source ∧
    Stylesheet.lower? source.text.toList = some rules ∧ String.ofList rules = css := by
  constructor
  · rintro ⟨text, rules, found, plain, lowered, spelled⟩
    exact ⟨⟨path, text⟩, rules, source?_eq_some_iff.mpr ⟨rfl, found, plain⟩, lowered, spelled⟩
  · rintro ⟨source, rules, found, lowered, spelled⟩
    obtain ⟨-, text, plain⟩ := source?_eq_some_iff.mp found
    exact ⟨source.text, rules, text, plain, lowered, spelled⟩

/-- A cut of the sources comes from a cut of the paths. -/
theorem exists_cut_of_sources {before after : List Source}
    (cut : paths.filterMap (source? tree) = before ++ source :: after) :
    ∃ earlier later, paths = earlier ++ source.origin :: later ∧
      source? tree source.origin = some source ∧ earlier.filterMap (source? tree) = before := by
  obtain ⟨first, rest, rfl, front, back⟩ := List.filterMap_eq_append_iff.mp cut
  obtain ⟨skipped, path, later, rfl, nothing, found, -⟩ := List.filterMap_eq_cons_iff.mp back
  have named := (source?_eq_some_iff.mp found).1
  refine ⟨first ++ skipped, later, by rw [named, List.append_assoc], named ▸ found, ?_⟩
  have silent : skipped.filterMap (source? tree) = [] := List.filterMap_eq_nil_iff.mpr nothing
  rw [List.filterMap_append, silent, List.append_nil, front]

theorem filterMap_cut {earlier later : List String} (found : source? tree path = some source) :
    (earlier ++ path :: later).filterMap (source? tree) =
      earlier.filterMap (source? tree) ++ source :: later.filterMap (source? tree) := by
  rw [List.filterMap_append, List.filterMap_cons, found]

/-- The turn of a path comes once, and no path is standard input. -/
theorem not_mem_of_cut {earlier later : List String} (distinct : paths.Nodup)
    (named : Source.standardInput ∉ paths) (cut : paths = earlier ++ path :: later) :
    path ∉ earlier ∧ path ≠ Source.standardInput ∧ Source.standardInput ∉ earlier := by
  subst cut
  rw [List.nodup_append] at distinct
  refine ⟨fun inside => distinct.2.2 path inside path List.mem_cons_self rfl, ?_, ?_⟩
  · rintro rfl
    exact named (List.mem_append_right _ List.mem_cons_self)
  · exact fun inside => named (List.mem_append_left _ inside)

theorem destination_of_ne {origin : String} (settings : Settings)
    (named : origin ≠ Source.standardInput) :
    (ofSettings settings false).layout.destination origin =
      .file ((ofSettings settings false).layout.outputFile origin) := by
  simp [Layout.destination, ofSettings, named]

end

variable [TextHash]

namespace Progress

variable {progress : Progress} {source : Source} {path : String} {css : List Char}

/-! ## Failures -/

/-- The first of some sources that asks to own an output file gets it, unless it is owned. -/
theorem owners_handleAll (progress : Progress) (sources : List Source)
    (key : List Path.Component) :
    (sources.foldl handle progress).session.owners.get? key =
      (progress.session.owners.get? key).or
        (sources.findSome? (claim? progress.session.layout key)) := by
  induction sources generalizing progress with
  | nil => simp
  | cons source sources ih =>
      obtain ⟨arranged, -, owned⟩ := progress.owners_handle source
      rw [List.foldl_cons, ih, owned, arranged, own, List.findSome?_cons, Option.or_assoc]
      cases claim? progress.session.layout key source <;> rfl

theorem failed_handle (progress : Progress) (source : Source) :
    (progress.handle source).report.failed = 0 ↔ progress.report.failed = 0 ∧
      ∀ failure, progress.outcome source ≠ .failed failure := by
  rw [report_handle]
  cases progress.outcome source <;> simp [Report.count]

/-- Nothing fails while sources are handled if none of them fails in its turn. -/
theorem failed_handleAll (progress : Progress) (sources : List Source) :
    (sources.foldl handle progress).report.failed = 0 ↔ progress.report.failed = 0 ∧
      ∀ before source after, sources = before ++ source :: after →
        ∀ failure, (before.foldl handle progress).outcome source ≠ .failed failure := by
  induction sources generalizing progress with
  | nil => simp
  | cons first sources ih =>
      rw [List.foldl_cons, ih, failed_handle, and_assoc]
      refine and_congr_right fun _ => ?_
      constructor
      · rintro ⟨here, rest⟩ before source after cut
        cases before with
        | nil =>
            obtain ⟨rfl, -⟩ := List.cons.inj cut
            exact here
        | cons other before =>
            obtain ⟨rfl, same⟩ := List.cons.inj cut
            exact rest before source after same
      · intro all
        refine ⟨all [] first sources rfl, ?_⟩
        intro before source after cut
        exact all (first :: before) source after (by rw [cut, List.cons_append])

/-- What is done for a source that may write its output file. -/
theorem handle_of_acquire {acquired : Session}
    (lowered : Stylesheet.lower? source.text.toList = some css)
    (target : progress.session.layout.destination source.origin = .file path)
    (done : progress.session.acquire source.origin (.file path) = .ok acquired) :
    (progress.handle source).world.tree =
        (progress.world.tree.deposit path (Output.render (String.ofList css))).1 ∧
      ((∀ failure, progress.outcome source ≠ .failed failure) ↔
        (progress.world.tree.deposit path (Output.render (String.ofList css))).2 = none) := by
  simp only [handle, deliver, outcome, lowered, target, done, Output.World.deliver_file,
    Output.World.writeFile_eq]
  generalize progress.world.tree.deposit path (Output.render (String.ofList css)) = result
  obtain ⟨after, failure⟩ := result
  cases failure with
  | none => exact ⟨rfl, by simp⟩
  | some failure => exact ⟨rfl, by simp⟩

/-- An open file keeps its text while sources are handled, if it is not written for one of them. -/
theorem readText_handleAll {sources : List Source} {key : Key} {text : String} {modified : Int}
    (located : progress.world.tree.locate path =
      .ok (.occupied key ⟨.file (.text text) modified, .writable⟩))
    (alone : ∀ file, Aims progress.session.layout sources file →
      ¬(sources.foldl handle progress).world.tree.Generated file key) :
    (sources.foldl handle progress).world.tree.readText path = .ok text := by
  cases progress.fate_handleAll sources key with
  | kept same =>
      rw [Tree.readText_of_locate ((progress.grows_handleAll sources).locate_of_kept located same)]
      rfl
  | made absent =>
      rw [(Tree.leadsTo_of_locate_occupied located).2] at absent
      cases absent
  | written aim generated => exact absurd generated (alone _ aim)

omit [TextHash] in
theorem outcome_of_refused {failure : Failure}
    (lowered : Stylesheet.lower? source.text.toList = some css)
    (target : progress.session.layout.destination source.origin = .file path)
    (refused : progress.session.acquire source.origin (.file path) = .error failure) :
    progress.outcome source = .failed failure := by
  simp only [outcome, lowered, target, refused]

end Progress

/-! ## New sessions -/

def newRun (settings : Settings) (tree : Tree) (paths : List String) : Progress :=
  (paths.filterMap (source? tree)).foldl Progress.handle
    (.start (ofSettings settings false) (.ofTree tree))

section

variable {settings : Settings} {tree : Tree} {paths : List String} {path css : String}

theorem fresh_ofSettings (settings : Settings) (sources : List Source) :
    (ofSettings settings false).fresh sources = sources :=
  List.filter_eq_self.mpr fun _ _ => rfl

/-- A new session lowers the sources at some paths after reading them. -/
theorem lockstep_lowerFiles (awake : settings.nativeScope = false) (world : World)
    (paths : List String) :
    Progress.Lockstep Eq ((newRun settings world.tree paths).after (takeIn world paths).report)
      ((ofSettings settings false).lowerFiles world paths) := by
  have side : Progress.Lockstep Eq (.start (ofSettings settings false) (.ofTree world.tree))
      ((ofSettings settings false).opening (takeIn world paths).world
        (takeIn world paths).sources) := by
    refine ⟨rfl, ?_, (tree_takeIn world paths).symm⟩
    rw [opening, fresh_ofSettings, Nat.sub_self]
    rfl
  have lowered := side.handleAll (takeIn world paths).sources
  rw [lowerFiles_eq awake, fresh_ofSettings]
  rw [newRun, ← sources_takeIn]
  exact ⟨lowered.session, congrArg (takeIn world paths).report.merge lowered.report,
    lowered.trees⟩

theorem tree_lowerFiles (awake : settings.nativeScope = false) (world : World)
    (paths : List String) : ((ofSettings settings false).lowerFiles world paths).world.tree =
      (newRun settings world.tree paths).world.tree :=
  (lockstep_lowerFiles awake world paths).trees.symm

theorem failed_lowerFiles (awake : settings.nativeScope = false) (world : World)
    (paths : List String) :
    ((ofSettings settings false).lowerFiles world paths).report.failed = 0 ↔
      (∀ path ∈ paths, ∃ text, world.tree.readText path = .ok text) ∧
        (newRun settings world.tree paths).report.failed = 0 := by
  rw [(lockstep_lowerFiles awake world paths).report, Progress.after, Report.merge,
    Nat.add_eq_zero_iff, takeIn, Intake.failed_foldl_read]
  exact and_congr_left' (and_iff_right rfl)

theorem destination_newRun {origin : String} (paths : List String)
    (named : origin ≠ Source.standardInput) :
    (newRun settings tree paths).session.layout.destination origin =
      .file ((ofSettings settings false).layout.outputFile origin) := by
  rw [newRun, Progress.layout_handleAll]
  exact destination_of_ne settings named

theorem newRun_cut {earlier later : List String} {source : Source}
    (found : source? tree path = some source) :
    newRun settings tree (earlier ++ path :: later) =
      (later.filterMap (source? tree)).foldl Progress.handle
        ((newRun settings tree earlier).handle source) := by
  rw [newRun, filterMap_cut found, List.foldl_append, List.foldl_cons, newRun]

theorem owners_newRun (settings : Settings) (tree : Tree) (paths : List String)
    (key : List Path.Component) : (newRun settings tree paths).session.owners.get? key =
      (paths.filterMap (source? tree)).findSome?
        (claim? (ofSettings settings false).layout key) := by
  rw [newRun, Progress.owners_handleAll]
  rfl

/-- The output file of a path has an owner if it was wanted before. -/
theorem unclaimed_iff (others : Source.standardInput ∉ paths) :
    Unclaimed (ofSettings settings false).layout tree paths path ↔
      (newRun settings tree paths).session.owners.get?
        (Path.components ((ofSettings settings false).layout.outputFile path)) = none := by
  rw [owners_newRun, List.findSome?_eq_none_iff]
  constructor
  · intro unclaimed source member
    obtain ⟨other, inside, found⟩ := List.mem_filterMap.mp member
    obtain rfl := (source?_eq_some_iff.mp found).1
    rw [Option.eq_none_iff_forall_ne_some]
    intro ownership claimed
    obtain ⟨⟨css, lowered⟩, target, -, same⟩ := claim?_eq_some_iff.mp claimed
    rw [destination_of_ne settings fun input => others (input ▸ inside)] at target
    refine unclaimed source.origin inside _ (yields_iff.mpr ⟨source, css, found, lowered, rfl⟩) ?_
    rw [Output.Destination.file.inj target, same]
  · intro free other inside css yields same
    obtain ⟨source, rules, found, lowered, -⟩ := yields_iff.mp yields
    obtain rfl := (source?_eq_some_iff.mp found).1
    have silent := free source (List.mem_filterMap.mpr ⟨source.origin, inside, found⟩)
    have target := destination_of_ne settings fun input => others (input ▸ inside)
    have claimed : claim? (ofSettings settings false).layout
        (Path.components ((ofSettings settings false).layout.outputFile path)) source =
          some ⟨(ofSettings settings false).layout.outputFile source.origin, source.origin⟩ :=
      claim?_eq_some_iff.mpr ⟨⟨rules, lowered⟩, target, rfl, same⟩
    rw [silent] at claimed
    cases claimed

/-- What is done for a source whose output file was not wanted before. -/
theorem handle_newRun {source : Source} {rules : List Char}
    (unclaimed : Unclaimed (ofSettings settings false).layout tree paths source.origin)
    (named : source.origin ≠ Source.standardInput) (others : Source.standardInput ∉ paths)
    (lowered : Stylesheet.lower? source.text.toList = some rules) :
    ((newRun settings tree paths).handle source).world.tree =
        ((newRun settings tree paths).world.tree.deposit
          ((ofSettings settings false).layout.outputFile source.origin)
          (Output.render (String.ofList rules))).1 ∧
      ((∀ failure, (newRun settings tree paths).outcome source ≠ .failed failure) ↔
        ((newRun settings tree paths).world.tree.deposit
          ((ofSettings settings false).layout.outputFile source.origin)
          (Output.render (String.ofList rules))).2 = none) := by
  obtain ⟨acquired, done⟩ := acquire_of_free source.origin ((unclaimed_iff others).mp unclaimed)
  exact Progress.handle_of_acquire lowered (destination_newRun paths named) done

theorem writeFile_lowerFiles (awake : settings.nativeScope = false) (file text : String) :
    (((ofSettings settings false).lowerFiles (.ofTree tree) paths).world.writeFile file text).2 =
      ((newRun settings tree paths).world.tree.deposit file text).2 := by
  have reached : ((ofSettings settings false).lowerFiles (.ofTree tree) paths).world.tree =
      (newRun settings tree paths).world.tree := tree_lowerFiles awake (.ofTree tree) paths
  rw [Output.World.writeFile_eq, reached]

/-- A source does not fail in its turn if its output file was not wanted before, and can be
written. -/
theorem outcome_newRun_iff {source : Source} {rules : List Char}
    (awake : settings.nativeScope = false) (apart : source.origin ∉ paths)
    (named : source.origin ≠ Source.standardInput) (others : Source.standardInput ∉ paths)
    (lowered : Stylesheet.lower? source.text.toList = some rules) :
    (∀ failure, (newRun settings tree paths).outcome source ≠ .failed failure) ↔
      Unclaimed (ofSettings settings false).layout tree paths source.origin ∧
      (((ofSettings settings false).lowerFiles (.ofTree tree) paths).world.writeFile
        ((ofSettings settings false).layout.outputFile source.origin)
        (Output.render (String.ofList rules))).2 = none := by
  by_cases unclaimed : Unclaimed (ofSettings settings false).layout tree paths source.origin
  · rw [and_iff_right unclaimed, writeFile_lowerFiles awake]
    exact (handle_newRun unclaimed named others lowered).2
  · refine iff_of_false ?_ fun both => unclaimed both.1
    rw [unclaimed_iff others] at unclaimed
    obtain ⟨ownership, owned⟩ := Option.ne_none_iff_exists'.mp unclaimed
    have differs : ownership.owner ≠ source.origin := by
      rw [owners_newRun] at owned
      obtain ⟨claimant, member, claimed⟩ := List.exists_of_findSome?_eq_some owned
      obtain ⟨other, inside, found⟩ := List.mem_filterMap.mp member
      intro mine
      rw [← mine, (claim?_eq_some_iff.mp claimed).2.2.1, (source?_eq_some_iff.mp found).1]
        at apart
      exact apart inside
    have refused : (newRun settings tree paths).session.acquire source.origin
        (.file ((ofSettings settings false).layout.outputFile source.origin)) =
          .error (.conflict ownership.owner source.origin ownership.path) := by
      simp only [acquire, owned, if_neg differs]
    intro fine
    exact fine _ (Progress.outcome_of_refused lowered (destination_newRun paths named) refused)

/-- No source fails if each output file is the one of a single path, and can be written. -/
theorem failed_newRun_iff (awake : settings.nativeScope = false) (distinct : paths.Nodup)
    (named : Source.standardInput ∉ paths) :
    (newRun settings tree paths).report.failed = 0 ↔
      ∀ earlier path later css, paths = earlier ++ path :: later → Yields tree path css →
        Unclaimed (ofSettings settings false).layout tree earlier path ∧
        (((ofSettings settings false).lowerFiles (.ofTree tree) earlier).world.writeFile
          ((ofSettings settings false).layout.outputFile path) (Output.render css)).2 = none := by
  rw [newRun, Progress.failed_handleAll]
  -- The turns of the sources are those of the paths with rules.
  constructor
  · rintro ⟨-, all⟩ earlier path later css cut yields
    obtain ⟨source, rules, found, lowered, rfl⟩ := yields_iff.mp yields
    obtain rfl := (source?_eq_some_iff.mp found).1
    obtain ⟨apart, other, others⟩ := not_mem_of_cut distinct named cut
    refine (outcome_newRun_iff awake apart other others lowered).mp ?_
    exact all _ _ _ (by rw [cut, filterMap_cut found])
  · intro fine
    refine ⟨rfl, ?_⟩
    intro before source after cut
    obtain ⟨earlier, later, split, found, rfl⟩ := exists_cut_of_sources cut
    cases lowered : Stylesheet.lower? source.text.toList with
    | none =>
        intro failure failed
        simp [Progress.outcome, lowered] at failed
    | some rules =>
        have yields := yields_iff.mpr ⟨source, rules, found, lowered, rfl⟩
        obtain ⟨apart, other, others⟩ := not_mem_of_cut distinct named split
        exact (outcome_newRun_iff awake apart other others lowered).mpr
          (fine _ _ _ _ split yields)

/-- A new session lowers the files at different paths without a failure if and only if the run is
flawless. -/
theorem failed_lowerFiles_iff (awake : settings.nativeScope = false) (distinct : paths.Nodup)
    (named : Source.standardInput ∉ paths) (world : World) :
    ((ofSettings settings false).lowerFiles world paths).report.failed = 0 ↔
      Flawless (ofSettings settings false) world.tree paths := by
  rw [failed_lowerFiles awake, failed_newRun_iff awake distinct named]
  constructor
  · rintro ⟨readable, fine⟩
    exact ⟨readable, fun earlier path later css cut yields => (fine _ _ _ _ cut yields).1,
      fun earlier path later css cut yields => (fine _ _ _ _ cut yields).2⟩
  · intro flawless
    exact ⟨flawless.readable, fun earlier path later css cut yields =>
      ⟨flawless.unclaimed _ _ _ _ cut yields, flawless.written _ _ _ _ cut yields⟩⟩

/-! ## Files after a run -/

/-- What becomes of the files in a run of a new session: the output files of its paths with rules
are written, and directories are made. -/
theorem fate_lowerFiles_ofSettings (awake : settings.nativeScope = false) (world : World)
    (named : Source.standardInput ∉ paths) (key : Key) :
    world.tree.Fate ((ofSettings settings false).lowerFiles world paths).world.tree
      (fun file => ∃ path ∈ paths, (∃ css, Yields world.tree path css) ∧
        (ofSettings settings false).layout.outputFile path = file) key := by
  have awake : (ofSettings settings false).hibernating = false := awake
  apply (fate_lowerFiles awake world paths key).mono
  rintro file ⟨source, member, ⟨rules, lowered⟩, target⟩
  rw [fresh_ofSettings, sources_takeIn] at member
  obtain ⟨path, inside, found⟩ := List.mem_filterMap.mp member
  obtain rfl := (source?_eq_some_iff.mp found).1
  rw [destination_of_ne settings fun input => named (input ▸ inside)] at target
  exact ⟨source.origin, inside, ⟨_, yields_iff.mpr ⟨source, rules, found, lowered, rfl⟩⟩,
    Output.Destination.file.inj target⟩

/-- After a flawless run an output file holds the rules of its path, if other output files are
other files. -/
theorem readText_of_flawless {world : World} (awake : settings.nativeScope = false)
    (named : Source.standardInput ∉ paths)
    (flawless : Flawless (ofSettings settings false) world.tree paths) (member : path ∈ paths)
    (yields : Yields world.tree path css)
    (apart : ∀ other ∈ paths, ∀ rules key, Yields world.tree other rules →
      ((ofSettings settings false).lowerFiles world paths).world.tree.Reaches
        ((ofSettings settings false).layout.outputFile path) key →
      ((ofSettings settings false).lowerFiles world paths).world.tree.Reaches
        ((ofSettings settings false).layout.outputFile other) key →
      Path.components ((ofSettings settings false).layout.outputFile path) =
        Path.components ((ofSettings settings false).layout.outputFile other)) :
    ((ofSettings settings false).lowerFiles world paths).world.tree.readText
      ((ofSettings settings false).layout.outputFile path) = .ok (Output.render css) := by
  rw [tree_lowerFiles awake] at apart ⊢
  obtain ⟨earlier, later, rfl⟩ := List.append_of_mem member
  have unclaimed := flawless.unclaimed earlier path later css rfl yields
  have written := flawless.written earlier path later css rfl yields
  obtain ⟨source, rules, found, lowered, rfl⟩ := yields_iff.mp yields
  obtain rfl := (source?_eq_some_iff.mp found).1
  rw [writeFile_lowerFiles awake] at written
  obtain ⟨laid, -⟩ := handle_newRun unclaimed (fun input => named (input ▸ member))
    (fun inside => named (List.mem_append_left _ inside)) lowered
  obtain ⟨key, located⟩ := Tree.exists_located_of_deposit written
  rw [← laid] at located
  rw [newRun_cut found] at apart ⊢
  have mine := Tree.Generated.fate ⟨_, _, located⟩ (Progress.grows_handleAll _ _)
    (Progress.fate_handleAll _ (later.filterMap (source? world.tree)) key)
  -- The file that was written is not written again for one of the later paths.
  apply Progress.readText_handleAll located
  rintro file ⟨claimant, there, ⟨css, asks⟩, target⟩ generated
  obtain ⟨other, inside, read⟩ := List.mem_filterMap.mp there
  obtain rfl := (source?_eq_some_iff.mp read).1
  have among : claimant.origin ∈ earlier ++ source.origin :: later :=
    List.mem_append_right _ (List.mem_cons_of_mem _ inside)
  rw [Progress.layout_handle,
    destination_newRun earlier fun input => named (input ▸ among)] at target
  obtain rfl := Output.Destination.file.inj target
  have asked := yields_iff.mpr ⟨claimant, css, read, asks, rfl⟩
  have same := apart claimant.origin among _ key asked mine.reaches generated.reaches
  obtain ⟨between, last, rfl⟩ := List.append_of_mem inside
  have cut : earlier ++ source.origin :: (between ++ claimant.origin :: last) =
      (earlier ++ source.origin :: between) ++ claimant.origin :: last := by simp
  have free := flawless.unclaimed _ _ _ _ cut asked
  exact absurd same (free source.origin
    (List.mem_append_right _ List.mem_cons_self) _ yields)

end

end ScopeLowering.Session
