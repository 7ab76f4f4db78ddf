import ScopeLowering.Proofs.Files.Proper
import ScopeLowering.Proofs.Files.Rooted
import ScopeLowering.Proofs.Session.Intake

/-!
# Running again

A second run over the files of a first one writes what the first one wrote, and passes over what
it generated. The files stay as the first run has left them, if the sources are what they were:
no source is the output file of another one, however it is spelled, and no directory that was made
leads to one more source by a step up.
-/

namespace ScopeLowering.Files.Tree

variable {tree : Tree}

theorem Proper.deposit (proper : tree.Proper) (path text : String) :
    (tree.deposit path text).1.Proper := by
  have ready := proper.makeDirectories ((Path.parent? path).getD "")
  unfold Tree.deposit
  dsimp only
  split
  · rename_i made
    rw [made] at ready
    exact ready
  · rename_i made
    rw [made] at ready
    split
    · exact ready.write ‹_›
    · exact ready

end ScopeLowering.Files.Tree

namespace ScopeLowering.Session

open ScopeLowering.Files (Key Tree)
open ScopeLowering.Output (Layout World)

/-! ## Reading again -/

/-- Two lists of paths in one, each in its order. -/
inductive Woven : List String → List String → List String → Prop
  | nil : Woven [] [] []
  | path {path : String} {paths extra whole : List String} (rest : Woven paths extra whole) :
      Woven (path :: paths) extra (path :: whole)
  | extra {path : String} {paths extra whole : List String} (rest : Woven paths extra whole) :
      Woven paths (path :: extra) (path :: whole)

/-- A file is read as before: as the same source, as generated output, or not at all. -/
inductive Rereads : Except Failure (Option Source) → Except Failure (Option Source) → Prop
  | source (source : Source) : Rereads (.ok (some source)) (.ok (some source))
  | generated : Rereads (.ok none) (.ok none)
  | failed (first second : Failure) : Rereads (.error first) (.error second)

theorem Rereads.refl (result : Except Failure (Option Source)) : Rereads result result := by
  cases result with
  | error failure => exact .failed failure failure
  | ok found =>
      cases found with
      | none => exact .generated
      | some source => exact .source source

theorem exists_failure_of_read {tree : Tree} {path : String} (other : tree.isFile path = false) :
    ∃ failure, Source.read tree path = .error failure := by
  suffices failed : ∃ fault, tree.readText path = .error fault by
    obtain ⟨fault, failed⟩ := failed
    exact ⟨_, by rw [Source.read, failed]⟩
  unfold Tree.readText
  unfold Tree.isFile at other
  cases found : tree.stat path with
  | error fault => exact ⟨fault, rfl⟩
  | ok node =>
      rw [found] at other
      obtain ⟨entry, access⟩ := node
      cases entry with
      | file content modified => cases other
      | directory =>
          dsimp only
          split
          · exact ⟨_, rfl⟩
          · exact ⟨_, rfl⟩

/-- A path is read as before, if it held generated output where it leads to an output file now,
and leads to a file only if it did before. -/
theorem rereads_of_fate {before after : Tree} {aimed : String → Prop} {path : String}
    (grows : before.Grows after) (fate : ∀ key, before.Fate after aimed key)
    (outputs : ∀ output key, aimed output → after.Reaches path key → after.Reaches output key →
      Source.read before path = .ok none)
    (files : after.isFile path = true → before.isFile path = true) :
    Rereads (Source.read before path) (Source.read after path) := by
  cases file : before.isFile path with
  | false =>
      have other : after.isFile path = false := by
        rw [← Bool.not_eq_true]
        intro found
        rw [files found] at file
        cases file
      obtain ⟨first, failed⟩ := exists_failure_of_read file
      obtain ⟨second, stuck⟩ := exists_failure_of_read other
      rw [failed, stuck]
      exact .failed first second
  | true =>
      obtain ⟨key, node, located, -⟩ := Tree.isFile_iff.mp file
      obtain ⟨-, here⟩ := Tree.leadsTo_of_locate_occupied located
      have becomes := grows.becomes_locate path
      rw [located] at becomes
      generalize now : after.locate path = result at becomes
      cases becomes with
      | @occupied _ _ kept there alike =>
          cases fate key with
          | kept same =>
              rw [same, here] at there
              obtain rfl := Option.some.inj there
              have again : Source.read after path = Source.read before path := by
                rw [Source.read, Source.read, Tree.readText_of_locate now,
                  Tree.readText_of_locate located]
              rw [again]
              exact .refl _
          | made absent =>
              rw [here] at absent
              cases absent
          | @written output aim generated =>
              obtain ⟨css, modified, stored⟩ := generated.exists_text
              obtain rfl := Option.some.inj (there.symm.trans stored)
              have marked : after.Generated path key := ⟨css, modified, now⟩
              rw [outputs output key aim marked.reaches generated.reaches, marked.read]
              exact .generated

/-- What a path without steps up leads to is a file only if it was one before, or output is
generated there. -/
theorem isFile_of_fate {before after : Tree} {aimed : String → Prop} {path : String}
    (grows : before.Grows after) (rooted : before.Rooted)
    (fate : ∀ key, before.Fate after aimed key)
    (outputs : ∀ output key, aimed output → after.Reaches path key → after.Reaches output key →
      Source.read before path = .ok none)
    (level : .up ∉ Path.components path) (file : after.isFile path = true) :
    before.isFile path = true := by
  obtain ⟨key, node, located, isFile⟩ := Tree.isFile_iff.mp file
  obtain ⟨-, there⟩ := Tree.leadsTo_of_locate_occupied located
  cases fate key with
  | kept same =>
      obtain ⟨old, found⟩ := grows.exists_locate_of_level rooted level located
        ⟨node, same ▸ there⟩
      obtain ⟨-, earlier⟩ := Tree.leadsTo_of_locate_occupied found
      rw [← same, there] at earlier
      exact Tree.isFile_iff.mpr ⟨key, old, found, Option.some.inj earlier ▸ isFile⟩
  | made absent directory =>
      obtain ⟨made, here, isDirectory⟩ := directory
      obtain rfl := Option.some.inj (there.symm.trans here)
      simp [Files.Node.isFile, isDirectory] at isFile
  | written aim generated =>
      by_contra other
      obtain ⟨failure, failed⟩ := exists_failure_of_read (Bool.not_eq_true _ ▸ other)
      rw [outputs _ key aim ⟨_, Tree.locate_unlocked located⟩ generated.reaches] at failed
      cases failed

namespace Intake

structure Matches (count : Nat) (first second : Intake) : Prop where
  sources : second.sources = first.sources
  report : second.report = { first.report with generated := first.report.generated + count }

variable {count : Nat} {first second : Intake} {paths extra whole : List String} {path : String}

theorem Matches.read (same : Matches count first second)
    (rereads : Rereads (Source.read first.world.tree path) (Source.read second.world.tree path)) :
    Matches count (first.read path) (second.read path) := by
  obtain ⟨sources, report⟩ := same
  unfold Intake.read
  generalize Source.read first.world.tree path = one,
    Source.read second.world.tree path = two at rereads
  cases rereads with
  | source source => exact ⟨congrArg (· ++ [source]) sources, report⟩
  | generated =>
      refine ⟨sources, ?_⟩
      simp only [report, Nat.add_right_comm]
  | failed one two =>
      refine ⟨sources, ?_⟩
      simp only [report]

theorem Matches.readGenerated (same : Matches count first second)
    (marked : Source.read second.world.tree path = .ok none) :
    Matches (count + 1) first (second.read path) := by
  obtain ⟨sources, report⟩ := same
  unfold Intake.read
  rw [marked]
  refine ⟨sources, ?_⟩
  simp only [report, Nat.add_assoc]

theorem Matches.foldl_read (woven : Woven paths extra whole) (same : Matches count first second)
    (rereads : ∀ path ∈ paths,
      Rereads (Source.read first.world.tree path) (Source.read second.world.tree path))
    (marked : ∀ path ∈ extra, Source.read second.world.tree path = .ok none) :
    Matches (count + extra.length) (paths.foldl Intake.read first)
      (whole.foldl Intake.read second) := by
  induction woven generalizing first second count with
  | nil => exact same
  | path rest ih =>
      apply ih (same.read (rereads _ List.mem_cons_self))
      · intro path member
        rw [tree_read, tree_read]
        exact rereads path (List.mem_cons_of_mem _ member)
      · intro path member
        rw [tree_read]
        exact marked path member
  | @extra path paths extra whole rest ih =>
      rw [List.length_cons, Nat.add_comm extra.length, ← Nat.add_assoc]
      apply ih (same.readGenerated (marked _ List.mem_cons_self))
      · intro path member
        rw [tree_read]
        exact rereads path member
      · intro path member
        rw [tree_read]
        exact marked path (List.mem_cons_of_mem _ member)

end Intake

/-! ## Handling again -/

/-- A tree of the second run, where the first run has come as far: it is the tree that the first
run leaves in the end, but for files that are not written again yet. -/
structure Retraces (last first second : Tree) : Prop where
  grows : last.Grows second
  keys : second.nodes.keys = last.nodes.keys
  nodes : ∀ key, second.nodes.get? key = first.nodes.get? key ∨
    second.nodes.get? key = last.nodes.get? key

theorem Retraces.refl (last first : Tree) : Retraces last first last where
  grows := .refl last
  keys := rfl
  nodes := fun _ => .inr rfl

theorem Retraces.eq {last second : Tree} (retraces : Retraces last last second)
    (distinct : last.nodes.keys.Nodup) : second = last := by
  have nodes : last.nodes = second.nodes := by
    apply Table.eq_of_get?_eq distinct retraces.keys.symm
    intro key
    rcases retraces.nodes key with same | same
    · exact same.symm
    · exact same.symm
  obtain ⟨table, clock⟩ := second
  obtain rfl : last.nodes = table := nodes
  obtain rfl : clock = last.clock := retraces.grows.clock
  rfl

/-- What the first run has added at an entry is there in the second run. -/
theorem get?_of_adds {before after now : Tree} {key : Key} (adds : before.Adds after)
    (stays : ∀ node, after.nodes.get? key = some node → ∃ kept, now.nodes.get? key = some kept)
    (same : now.nodes.get? key = before.nodes.get? key) :
    now.nodes.get? key = after.nodes.get? key := by
  rcases adds key with kept | ⟨absent, node, there, -⟩
  · rw [same, kept]
  · obtain ⟨other, still⟩ := stays node there
    rw [same, absent] at still
    cases still

theorem Retraces.deposit {last first second : Tree} {path text : String}
    (retraces : Retraces last first second) (grows : (first.deposit path text).1.Grows last) :
    ((second.deposit path text).2 = none ↔ (first.deposit path text).2 = none) ∧
      Retraces last (first.deposit path text).1 (second.deposit path text).1 := by
  generalize done : first.deposit path text = result at grows ⊢
  obtain ⟨after, failure⟩ := result
  have since := grows.trans retraces.grows
  cases failure with
  | some failure =>
      obtain ⟨adds, -, again⟩ := Tree.adds_of_deposit done
      obtain ⟨other, failed⟩ := again second since
      rw [failed]
      refine ⟨by simp, retraces.grows, retraces.keys, ?_⟩
      intro key
      apply (retraces.nodes key).imp_left (get?_of_adds adds _)
      intro node there
      obtain ⟨kept, still, -⟩ := since.stays key node there
      exact ⟨kept, still⟩
  | none =>
      obtain ⟨ready, target, adds, -, -, rfl, -, again⟩ := Tree.exists_put_of_deposit done
      rw [again second since]
      obtain ⟨kept, there, alike⟩ := since.stays target _ (Tree.get?_put_self ..)
      have present : target ∈ second.nodes.keys := by
        by_contra absent
        rw [Table.get?_eq_none_iff.mpr absent] at there
        cases there
      refine ⟨Iff.rfl, ?_, ?_, ?_⟩
      · have renewed : second.Grows (second.put target (.text text)) :=
          Tree.grows_insert_of_alike there ⟨alike.access.symm, alike.isDirectory.symm⟩
        exact retraces.grows.trans renewed
      · exact (Table.keys_insert ..).trans ((if_pos present).trans retraces.keys)
      · intro key
        rw [Tree.get?_put, Tree.get?_put]
        split
        · exact .inl (by rw [since.clock]; rfl)
        · rename_i apart
          apply (retraces.nodes key).imp_left (get?_of_adds adds _)
          intro node there
          obtain ⟨kept, still, -⟩ :=
            since.stays key node (by rw [Tree.get?_put, if_neg apart, there])
          exact ⟨kept, still⟩

section

variable [TextHash]

namespace Progress

variable {last : Tree} {first second : Progress}

theorem proper_handleAll {progress : Progress} (proper : progress.world.tree.Proper)
    (sources : List Source) : (sources.foldl Progress.handle progress).world.tree.Proper := by
  induction sources generalizing progress with
  | nil => exact proper
  | cons source sources ih =>
      apply ih
      rcases tree_handle_cases progress source with same | ⟨css, path, -, -, laid⟩
      · rw [same]
        exact proper
      · rw [laid]
        exact proper.deposit path _

/-- The second of two runs keeps up with the first one in the files that the first one leaves. -/
theorem Lockstep.retraces (lockstep : Lockstep (Retraces last) first second)
    (sources : List Source) (grows : (sources.foldl Progress.handle first).world.tree.Grows last) :
    Lockstep (Retraces last) (sources.foldl Progress.handle first)
      (sources.foldl Progress.handle second) := by
  induction sources generalizing first second with
  | nil => exact lockstep
  | cons source sources ih =>
      have onward := (grows_handleAll (first.handle source) sources).trans grows
      apply ih _ grows
      apply lockstep.handle
      intro path text laid
      exact lockstep.trees.deposit (laid ▸ onward)

end Progress

/-! ## Whole runs -/

/-- What the paths of a run must be for the run to be repeated: a path that is the output file of
one of them is one of generated output, and a path with steps up is no path to a file that only the
directories made in the run have opened. -/
structure Repeatable (layout : Layout) (before after : Tree) (paths : List String) : Prop where
  outputs : ∀ path ∈ paths, ∀ origin ∈ paths, ∀ output key,
    layout.destination origin = .file output → after.Reaches path key →
    after.Reaches output key → Source.read before path = .ok none
  files : ∀ path ∈ paths, .up ∈ Path.components path → after.isFile path = true →
    before.isFile path = true

/-- The sources of a run and the generated files are read as the first run has read and written
them. -/
theorem matches_takeIn {session : Session} {world later : World} {paths extra whole : List String}
    (awake : session.hibernating = false) (rooted : world.tree.Rooted)
    (repeatable : Repeatable session.layout world.tree
      (session.lowerFiles world paths).world.tree paths)
    (marked : ∀ path ∈ extra, Source.read later.tree path = .ok none)
    (woven : Woven paths extra whole)
    (same : later.tree = (session.lowerFiles world paths).world.tree) :
    Intake.Matches extra.length (takeIn world paths) (takeIn later whole) := by
  have start : Intake.Matches 0 ⟨[], world, Report.empty⟩ ⟨[], later, Report.empty⟩ := ⟨rfl, rfl⟩
  rw [← Nat.zero_add extra.length]
  apply start.foldl_read woven _ marked
  intro path member
  have grows := grows_lowerFiles awake world paths
  have fate := fate_lowerFiles awake world paths
  have outputs : ∀ output key,
      Progress.Aims session.layout (session.fresh (takeIn world paths).sources) output →
      (session.lowerFiles world paths).world.tree.Reaches path key →
      (session.lowerFiles world paths).world.tree.Reaches output key →
      Source.read world.tree path = .ok none := by
    rintro output key ⟨source, fresh, -, target⟩
    have inside := origin_mem_of_takeIn (List.mem_filter.mp fresh).1
    exact repeatable.outputs path member source.origin inside output key target
  rw [same]
  apply rereads_of_fate grows fate outputs
  intro file
  by_cases level : .up ∈ Path.components path
  · exact repeatable.files path member level file
  · exact isFile_of_fate grows rooted fate outputs level file

theorem proper_lowerFiles {session : Session} (awake : session.hibernating = false) {world : World}
    (proper : world.tree.Proper) (paths : List String) :
    (session.lowerFiles world paths).world.tree.Proper := by
  have start : (session.opening (takeIn world paths).world
      (takeIn world paths).sources).world.tree.Proper := by
    rw [opening, tree_takeIn]
    exact proper
  rw [lowerFiles_eq awake]
  exact Progress.proper_handleAll start _

/-- A second run over the files of a first one and over files that the first one has written
leaves everything as it is, if both start with the same session. It reports what the first one has
reported, and those files as generated output. -/
theorem lowerFiles_again {session : Session} {world later : World} {first second : Progress}
    {paths extra whole : List String} (awake : session.hibernating = false)
    (proper : world.tree.Proper) (rooted : world.tree.Rooted)
    (ran : session.lowerFiles world paths = first)
    (repeatable : Repeatable session.layout world.tree first.world.tree paths)
    (written : ∀ path ∈ extra, .file path ∈ first.report.written)
    (woven : Woven paths extra whole) (same : later.tree = first.world.tree)
    (again : session.lowerFiles later whole = second) :
    second.world.tree = first.world.tree ∧
      second.report =
        { first.report with generated := first.report.generated + extra.length } ∧
      ∀ path ∈ extra, Source.read first.world.tree path = .ok none := by
  subst ran again
  have marked : ∀ path ∈ extra, Source.read later.tree path = .ok none := by
    intro path member
    obtain ⟨key, generated⟩ := generated_of_lowerFiles awake (written path member)
    rw [same]
    exact generated.read
  have intake := matches_takeIn awake rooted repeatable marked woven same
  have distinct := (proper_lowerFiles awake proper paths).distinct
  have repeats : Progress.Lockstep (Retraces (session.lowerFiles world paths).world.tree)
      (session.opening (takeIn world paths).world (takeIn world paths).sources)
      (session.opening (takeIn later whole).world (takeIn later whole).sources) := by
    have trees : (takeIn later whole).world.tree = (session.lowerFiles world paths).world.tree :=
      (tree_takeIn later whole).trans same
    refine ⟨rfl, ?_, ?_⟩
    · rw [opening, opening, intake.sources]
    · rw [opening, opening, trees]
      exact .refl _ _
  rw [same] at marked
  rw [lowerFiles_eq awake world paths] at repeats distinct marked ⊢
  rw [lowerFiles_eq awake later whole, intake.sources]
  rw [intake.sources] at repeats
  obtain ⟨-, report, trees⟩ := repeats.retraces
    (session.fresh (takeIn world paths).sources) (.refl _)
  refine ⟨trees.eq distinct, ?_, marked⟩
  simp only [Progress.after, Report.merge, report, intake.report, Nat.add_right_comm]

end

def loweredCard : Tree :=
  (Tree.empty.edit (.write "a.css" (.text (cardSource "" "0").text) 0)).edit
    (.write "out/a.scoped.css" (.text (Output.render "")) 0)

theorem repeatable_loweredCard : Repeatable (ofSettings sharedOutput false).layout loweredCard
    ((ofSettings sharedOutput false).lowerFiles (.ofTree loweredCard)
      ["a.css", "out/a.scoped.css"]).world.tree ["a.css", "out/a.scoped.css"] := by
  have ran : ((ofSettings sharedOutput false).lowerFiles (.ofTree loweredCard)
      ["a.css", "out/a.scoped.css"]).world.tree =
        loweredCard.put ["out", "a.scoped.css"]
          (.text (Output.render ".card p \x7b top: 0 \x7d")) := by
    decide +kernel
  rw [ran]
  constructor
  · intro path member origin inside output key target reaches others
    rcases List.mem_pair.mp member with rfl | rfl
    · -- No output file is the card.
      rw [Tree.reaches_iff_key?] at reaches others
      rcases List.mem_pair.mp inside with rfl | rfl
      · obtain rfl : "out/a.scoped.css" = output :=
          Output.Destination.file.inj (Eq.trans (by decide +kernel) target)
        rw [← reaches] at others
        exact absurd others (by decide +kernel)
      · obtain rfl : "out/a.scoped.scoped.css" = output :=
          Output.Destination.file.inj (Eq.trans (by decide +kernel) target)
        rw [← reaches] at others
        exact absurd others (by decide +kernel)
    · decide +kernel
  · intro path member level
    rcases List.mem_pair.mp member with rfl | rfl
    · exact absurd level (by decide +kernel)
    · exact absurd level (by decide +kernel)

/-- A run over a card and its output, and then a run that meets the output twice. -/
theorem lowerFiles_again_loweredCard : ∃ first second : Progress,
    first = (ofSettings sharedOutput false).lowerFiles (.ofTree loweredCard)
      ["a.css", "out/a.scoped.css"] ∧
    second = (ofSettings sharedOutput false).lowerFiles (.ofTree first.world.tree)
      ["out/a.scoped.css", "a.css", "out/a.scoped.css"] ∧
    second.world.tree = first.world.tree ∧
    second.report =
      { Report.empty with written := [.file "out/a.scoped.css"], generated := 2 } := by
  obtain ⟨first, ran⟩ : ∃ first, (ofSettings sharedOutput false).lowerFiles
    (.ofTree loweredCard) ["a.css", "out/a.scoped.css"] = first := ⟨_, rfl⟩
  obtain ⟨second, again⟩ : ∃ second, (ofSettings sharedOutput false).lowerFiles
    (.ofTree first.world.tree) ["out/a.scoped.css", "a.css", "out/a.scoped.css"] = second :=
      ⟨_, rfl⟩
  have report : first.report =
      { Report.empty with written := [.file "out/a.scoped.css"], generated := 1 } := by
    rw [← ran]
    decide +kernel
  have proper : loweredCard.Proper := (Tree.proper_empty.edit _).edit _
  have rooted : loweredCard.Rooted := (Tree.rooted_empty.edit _).edit _
  have written : ∀ path ∈ ["out/a.scoped.css"], .file path ∈ first.report.written := by
    rw [report]
    simp
  have same : (World.ofTree first.world.tree).tree = first.world.tree := rfl
  obtain ⟨trees, reports, -⟩ := lowerFiles_again rfl proper rooted ran
    (ran ▸ repeatable_loweredCard) written (.extra (.path (.path .nil))) same again
  refine ⟨first, second, ran.symm, again.symm, trees, ?_⟩
  rw [reports, report]
  rfl

/-- A card, a stylesheet where its output goes, and one whose name is the name of its output. -/
def crossedCards : Tree :=
  ((Tree.empty.edit (.write "b.css" (.text (cardSource "" "0").text) 0)).edit
    (.write "out/b.scoped.css" (.text (cardSource "" "1").text) 0)).edit
      (.write "b.scoped.css" (.text (cardSource "" "2").text) 0)

/-- No path is the output file of another one as it is spelled, and the second run changes a file:
the output of the card takes the place of a source that is spelled with a dot before it, and then
the output file of that source is free for the third one. -/
theorem exists_source_respelled : ∃ (world : World) (paths : List String) (first : Progress),
    world.tree.Proper ∧ world.tree.Rooted ∧ paths.Nodup ∧
      (ofSettings sharedOutput false).lowerFiles world paths = first ∧
      (∀ path ∈ paths, ∀ origin ∈ paths, ∀ output,
        (ofSettings sharedOutput false).layout.destination origin = .file output →
        Path.components path = Path.components output → Source.read world.tree path = .ok none) ∧
      ((ofSettings sharedOutput false).lowerFiles (.ofTree first.world.tree) paths).world.tree ≠
        first.world.tree := by
  have proper : crossedCards.Proper := ((Tree.proper_empty.edit _).edit _).edit _
  have rooted : crossedCards.Rooted := ((Tree.rooted_empty.edit _).edit _).edit _
  refine ⟨.ofTree crossedCards, ["b.css", "./out/b.scoped.css", "b.scoped.css"], _, proper, rooted,
    by decide, rfl, ?_, by decide +kernel⟩
  intro path member origin inside output target same
  exfalso
  have apart : ∀ path ∈ ["b.css", "./out/b.scoped.css", "b.scoped.css"],
      ∀ origin ∈ ["b.css", "./out/b.scoped.css", "b.scoped.css"],
        Path.components path ≠
          Path.components ((ofSettings sharedOutput false).layout.outputFile origin) := by
    decide +kernel
  have written : ∀ origin ∈ ["b.css", "./out/b.scoped.css", "b.scoped.css"],
      (ofSettings sharedOutput false).layout.destination origin =
        .file ((ofSettings sharedOutput false).layout.outputFile origin) := by
    decide +kernel
  obtain rfl := Output.Destination.file.inj ((written origin inside).symm.trans target)
  exact apart path member origin inside same

def twoCards : Tree :=
  (Tree.empty.edit (.write "a.css" (.text (cardSource "" "0").text) 0)).edit
    (.write "b.css" (.text (cardSource "" "1").text) 0)

/-- The files of the paths with steps up matter: the directory that the first run makes for the
output of one card opens a way to the other card, which the second run lowers as well. -/
theorem exists_source_opened : ∃ (world : World) (paths : List String) (first : Progress),
    world.tree.Proper ∧ world.tree.Rooted ∧ paths.Nodup ∧
      (ofSettings sharedOutput false).lowerFiles world paths = first ∧
      (∀ path ∈ paths, ∀ origin ∈ paths, ∀ output key,
        (ofSettings sharedOutput false).layout.destination origin = .file output →
        first.world.tree.Reaches path key → first.world.tree.Reaches output key →
        Source.read world.tree path = .ok none) ∧
      ((ofSettings sharedOutput false).lowerFiles (.ofTree first.world.tree) paths).world.tree ≠
        first.world.tree := by
  have proper : twoCards.Proper := (Tree.proper_empty.edit _).edit _
  have rooted : twoCards.Rooted := (Tree.rooted_empty.edit _).edit _
  refine ⟨.ofTree twoCards, ["b.css", "out/../a.css"], _, proper, rooted, by decide, rfl, ?_,
    by decide +kernel⟩
  intro path member origin inside output key target reaches others
  exfalso
  have ran : ((ofSettings sharedOutput false).lowerFiles (.ofTree twoCards)
      ["b.css", "out/../a.css"]).world.tree =
        (twoCards.edit (.makeDirectory "out")).put ["out", "b.scoped.css"]
          (.text (Output.render ".card p \x7b top: 1 \x7d")) := by
    decide +kernel
  rw [ran, Tree.reaches_iff_key?] at reaches others
  rw [← reaches] at others
  rcases List.mem_pair.mp inside with rfl | rfl
  · obtain rfl : "out/b.scoped.css" = output :=
      Output.Destination.file.inj (Eq.trans (by decide +kernel) target)
    rcases List.mem_pair.mp member with rfl | rfl
    · exact absurd others (by decide +kernel)
    · exact absurd others (by decide +kernel)
  · obtain rfl : "out/a.scoped.css" = output :=
      Output.Destination.file.inj (Eq.trans (by decide +kernel) target)
    rcases List.mem_pair.mp member with rfl | rfl
    · exact absurd others (by decide +kernel)
    · exact absurd others (by decide +kernel)

end ScopeLowering.Session
