import ScopeLowering.Proofs.Output.Deposit
import ScopeLowering.Proofs.Session.Memory

/-!
# What a batch does to the files

A batch makes directories and writes generated output to the destinations of its sources that have
scope blocks. All other entries stay as they are.
-/

namespace ScopeLowering.Output

/-- Output files are recognised as generated output. -/
theorem isMarked_render (css : String) : Source.isMarked (render css) = true := by
  have marked : (render css).toList = Source.marker.toList ++ ('\n' :: css.toList ++ ['\n']) := by
    simp [render, String.toList_append]
  have trimmed : Text.trimStart (render css).toList = (render css).toList := by
    rw [marked]
    rfl
  rw [Source.isMarked, trimmed, marked, List.isPrefixOf_iff_prefix]
  exact List.prefix_append _ _

end ScopeLowering.Output

namespace ScopeLowering.Files.Tree

variable {tree before middle after : Tree} {aimed : String → Prop} {key : Key} {path : String}

theorem readText_of_locate {node : Node} (located : tree.locate path = .ok (.occupied key node)) :
    tree.readText path =
      if node.access = .locked then .error .denied
      else match node.entry with
        | .file (.text text) _ => .ok text
        | .file (.bytes _) _ => .error .notText
        | .directory => .error .isADirectory := by
  unfold readText stat
  exact located ▸ rfl

/-- Generated output is in the open file that a path leads to. -/
def Generated (tree : Tree) (path : String) (key : Key) : Prop :=
  ∃ css modified, tree.locate path =
    .ok (.occupied key ⟨.file (.text (Output.render css)) modified, .writable⟩)

/-- All that can become of an entry: it stays, a directory is made, or output is generated in the
file that one of the aims leads to. -/
inductive Fate (before after : Tree) (aimed : String → Prop) (key : Key) : Prop
  | kept (same : after.nodes.get? key = before.nodes.get? key)
  | made (absent : before.nodes.get? key = none) (directory : after.HasDirectory key)
  | written {path : String} (aim : aimed path) (generated : after.Generated path key)

theorem Generated.exists_text (generated : after.Generated path key) :
    ∃ css modified, after.nodes.get? key =
      some ⟨.file (.text (Output.render css)) modified, .writable⟩ := by
  obtain ⟨css, modified, located⟩ := generated
  exact ⟨css, modified, (leadsTo_of_locate_occupied located).2⟩

theorem Generated.read (generated : tree.Generated path key) :
    Source.read tree path = .ok none := by
  obtain ⟨css, modified, located⟩ := generated
  simp [Source.read, readText_of_locate located, Output.isMarked_render]

theorem Generated.reaches (generated : tree.Generated path key) : tree.Reaches path key := by
  obtain ⟨css, modified, located⟩ := generated
  exact ⟨_, locate_unlocked located⟩

/-- A file that stays as it is can be found as before. -/
theorem Grows.locate_of_kept {node : Node} (grows : before.Grows after)
    (located : before.locate path = .ok (.occupied key node))
    (same : after.nodes.get? key = before.nodes.get? key) :
    after.locate path = .ok (.occupied key node) := by
  obtain ⟨-, here⟩ := leadsTo_of_locate_occupied located
  have becomes := grows.becomes_locate path
  rw [located] at becomes
  generalize after.locate path = result at becomes
  cases becomes with
  | occupied there alike =>
      rw [same, here] at there
      rw [Option.some.inj there]

/-- The output in a file stays generated output. -/
theorem Generated.fate (generated : before.Generated path key) (grows : before.Grows after)
    (fate : before.Fate after aimed key) : after.Generated path key := by
  obtain ⟨css, modified, located⟩ := generated
  obtain ⟨-, here⟩ := leadsTo_of_locate_occupied located
  cases fate with
  | kept same => exact ⟨css, modified, grows.locate_of_kept located same⟩
  | made absent =>
      rw [here] at absent
      cases absent
  | written aim generated =>
      obtain ⟨other, time, stored⟩ := generated.exists_text
      have becomes := grows.becomes_locate path
      rw [located] at becomes
      generalize now : after.locate path = result at becomes
      cases becomes with
      | occupied there alike =>
          obtain rfl := Option.some.inj (there.symm.trans stored)
          exact ⟨other, time, now⟩

theorem Fate.trans (one : before.Fate middle aimed key) (two : middle.Fate after aimed key)
    (grows : middle.Grows after) : before.Fate after aimed key := by
  cases two with
  | written aim generated => exact .written aim generated
  | kept same =>
      cases one with
      | kept earlier => exact .kept (same.trans earlier)
      | made absent directory =>
          obtain ⟨node, there, isDirectory⟩ := directory
          exact .made absent ⟨node, same.trans there, isDirectory⟩
      | written aim generated =>
          have stays : middle.Fate after aimed key := .kept same
          exact .written aim (generated.fate grows stays)
  | made absent directory =>
      cases one with
      | kept earlier => exact .made (earlier.symm.trans absent) directory
      | made _ isDirectory =>
          obtain ⟨node, there, -⟩ := isDirectory
          rw [absent] at there
          cases there
      | written aim generated =>
          obtain ⟨css, modified, there⟩ := generated.exists_text
          rw [absent] at there
          cases there

theorem Fate.mono {others : String → Prop} (fate : before.Fate after aimed key)
    (more : ∀ path, aimed path → others path) : before.Fate after others key := by
  cases fate with
  | kept same => exact .kept same
  | made absent directory => exact .made absent directory
  | written aim generated => exact .written (more _ aim) generated

end ScopeLowering.Files.Tree

namespace ScopeLowering.Session.Progress

open ScopeLowering.Files (Key Tree)
open ScopeLowering.Output (Layout)

def Aims (layout : Layout) (sources : List Source) (path : String) : Prop :=
  ∃ source ∈ sources, (∃ css, Stylesheet.lower? source.text.toList = some css) ∧
    layout.destination source.origin = .file path

variable [TextHash]

theorem layout_handle (progress : Progress) (source : Source) :
    (progress.handle source).session.layout = progress.session.layout := by
  have handled := progress.handles source
  generalize progress.outcome source = outcome, progress.handle source = after at handled
  cases handled with
  | withoutScope plain => rfl
  | refused lowered owned => rfl
  | written lowered acquired delivered => exact (acquire_eq_ok acquired).2.1
  | undelivered lowered acquired failed => exact (acquire_eq_ok acquired).2.1

theorem layout_handleAll (progress : Progress) (sources : List Source) :
    (sources.foldl handle progress).session.layout = progress.session.layout := by
  induction sources generalizing progress with
  | nil => rfl
  | cons source sources ih => rw [List.foldl_cons, ih, layout_handle]

theorem tree_succeed (progress : Progress) (source : Source) (destination : Output.Destination) :
    (progress.succeed source destination).world.tree = progress.world.tree := by
  cases destination <;> rfl

/-- A source leaves the files as they are, or its rules are deposited. -/
theorem tree_handle_cases (progress : Progress) (source : Source) :
    (progress.handle source).world.tree = progress.world.tree ∨
      ∃ css path, Stylesheet.lower? source.text.toList = some css ∧
        progress.session.layout.destination source.origin = .file path ∧
        (progress.handle source).world.tree =
          (progress.world.tree.deposit path (Output.render (String.ofList css))).1 := by
  have handled := progress.handles source
  generalize progress.outcome source = outcome, progress.handle source = after at handled
  cases handled with
  | withoutScope plain => exact .inl rfl
  | refused lowered owned => exact .inl rfl
  | @written css session world lowered acquired delivered =>
      rw [tree_succeed]
      rcases Output.World.tree_deliver_cases delivered with same | ⟨path, target, laid⟩
      · exact .inl same
      · exact .inr ⟨css, path, lowered, target, laid⟩
  | @undelivered css session world failure lowered acquired failed =>
      rcases Output.World.tree_deliver_cases failed with same | ⟨path, target, laid⟩
      · exact .inl same
      · exact .inr ⟨css, path, lowered, target, laid⟩

theorem grows_handle (progress : Progress) (source : Source) :
    progress.world.tree.Grows (progress.handle source).world.tree := by
  rcases tree_handle_cases progress source with same | ⟨css, path, -, -, laid⟩
  · rw [same]
    exact .refl _
  · rw [laid]
    exact Tree.grows_deposit _ path _

theorem grows_handleAll (progress : Progress) (sources : List Source) :
    progress.world.tree.Grows (sources.foldl handle progress).world.tree := by
  induction sources generalizing progress with
  | nil => exact .refl _
  | cons source sources ih => exact (progress.grows_handle source).trans (ih _)

theorem fate_handle (progress : Progress) (source : Source) (key : Key) :
    progress.world.tree.Fate (progress.handle source).world.tree
      (Aims progress.session.layout [source]) key := by
  rcases tree_handle_cases progress source with same | ⟨css, path, lowered, target, laid⟩
  · exact .kept (by rw [same])
  · rw [laid]
    rcases Tree.get?_deposit progress.world.tree path (Output.render (String.ofList css)) key
      with same | ⟨absent, directory⟩ | located
    · exact .kept same
    · exact .made absent directory
    · exact .written ⟨source, List.mem_singleton_self source, ⟨css, lowered⟩, target⟩
        ⟨_, _, located⟩

/-- What becomes of the files while sources are handled. -/
theorem fate_handleAll (progress : Progress) (sources : List Source) (key : Key) :
    progress.world.tree.Fate (sources.foldl handle progress).world.tree
      (Aims progress.session.layout sources) key := by
  induction sources generalizing progress with
  | nil => exact .kept rfl
  | cons source sources ih =>
      have first : progress.world.tree.Fate (progress.handle source).world.tree
          (Aims progress.session.layout (source :: sources)) key := by
        apply (progress.fate_handle source key).mono
        rintro path ⟨other, member, aims⟩
        exact ⟨other, List.mem_cons.mpr (.inl (List.mem_singleton.mp member)), aims⟩
      have rest : (progress.handle source).world.tree.Fate
          (sources.foldl handle (progress.handle source)).world.tree
          (Aims progress.session.layout (source :: sources)) key := by
        apply (ih (progress.handle source)).mono
        rintro path ⟨other, member, aims⟩
        rw [layout_handle] at aims
        exact ⟨other, List.mem_cons_of_mem _ member, aims⟩
      exact first.trans rest (grows_handleAll _ sources)

/-- A file that counts as written holds generated output. -/
theorem generated_of_written_handle {progress : Progress} {source : Source} {path : String}
    (written : .file path ∈ (progress.handle source).report.written) :
    .file path ∈ progress.report.written ∨
      ∃ key, (progress.handle source).world.tree.Generated path key := by
  have handled := progress.handles source
  generalize progress.outcome source = outcome, progress.handle source = after at handled written
  cases handled with
  | withoutScope plain => exact .inl written
  | refused lowered owned => exact .inl written
  | undelivered lowered acquired failed => exact .inl written
  | @written css session world lowered acquired delivered =>
      rcases List.mem_append.mp written with earlier | last
      · exact .inl earlier
      · rw [← List.mem_singleton.mp last, Output.World.deliver_file,
          Output.World.writeFile_eq] at delivered
        obtain ⟨same, done⟩ := Prod.mk.inj delivered
        obtain ⟨key, located⟩ := Tree.exists_located_of_deposit done
        rw [tree_succeed, ← same]
        exact .inr ⟨key, _, _, located⟩

/-- The files that a run counts as written hold generated output when it ends. -/
theorem generated_of_written {progress : Progress} {sources : List Source} {path : String}
    (written : .file path ∈ (sources.foldl handle progress).report.written) :
    .file path ∈ progress.report.written ∨
      ∃ key, (sources.foldl handle progress).world.tree.Generated path key := by
  induction sources generalizing progress with
  | nil => exact .inl written
  | cons source sources ih =>
      rcases ih written with first | generated
      · refine (generated_of_written_handle first).imp_right ?_
        rintro ⟨key, generated⟩
        exact ⟨key, generated.fate (grows_handleAll _ sources) (fate_handleAll _ sources key)⟩
      · exact .inr generated

end ScopeLowering.Session.Progress
