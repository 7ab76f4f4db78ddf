import ScopeLowering.Proofs.Stylesheet.Substitution
import ScopeLowering.Proofs.Text.Slice

/-!
# Literal and structural segments

A selector is cut by offsets into its longest stretches of literal and of structural characters.
Every cut is made where the kind of the characters changes, so each stretch is a slice of the
selector, and nothing is lost. A placeholder lies inside one structural stretch: placeholders are
found and replaced in each stretch by itself, with the same result as along the selector.
-/

namespace ScopeLowering.Text.Mode

theorem skeleton_cons_eq_nil_iff {mode : Mode} {c : Char} {text : List Char} :
    mode.skeleton (c :: text) = [] ↔
      mode.structural c = false ∧ (mode.next c).skeleton text = [] := by
  rw [skeleton]
  split
  · rename_i structural
    simp [structural]
  · rename_i literal
    simp [literal]

/-- A text that is all structure is met in plain mode, and is all structure there. -/
theorem ordinary_of_skeleton {mode : Mode} {text : List Char} (nonempty : text ≠ [])
    (whole : mode.skeleton text = text) :
    mode = .plain ∧ ∀ c ∈ text, Mode.plain.structural c = true := by
  induction text generalizing mode with
  | nil => exact absurd rfl nonempty
  | cons c text ih =>
      have structural := structural_of_skeleton_cons whole
      obtain rfl := eq_plain_of_structural structural
      rw [skeleton_of_structural structural, List.cons_inj_right] at whole
      refine ⟨rfl, List.forall_mem_cons.mpr ⟨structural, ?_⟩⟩
      by_cases last : text = []
      · simp [last]
      · exact (ih last whole).2

theorem run_append {mode : Mode} {text rest : List Char} (ends : (mode.after text).run rest = []) :
    mode.run (text ++ rest) = mode.run text := by
  induction text generalizing mode with
  | nil => exact ends
  | cons c text ih =>
      rw [List.cons_append, run, run]
      split
      · rw [ih ends]
      · rfl

end ScopeLowering.Text.Mode

namespace ScopeLowering.Stylesheet

open ScopeLowering.Text

structure Segment where
  literal : Bool
  text : List Char
deriving DecidableEq, Repr

/-- A stretch is all literal or all structure for a scan that comes to it in a mode. -/
def Segment.Uniform (mode : Mode) (segment : Segment) : Prop :=
  mode.skeleton segment.text = if segment.literal then [] else segment.text

/-- A text cut into its longest stretches, for a scan that starts in a mode. -/
inductive Segmented : Mode → List Char → List Segment → Prop where
  | nil {mode : Mode} : Segmented mode [] []
  | cons {mode : Mode} {segment : Segment} {rest : List Char} {segments : List Segment}
      (nonempty : segment.text ≠ []) (uniform : segment.Uniform mode)
      (longest : ∀ next ∈ segments.head?, next.literal ≠ segment.literal)
      (later : Segmented (mode.after segment.text) rest segments) :
      Segmented mode (segment.text ++ rest) (segment :: segments)

/-! ## The cuts -/

structure SegmentPass where
  mode : Mode
  position : Nat
  start : Nat
  kind : Option Bool
  segments : List Segment

def SegmentPass.step (text : List Char) (pass : SegmentPass) (c : Char) : Checked SegmentPass := do
  let literal := !pass.mode.structural c
  let mode := pass.mode.next c
  let position := pass.position + c.utf8Size
  match pass.kind with
  | none => return ⟨mode, position, pass.start, some literal, pass.segments⟩
  | some kind =>
      if kind = literal then return ⟨mode, position, pass.start, some kind, pass.segments⟩
      else
        let stretch ← slice text pass.start pass.position
        return ⟨mode, position, pass.position, some literal, pass.segments ++ [⟨kind, stretch⟩]⟩

def SegmentPass.finish (text : List Char) (pass : SegmentPass) : Checked (List Segment) := do
  match pass.kind with
  | none => return pass.segments
  | some kind =>
      let stretch ← sliceFrom text pass.start
      return pass.segments ++ [⟨kind, stretch⟩]

def quoteSegments (text : List Char) : Checked (List Segment) := do
  let pass ← text.foldlM (SegmentPass.step text) ⟨.plain, 0, 0, none, []⟩
  pass.finish text

variable {mode : Mode} {c : Char} {text rest : List Char} {segment : Segment}
  {segments : List Segment}

theorem Segment.uniform_single (mode : Mode) (c : Char) :
    Segment.Uniform mode ⟨!mode.structural c, [c]⟩ := by
  by_cases structural : mode.structural c = true
  · simp [Uniform, Mode.skeleton_of_structural, structural]
  · simp [Uniform, Mode.skeleton_of_not_structural, structural]

/-- A character of its kind makes a stretch longer. -/
theorem Segment.Uniform.concat (uniform : segment.Uniform mode)
    (same : segment.literal = !(mode.after segment.text).structural c) :
    Segment.Uniform mode ⟨segment.literal, segment.text ++ [c]⟩ := by
  have single := uniform_single (mode.after segment.text) c
  rw [Uniform] at uniform single ⊢
  rw [Mode.skeleton_append, uniform, single, ← same]
  split <;> rfl

namespace SegmentPass

variable {position start : Nat} {kind : Bool} {stretch : List Char}

theorem step_same (same : kind = !mode.structural c) :
    step text ⟨mode, position, start, some kind, segments⟩ c =
      .ok ⟨mode.next c, position + c.utf8Size, start, some kind, segments⟩ := by
  simp only [step, ← same, if_true, checked_pure]

theorem step_other (other : kind ≠ !mode.structural c)
    (cut : slice text start position = .ok stretch) :
    step text ⟨mode, position, start, some kind, segments⟩ c =
      .ok ⟨mode.next c, position + c.utf8Size, position, some !mode.structural c,
        segments ++ [⟨kind, stretch⟩]⟩ := by
  simp only [step, other, if_false, cut, checked_ok_bind, checked_pure]

end SegmentPass

/-- The pass over the rest of a text ends the stretch that it is in and cuts off the others. -/
theorem exists_foldlM_segmentPass (before : List Char) (earlier : List Segment)
    (nonempty : segment.text ≠ []) (uniform : segment.Uniform mode)
    (whole : text = before ++ (segment.text ++ rest)) :
    ∃ first later,
      (rest.foldlM (SegmentPass.step text) ⟨mode.after segment.text,
          byteSize (before ++ segment.text), byteSize before, some segment.literal, earlier⟩ >>=
        SegmentPass.finish text) = .ok (earlier ++ ⟨segment.literal, first⟩ :: later) ∧
      Segmented mode (segment.text ++ rest) (⟨segment.literal, first⟩ :: later) := by
  induction rest generalizing mode before segment earlier with
  | nil =>
      have cut : sliceFrom text (byteSize before) = .ok segment.text := by
        rw [whole, List.append_nil]
        exact sliceFrom_append before segment.text
      refine ⟨segment.text, [], ?_, .cons nonempty uniform (by simp) .nil⟩
      simp only [List.foldlM_nil, checked_pure, checked_ok_bind, SegmentPass.finish, cut]
  | cons c rest ih =>
      rw [List.foldlM_cons]
      by_cases same : segment.literal = !(mode.after segment.text).structural c
      · obtain ⟨first, later, passed, segmented⟩ :=
          ih before earlier (by simp) (uniform.concat same) (by simp [whole])
        rw [Mode.after_append, Mode.after_cons, Mode.after_nil, ← List.append_assoc,
          byteSize_concat] at passed
        rw [List.append_assoc] at segmented
        refine ⟨first, later, ?_, segmented⟩
        rwa [SegmentPass.step_same same, checked_ok_bind]
      · have cut : slice text (byteSize before) (byteSize (before ++ segment.text)) =
            .ok segment.text := by
          rw [whole]
          exact slice_append before segment.text (c :: rest)
        obtain ⟨first, later, passed, segmented⟩ :=
          ih (before ++ segment.text) (earlier ++ [segment]) (List.cons_ne_nil c [])
            (Segment.uniform_single (mode.after segment.text) c) (by simp [whole])
        rw [byteSize_concat, List.append_assoc] at passed
        refine ⟨segment.text, _, ?_, .cons nonempty uniform (by simpa using Ne.symm same) segmented⟩
        rwa [SegmentPass.step_other same cut, checked_ok_bind]

/-- The pass never misses, and gives the longest stretches. -/
theorem exists_quoteSegments (text : List Char) :
    ∃ segments, quoteSegments text = .ok segments ∧ Segmented .plain text segments := by
  cases text with
  | nil => exact ⟨[], rfl, .nil⟩
  | cons c rest =>
      obtain ⟨first, later, passed, segmented⟩ :=
        exists_foldlM_segmentPass [] [] (List.cons_ne_nil c []) (Segment.uniform_single .plain c)
          (rfl : c :: rest = [] ++ ([c] ++ rest))
      refine ⟨_, ?_, segmented⟩
      simpa [quoteSegments, List.foldlM_cons, SegmentPass.step] using passed

example : quoteSegments "[x=\"&\"] \\& b".toList =
    .ok [⟨false, "[x=".toList⟩, ⟨true, "\"&\"".toList⟩, ⟨false, "] ".toList⟩,
      ⟨true, "\\&".toList⟩, ⟨false, " b".toList⟩] := by decide

/-- The stretches of a text, put together, are the text. -/
theorem Segmented.flatMap_text (segmented : Segmented mode text segments) :
    segments.flatMap Segment.text = text := by
  induction segmented with
  | nil => rfl
  | cons _ _ _ _ ih => rw [List.flatMap_cons, ih]

/-! ## Placeholders -/

/-- Behind a structural stretch, no structure follows. -/
theorem Segmented.run_eq_nil (segmented : Segmented mode text segments)
    (literal : ∀ next ∈ segments.head?, next.literal = true) : mode.run text = [] := by
  cases segmented with
  | nil => rfl
  | @cons _ segment rest segments nonempty uniform longest later =>
      obtain ⟨c, stretch, spelled⟩ := List.exists_cons_of_ne_nil nonempty
      have quoted : mode.skeleton (c :: stretch) = [] := by
        rw [← spelled, uniform, if_pos (literal segment rfl)]
      have first := (Mode.skeleton_cons_eq_nil_iff.mp quoted).1
      rw [spelled, List.cons_append, Mode.run, first]
      rfl

/-- A stretch is literal, or it is structure that stands in plain mode up to a literal one. -/
theorem Segmented.first_cases (nonempty : segment.text ≠ []) (uniform : segment.Uniform mode)
    (longest : ∀ next ∈ segments.head?, next.literal ≠ segment.literal)
    (later : Segmented (mode.after segment.text) rest segments) :
    (segment.literal = true ∧ mode.skeleton segment.text = []) ∨
      (segment.literal = false ∧ mode = .plain ∧ mode.after segment.text = .plain ∧
        (∀ c ∈ segment.text, Mode.plain.structural c = true) ∧ Mode.plain.run rest = []) := by
  cases kind : segment.literal with
  | true =>
      rw [Segment.Uniform, kind, if_pos rfl] at uniform
      exact .inl ⟨rfl, uniform⟩
  | false =>
      rw [Segment.Uniform, kind, if_neg Bool.false_ne_true] at uniform
      obtain ⟨rfl, ordinary⟩ := Mode.ordinary_of_skeleton nonempty uniform
      have plain := Mode.after_of_ordinary ordinary
      rw [kind] at longest
      have ends := later.run_eq_nil (by simpa using longest)
      rw [plain] at ends
      exact .inr ⟨rfl, rfl, plain, ordinary, ends⟩

namespace Placeholder

variable {placeholder : Placeholder} {root stretch : List Char} {extent : Nat}

/-- A placeholder reaches no further than the structural stretch that it starts in. -/
theorem extent?_append (ordinary : ∀ c ∈ stretch, Mode.plain.structural c = true)
    (ends : Mode.plain.run rest = []) :
    placeholder.extent? (stretch ++ rest) = placeholder.extent? stretch := by
  have complete {found after : List Char} (whole : stretch = found ++ after) :
      placeholder.CompleteBefore (after ++ rest) ↔ placeholder.CompleteBefore after := by
    have plain : Mode.plain.after after = .plain :=
      Mode.after_of_ordinary fun c member => ordinary c (by simp [whole, member])
    have same : Mode.plain.run (after ++ rest) = Mode.plain.run after :=
      Mode.run_append (by rw [plain, ends])
    rw [← completeBefore_run, same, completeBefore_run]
  ext extent
  rw [extent?_eq_some_iff, extent?_eq_some_iff]
  constructor
  · rintro ⟨found, after, whole, length, spelled, completed⟩
    obtain ⟨between, rfl, rfl⟩ :
        ∃ between, stretch = found ++ between ∧ after = between ++ rest := by
      rcases List.append_eq_append_iff.mp whole with ⟨more, longer, shape⟩ | inside
      · cases more with
        | nil => exact ⟨[], by simpa using longer.symm, shape.symm⟩
        | cons c more =>
            -- The spelling would go on with a structural character, and none follows.
            have structural : Mode.plain.structural c = true :=
              spelled.ordinary c (by simp [longer])
            rw [shape, List.cons_append, Mode.run, if_pos structural] at ends
            cases ends
      · exact inside
    exact ⟨found, between, rfl, length, spelled, (complete rfl).mp completed⟩
  · rintro ⟨found, after, rfl, length, spelled, completed⟩
    exact ⟨found, after ++ rest, List.append_assoc .., length, spelled,
      (complete rfl).mpr completed⟩

theorem extent_lt_length (found : placeholder.extent? text = some extent) :
    extent < text.length := by
  obtain ⟨spelled, after, rfl, length, -⟩ := extent?_eq_some_iff.mp found
  rw [List.length_append]
  omega

/-! What a search or a replacement does in a text is what it does in the first stretch, and then
in the rest. -/

theorem occurs_literal_append (quoted : mode.skeleton stretch = []) :
    placeholder.occurs mode (stretch ++ rest) = placeholder.occurs (mode.after stretch) rest := by
  induction stretch generalizing mode with
  | nil => rfl
  | cons c stretch ih =>
      obtain ⟨literal, quoted⟩ := Mode.skeleton_cons_eq_nil_iff.mp quoted
      rw [List.cons_append, Placeholder.occurs, literal, Bool.false_and, Bool.false_or, ih quoted,
        Mode.after_cons]

theorem replaceFrom_literal_append (quoted : mode.skeleton stretch = []) :
    placeholder.replaceFrom root 0 mode (stretch ++ rest) =
      stretch ++ placeholder.replaceFrom root 0 (mode.after stretch) rest := by
  induction stretch generalizing mode with
  | nil => rfl
  | cons c stretch ih =>
      obtain ⟨literal, quoted⟩ := Mode.skeleton_cons_eq_nil_iff.mp quoted
      have none : placeholder.start? mode c (stretch ++ rest) = none := by
        rw [start?, literal]
        rfl
      rw [List.cons_append, replaceFrom_of_none none, ih quoted, Mode.after_cons, List.cons_append]

theorem occurs_structural_append (ordinary : ∀ c ∈ stretch, Mode.plain.structural c = true)
    (ends : Mode.plain.run rest = []) :
    placeholder.occurs .plain (stretch ++ rest) =
      (placeholder.occurs .plain stretch || placeholder.occurs .plain rest) := by
  induction stretch with
  | nil => rfl
  | cons c stretch ih =>
      have next := Mode.next_of_structural (ordinary c List.mem_cons_self)
      rw [List.cons_append, Placeholder.occurs, Placeholder.occurs, ← List.cons_append,
        extent?_append ordinary ends, next,
        ih fun other member => ordinary other (List.mem_cons_of_mem c member), Bool.or_assoc]

theorem replaceFrom_structural_append (ordinary : ∀ c ∈ stretch, Mode.plain.structural c = true)
    (ends : Mode.plain.run rest = []) (skip : Nat) (within : skip ≤ stretch.length) :
    placeholder.replaceFrom root skip .plain (stretch ++ rest) =
      placeholder.replaceFrom root skip .plain stretch ++
        placeholder.replaceFrom root 0 .plain rest := by
  induction stretch generalizing skip with
  | nil =>
      obtain rfl := Nat.le_zero.mp within
      rfl
  | cons c stretch ih =>
      have structural := ordinary c List.mem_cons_self
      have next := Mode.next_of_structural structural
      have later := ih fun other member => ordinary other (List.mem_cons_of_mem c member)
      have same : placeholder.start? .plain c (stretch ++ rest) =
          placeholder.start? .plain c stretch := by
        rw [start?, start?, ← List.cons_append, extent?_append ordinary ends]
      rw [List.cons_append]
      cases skip with
      | succ skip =>
          rw [replaceFrom_succ, replaceFrom_succ, next, later skip (Nat.le_of_succ_le_succ within)]
      | zero =>
          cases found : placeholder.start? .plain c stretch with
          | none =>
              rw [replaceFrom_of_none found, replaceFrom_of_none (same.trans found), next,
                later 0 (Nat.zero_le _), List.cons_append]
          | some extent =>
              have inside := extent_lt_length (start?_eq_some_iff.mp found).2
              rw [replaceFrom_of_start found, replaceFrom_of_start (same.trans found), next,
                later extent (Nat.le_of_lt_succ inside), List.append_assoc]

end Placeholder

def Segment.replace (placeholder : Placeholder) (root : List Char) (segment : Segment) :
    List Char :=
  if segment.literal then segment.text else placeholder.replace root segment.text

def Segment.occurs (placeholder : Placeholder) (segment : Segment) : Bool :=
  !segment.literal && placeholder.occurs .plain segment.text

/-- A placeholder lies in a text exactly if it lies in one of the structural stretches. -/
theorem Segmented.any_occurs (segmented : Segmented mode text segments)
    (placeholder : Placeholder) :
    segments.any (Segment.occurs placeholder) = placeholder.occurs mode text := by
  induction segmented with
  | nil => rfl
  | cons nonempty uniform longest later ih =>
      rw [List.any_cons, ih, Segment.occurs]
      rcases first_cases nonempty uniform longest later with
        ⟨kind, quoted⟩ | ⟨kind, rfl, plain, ordinary, ends⟩
      · rw [Placeholder.occurs_literal_append quoted, kind, Bool.not_true, Bool.false_and,
          Bool.false_or]
      · rw [Placeholder.occurs_structural_append ordinary ends, plain, kind, Bool.not_false,
          Bool.true_and]

/-- Placeholders are replaced in the structural stretches, each by itself. -/
theorem Segmented.flatMap_replace (segmented : Segmented mode text segments)
    (placeholder : Placeholder) (root : List Char) :
    segments.flatMap (Segment.replace placeholder root) =
      placeholder.replaceFrom root 0 mode text := by
  induction segmented with
  | nil => rfl
  | cons nonempty uniform longest later ih =>
      rw [List.flatMap_cons, ih, Segment.replace]
      rcases first_cases nonempty uniform longest later with
        ⟨kind, quoted⟩ | ⟨kind, rfl, plain, ordinary, ends⟩
      · rw [Placeholder.replaceFrom_literal_append quoted, if_pos kind]
      · rw [Placeholder.replaceFrom_structural_append ordinary ends 0 (Nat.zero_le _), plain, kind,
          if_neg Bool.false_ne_true, Placeholder.replace]

def scopeSegments (root selector : List Char) : Checked (List Char) :=
  if (trim selector).isEmpty then return []
  else do
    let segments ← quoteSegments (trim selector)
    if segments.any (Segment.occurs .scope) then
      return segments.flatMap (Segment.replace .scope root)
    else if segments.any (Segment.occurs .nesting) then
      return segments.flatMap (Segment.replace .nesting root)
    else return root ++ ' ' :: trim selector

theorem scopeSegments_eq (root selector : List Char) :
    scopeSegments root selector = .ok (selectorUnder root selector) := by
  obtain ⟨segments, cut, segmented⟩ := exists_quoteSegments (trim selector)
  simp only [scopeSegments, cut, checked_ok_bind, checked_pure, segmented.any_occurs,
    segmented.flatMap_replace, selectorUnder, Scoping.ofSelector]
  by_cases blank : (trim selector).isEmpty = true
  · simp only [blank, if_true]
  · by_cases scope : Placeholder.scope.occurs .plain (trim selector) = true
    · simp only [blank, scope, if_true, if_false, Bool.false_eq_true, Placeholder.replace]
    · by_cases nesting : Placeholder.nesting.occurs .plain (trim selector) = true
      · simp only [blank, scope, nesting, if_true, if_false, Bool.false_eq_true,
          Placeholder.replace]
      · simp only [blank, scope, nesting, if_false, Bool.false_eq_true]

end ScopeLowering.Stylesheet
