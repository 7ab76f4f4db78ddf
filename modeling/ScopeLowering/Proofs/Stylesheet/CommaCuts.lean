import ScopeLowering.Proofs.Stylesheet.Commas

/-!
# Exact and final cuts

A selector list is cut at all its commas of depth zero and nowhere else. So its parts joined by
commas are the list again, but for such a comma at the end of the list, behind which no part
stands. A part that is cut once more stays whole, as depth and scan start afresh at every cut.
-/

namespace ScopeLowering.Stylesheet

open ScopeLowering.Text

/-- A text behind which a comma cuts: it ends outside strings, no backslash waits, and as many
parentheses open in it as close. -/
structure CutsBehind (before : List Char) : Prop where
  plain : Mode.plain.after before = .plain
  level : (Mode.plain.skeleton before).count '(' = (Mode.plain.skeleton before).count ')'

theorem cutsBehind_iff {before : List Char} :
    CutsBehind before ↔ Mode.plain.after before = .plain ∧
      parenthesisDepthAfter 0 (Mode.plain.skeleton before) = 0 := by
  rw [parenthesisDepthAfter_eq]
  constructor
  · rintro ⟨plain, level⟩
    exact ⟨plain, by omega⟩
  · rintro ⟨plain, level⟩
    exact ⟨plain, by omega⟩

/-! ## Cuts of the parts -/

theorem extendFirst_append (c : Char) {parts : List (List Char)} (nonempty : parts ≠ [])
    (more : List (List Char)) : extendFirst c (parts ++ more) = extendFirst c parts ++ more := by
  cases parts with
  | nil => exact absurd rfl nonempty
  | cons part parts => rfl

/-- A comma of depth zero separates: what stands before it and what stands behind it are cut
apart. -/
theorem partsAtCommas_append_comma {depth : Int} {mode : Mode} {before : List Char}
    (plain : mode.after before = .plain)
    (level : parenthesisDepthAfter depth (mode.skeleton before) = 0) (rest : List Char) :
    partsAtCommas depth mode (before ++ ',' :: rest) =
      partsAtCommas depth mode before ++ partsAtCommas 0 .plain rest := by
  induction before generalizing depth mode with
  | nil =>
      obtain rfl : mode = .plain := plain
      obtain rfl : depth = 0 := level
      rfl
  | cons c before ih =>
      rw [List.cons_append, partsAtCommas, partsAtCommas]
      by_cases structural : mode.structural c = true
      · rw [Mode.skeleton_of_structural structural, ← Mode.next_of_structural structural] at level
        rw [if_pos structural, if_pos structural]
        by_cases comma : c = ',' ∧ depth = 0
        · obtain ⟨rfl, rfl⟩ := comma
          have behind : parenthesisDepthAfter 0 ((mode.next ',').skeleton before) = 0 := level
          rw [if_pos ⟨rfl, rfl⟩, if_pos ⟨rfl, rfl⟩, ih plain behind, List.cons_append]
        · rw [if_neg comma, if_neg comma, ih plain level,
            extendFirst_append c (partsAtCommas_ne_nil _ _ _)]
      · rw [Mode.skeleton_of_not_structural structural] at level
        rw [if_neg structural, if_neg structural, ih plain level,
          extendFirst_append c (partsAtCommas_ne_nil _ _ _)]

namespace CutAtLevel

variable {depth : Int} {mode : Mode} {text : List Char} {parts : List (List Char)}

/-- Between two parts stands a comma of depth zero. The cut may be one of a rest, with some text
before it that leads to its depth and mode. -/
theorem cutsBehind (cut : CutAtLevel depth mode text parts) (lead : List Char)
    (reached : parenthesisDepthAfter 0 (Mode.plain.skeleton lead) = depth)
    (scanned : Mode.plain.after lead = mode) {earlier later : List (List Char)}
    (split : parts = earlier ++ later) (some : earlier ≠ []) (others : later ≠ []) :
    CutsBehind (lead ++ [','].intercalate earlier) := by
  induction cut generalizing lead earlier with
  | last uncut =>
      rcases List.singleton_eq_append_iff.mp split with ⟨none, -⟩ | ⟨-, none⟩
      · exact absurd none some
      · exact absurd none others
  | @comma depth mode part text parts uncut level plain rest ih =>
      have first : CutsBehind (lead ++ part) := by
        rw [cutsBehind_iff, Mode.after_append, Mode.skeleton_append, parenthesisDepthAfter_append,
          scanned, reached]
        exact ⟨plain, level⟩
      obtain ⟨_, earlier, rfl⟩ := List.exists_cons_of_ne_nil some
      obtain ⟨rfl, inner⟩ := List.cons.inj split
      by_cases single : earlier = []
      · subst single
        rwa [List.intercalate_singleton]
      · obtain ⟨outside, ground⟩ := cutsBehind_iff.mp first
        rw [List.intercalate_cons_of_ne_nil single, ← List.append_assoc, ← List.append_assoc]
        refine ih _ ?_ ?_ inner single
        · rw [Mode.skeleton_append, parenthesisDepthAfter_append, ground, outside]
          rfl
        · rw [Mode.after_append, outside]
          rfl

/-- No part has a comma of depth zero. -/
theorem uncut_of_mem (cut : CutAtLevel depth mode text parts) (ground : depth = 0)
    (start : mode = .plain) : ∀ part ∈ parts, Uncut 0 (Mode.plain.skeleton part) := by
  induction cut with
  | last uncut =>
      subst ground start
      simpa using uncut
  | comma uncut level plain rest ih =>
      subst ground start
      exact List.forall_mem_cons.mpr ⟨uncut, ih rfl rfl⟩

end CutAtLevel

/-! ## Selectors of a list -/

theorem dropEmptyLast_concat (parts : List (List Char)) (last : List Char) :
    dropEmptyLast (parts ++ [last]) = if last = [] then parts else parts ++ [last] := by
  simp [dropEmptyLast]

theorem intercalate_concat_nil {parts : List (List Char)} (nonempty : parts ≠ []) :
    [','].intercalate (parts ++ [[]]) = [','].intercalate parts ++ [','] := by
  induction parts with
  | nil => exact absurd rfl nonempty
  | cons first parts ih =>
      by_cases single : parts = []
      · subst single
        simp [List.intercalate_cons_cons]
      · rw [List.cons_append, List.intercalate_cons_of_ne_nil (by simp), ih single,
          List.intercalate_cons_of_ne_nil single, List.append_assoc _ _ [',']]

/-- The selectors of a list are its parts, without the last one if that is empty. -/
theorem exists_partsAtCommas_concat (text : List Char) :
    ∃ earlier last, partsAtCommas 0 .plain text = earlier ++ [last] ∧
      splitSelectors text = if last = [] then earlier else earlier ++ [last] := by
  rcases List.eq_nil_or_concat' (partsAtCommas 0 .plain text) with none | ⟨earlier, last, shape⟩
  · exact absurd none (partsAtCommas_ne_nil 0 .plain text)
  · exact ⟨earlier, last, shape, by rw [splitSelectors, shape, dropEmptyLast_concat]⟩

/-- The parts of a list joined by commas are the list, without the last character exactly where
that is a comma of depth zero. -/
theorem intercalate_splitSelectors (text : List Char) :
    ([','].intercalate (splitSelectors text) = text ∧
        ∀ before, text = before ++ [','] → ¬CutsBehind before) ∨
      (text = [','].intercalate (splitSelectors text) ++ [','] ∧
        CutsBehind ([','].intercalate (splitSelectors text))) := by
  have whole := intercalate_partsAtCommas 0 .plain text
  obtain ⟨earlier, last, shape, selectors⟩ := exists_partsAtCommas_concat text
  rw [shape] at whole
  by_cases empty : last = []
  · subst empty
    rw [if_pos rfl] at selectors
    rw [selectors]
    by_cases none : earlier = []
    · subst none
      obtain rfl : [] = text := whole
      exact .inl ⟨rfl, fun before shape => by simp at shape⟩
    · have cut := cutAtLevel_partsAtCommas 0 .plain text
      rw [intercalate_concat_nil none] at whole
      exact .inr ⟨whole.symm, cut.cutsBehind [] rfl rfl shape none (by simp)⟩
  · rw [if_neg empty, ← shape] at selectors
    rw [selectors, intercalate_partsAtCommas]
    refine .inl ⟨rfl, ?_⟩
    rintro before rfl behind
    obtain ⟨plain, level⟩ := cutsBehind_iff.mp behind
    rw [partsAtCommas_append_comma plain level []] at shape
    exact empty (List.cons.inj (List.append_inj' shape rfl).2).1.symm

theorem splitSelectors_of_uncut {text : List Char} (uncut : Uncut 0 (Mode.plain.skeleton text))
    (nonempty : text ≠ []) : splitSelectors text = [text] := by
  rw [splitSelectors, partsAtCommas_eq_singleton_iff.mpr uncut, ← List.nil_append [text],
    dropEmptyLast_concat, if_neg nonempty]

theorem splitSelectors_prefix (text : List Char) :
    splitSelectors text <+: partsAtCommas 0 .plain text := by
  rw [splitSelectors, dropEmptyLast]
  split
  · exact List.dropLast_prefix _
  · exact List.prefix_rfl

/-- A list is cut exactly: joined by commas its parts are the list again, or all of it but a last
comma of depth zero, and every comma between two parts has depth zero. The cut is final: a part
that is not empty is one selector. -/
theorem splitSelectors_exact (text : List Char) :
    (([','].intercalate (splitSelectors text) = text ∧
        ∀ before, text = before ++ [','] → ¬CutsBehind before) ∨
      (text = [','].intercalate (splitSelectors text) ++ [','] ∧
        CutsBehind ([','].intercalate (splitSelectors text)))) ∧
    (∀ earlier later, splitSelectors text = earlier ++ later → earlier ≠ [] → later ≠ [] →
      CutsBehind ([','].intercalate earlier)) ∧
    ∀ part ∈ splitSelectors text, part ≠ [] → splitSelectors part = [part] := by
  have cut := cutAtLevel_partsAtCommas 0 .plain text
  have within := splitSelectors_prefix text
  refine ⟨intercalate_splitSelectors text, fun earlier later split some others => ?_,
    fun part member nonempty => ?_⟩
  · obtain ⟨dropped, whole⟩ := within
    rw [split, List.append_assoc] at whole
    exact cut.cutsBehind [] rfl rfl whole.symm some
      (List.append_ne_nil_of_left_ne_nil others dropped)
  · exact splitSelectors_of_uncut (cut.uncut_of_mem rfl rfl part (within.subset member)) nonempty

example : splitSelectors ",a\\,b,(,),),c,\"d,".toList =
    ["", "a\\,b", "(,)", "),c,\"d,"].map String.toList := by decide

end ScopeLowering.Stylesheet
