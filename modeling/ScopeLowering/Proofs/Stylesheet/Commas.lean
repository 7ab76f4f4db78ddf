import ScopeLowering.Proofs.Stylesheet.Selector
import ScopeLowering.Proofs.Text.Balance

/-!
# Commas of depth zero

Where a selector list is cut. The parts joined by commas are the list again, a list is one
part exactly where none of its commas has depth zero, and text that is not cut at the depth
and in the mode where a list ends goes into the last part of the list. Where no parenthesis
closes before it opens, every part may be written at any depth without a cut.
-/

namespace ScopeLowering.Stylesheet

open ScopeLowering.Text

/-! ## Depth -/

def parenthesisDepthAfter (depth : Int) (characters : List Char) : Int :=
  characters.foldl parenthesisDepth depth

def Uncut : Int → List Char → Prop
  | _, [] => True
  | depth, c :: characters =>
      ¬(c = ',' ∧ depth = 0) ∧ Uncut (parenthesisDepth depth c) characters

theorem parenthesisDepthAfter_cons (depth : Int) (c : Char) (characters : List Char) :
    parenthesisDepthAfter depth (c :: characters) =
      parenthesisDepthAfter (parenthesisDepth depth c) characters := rfl

theorem parenthesisDepthAfter_append (depth : Int) (first second : List Char) :
    parenthesisDepthAfter depth (first ++ second) =
      parenthesisDepthAfter (parenthesisDepthAfter depth first) second :=
  List.foldl_append

/-- The depth counts opening parentheses less closing ones. -/
theorem parenthesisDepthAfter_eq (depth : Int) (characters : List Char) :
    parenthesisDepthAfter depth characters =
      depth + characters.count '(' - characters.count ')' := by
  induction characters generalizing depth with
  | nil => simp [parenthesisDepthAfter]
  | cons c characters ih =>
      rw [parenthesisDepthAfter_cons, ih, parenthesisDepth]
      simp only [List.count_cons, beq_iff_eq]
      by_cases opens : c = '('
      · subst opens
        simp
        omega
      · by_cases closes : c = ')'
        · subst closes
          simp
          omega
        · simp [opens, closes]

theorem uncut_append {depth : Int} {first second : List Char} :
    Uncut depth (first ++ second) ↔
      Uncut depth first ∧ Uncut (parenthesisDepthAfter depth first) second := by
  induction first generalizing depth with
  | nil => simp [Uncut, parenthesisDepthAfter]
  | cons c first ih =>
      simp only [List.cons_append, Uncut, ih, and_assoc]
      rfl

theorem parenthesisDepthAfter_of_blank {blanks : List Char} (blank : AllBlank blanks)
    (depth : Int) : parenthesisDepthAfter depth blanks = depth := by
  have absent (c : Char) (mark : c ∈ marks) : blanks.count c = 0 :=
    List.count_eq_zero.mpr fun member => not_mem_marks_of_isBlank (blank c member) mark
  rw [parenthesisDepthAfter_eq, absent '(' (by decide), absent ')' (by decide)]
  simp

/-- Trimming cuts no list that was not cut. -/
theorem uncut_trim {depth : Int} {text : List Char}
    (uncut : Uncut depth (Mode.plain.skeleton text)) :
    Uncut depth (Mode.plain.skeleton (trim text)) := by
  obtain ⟨lead, tail, blankLead, -, shape⟩ := exists_skeleton_trim text
  rw [shape, uncut_append, uncut_append, parenthesisDepthAfter_of_blank blankLead] at uncut
  exact uncut.1.2

/-- Trimming leaves the depth at the end as it is. -/
theorem parenthesisDepthAfter_trim (depth : Int) (text : List Char) :
    parenthesisDepthAfter depth (Mode.plain.skeleton (trim text)) =
      parenthesisDepthAfter depth (Mode.plain.skeleton text) := by
  obtain ⟨lead, tail, blankLead, blankTail, shape⟩ := exists_skeleton_trim text
  rw [shape, parenthesisDepthAfter_append, parenthesisDepthAfter_append,
    parenthesisDepthAfter_of_blank blankLead, parenthesisDepthAfter_of_blank blankTail]

/-! ## Shelter -/

def Covered (depth : Int) (characters : List Char) : Prop :=
  ∀ first, first <+: characters → 0 ≤ parenthesisDepthAfter depth first

/-- Commas stand inside parentheses only, and no parenthesis closes before it opens. Unlike
`Uncut` alone, this also holds at every greater depth. -/
structure Sheltered (depth : Int) (characters : List Char) : Prop where
  covered : Covered depth characters
  uncut : Uncut depth characters

theorem covered_zero_iff {characters : List Char} :
    Covered 0 characters ↔
      ∀ first, first <+: characters → first.count ')' ≤ first.count '(' := by
  refine forall₂_congr fun first _ => ?_
  rw [parenthesisDepthAfter_eq]
  omega

theorem covered_cons {depth : Int} {c : Char} {characters : List Char} :
    Covered depth (c :: characters) ↔
      0 ≤ depth ∧ Covered (parenthesisDepth depth c) characters := by
  constructor
  · intro covered
    exact ⟨covered [] List.nil_prefix,
      fun first within => covered (c :: first) (List.cons_prefix_cons.mpr ⟨rfl, within⟩)⟩
  · rintro ⟨start, covered⟩ first within
    rcases List.prefix_cons_iff.mp within with rfl | ⟨rest, rfl, inside⟩
    · exact start
    · exact covered rest inside

theorem covered_append {depth : Int} {first second : List Char} :
    Covered depth (first ++ second) ↔
      Covered depth first ∧ Covered (parenthesisDepthAfter depth first) second := by
  induction first generalizing depth with
  | nil =>
      refine ⟨fun covered => ⟨fun start within => ?_, covered⟩, fun both => both.2⟩
      exact covered start (within.trans List.nil_prefix)
  | cons c first ih =>
      rw [List.cons_append, covered_cons, covered_cons, ih, and_assoc]
      rfl

theorem sheltered_cons {depth : Int} {c : Char} {characters : List Char} :
    Sheltered depth (c :: characters) ↔
      0 ≤ depth ∧ ¬(c = ',' ∧ depth = 0) ∧ Sheltered (parenthesisDepth depth c) characters := by
  constructor
  · rintro ⟨covered, here, uncut⟩
    obtain ⟨start, covered⟩ := covered_cons.mp covered
    exact ⟨start, here, covered, uncut⟩
  · rintro ⟨start, here, covered, uncut⟩
    exact ⟨covered_cons.mpr ⟨start, covered⟩, here, uncut⟩

theorem sheltered_append {depth : Int} {first second : List Char} :
    Sheltered depth (first ++ second) ↔
      Sheltered depth first ∧ Sheltered (parenthesisDepthAfter depth first) second := by
  constructor
  · rintro ⟨covered, uncut⟩
    obtain ⟨coveredFirst, coveredSecond⟩ := covered_append.mp covered
    obtain ⟨uncutFirst, uncutSecond⟩ := uncut_append.mp uncut
    exact ⟨⟨coveredFirst, uncutFirst⟩, ⟨coveredSecond, uncutSecond⟩⟩
  · rintro ⟨⟨coveredFirst, uncutFirst⟩, ⟨coveredSecond, uncutSecond⟩⟩
    exact ⟨covered_append.mpr ⟨coveredFirst, coveredSecond⟩,
      uncut_append.mpr ⟨uncutFirst, uncutSecond⟩⟩

namespace Sheltered

variable {depth deeper : Int} {characters : List Char}

theorem nonneg (sheltered : Sheltered depth characters) : 0 ≤ depth :=
  sheltered.covered [] List.nil_prefix

theorem mono (sheltered : Sheltered depth characters) (deep : depth ≤ deeper) :
    Sheltered deeper characters := by
  induction characters generalizing depth deeper with
  | nil =>
      refine ⟨fun first within => ?_, trivial⟩
      rw [List.prefix_nil.mp within]
      exact Int.le_trans sheltered.nonneg deep
  | cons c characters ih =>
      -- As the depth is not negative, it is zero at a comma only if the lesser one is.
      obtain ⟨start, here, rest⟩ := sheltered_cons.mp sheltered
      refine sheltered_cons.mpr ⟨Int.le_trans start deep, fun comma => ?_, ih rest ?_⟩
      · exact here ⟨comma.1, by omega⟩
      · unfold parenthesisDepth
        split
        · omega
        · split <;> omega

/-- What stands between blanks in sheltered text is sheltered. -/
theorem trim {text : List Char} (sheltered : Sheltered 0 (Mode.plain.skeleton text)) :
    Sheltered 0 (Mode.plain.skeleton (Text.trim text)) := by
  obtain ⟨lead, tail, blankLead, -, shape⟩ := exists_skeleton_trim text
  rw [shape, sheltered_append, sheltered_append, parenthesisDepthAfter_of_blank blankLead]
    at sheltered
  exact sheltered.1.2

end Sheltered

/-! ## Parts -/

theorem extendFirst_ne_nil (c : Char) (parts : List (List Char)) : extendFirst c parts ≠ [] := by
  cases parts <;> simp [extendFirst]

theorem partsAtCommas_ne_nil (depth : Int) (mode : Mode) (text : List Char) :
    partsAtCommas depth mode text ≠ [] := by
  cases text with
  | nil => simp [partsAtCommas]
  | cons c text =>
      rw [partsAtCommas]
      split
      · split
        · exact List.cons_ne_nil _ _
        · exact extendFirst_ne_nil _ _
      · exact extendFirst_ne_nil _ _

theorem intercalate_extendFirst (c : Char) {parts : List (List Char)} (nonempty : parts ≠ []) :
    [','].intercalate (extendFirst c parts) = c :: [','].intercalate parts := by
  cases parts with
  | nil => exact absurd rfl nonempty
  | cons part parts => cases parts <;> simp [extendFirst, List.intercalate_cons_cons]

/-- Cutting takes commas away and nothing else. -/
theorem intercalate_partsAtCommas (depth : Int) (mode : Mode) (text : List Char) :
    [','].intercalate (partsAtCommas depth mode text) = text := by
  induction text generalizing depth mode with
  | nil => simp [partsAtCommas]
  | cons c text ih =>
      rw [partsAtCommas]
      split
      · split
        · rename_i comma
          rw [List.intercalate_cons_of_ne_nil (partsAtCommas_ne_nil _ _ _), ih, comma.1]
          rfl
        · rw [intercalate_extendFirst c (partsAtCommas_ne_nil _ _ _), ih]
      · rw [intercalate_extendFirst c (partsAtCommas_ne_nil _ _ _), ih]

theorem extendFirst_eq_singleton_iff {c : Char} {text : List Char} {parts : List (List Char)}
    (nonempty : parts ≠ []) : extendFirst c parts = [c :: text] ↔ parts = [text] := by
  cases parts with
  | nil => exact absurd rfl nonempty
  | cons part parts => simp [extendFirst]

/-- A list is one part exactly where it has no comma of depth zero. -/
theorem partsAtCommas_eq_singleton_iff {depth : Int} {mode : Mode} {text : List Char} :
    partsAtCommas depth mode text = [text] ↔ Uncut depth (mode.skeleton text) := by
  induction text generalizing depth mode with
  | nil => simp [partsAtCommas, Uncut]
  | cons c text ih =>
      by_cases structural : mode.structural c = true
      · rw [partsAtCommas, if_pos structural, Mode.skeleton_of_structural structural, Uncut,
          ← Mode.next_of_structural structural]
        by_cases comma : c = ',' ∧ depth = 0
        · simp [comma]
        · rw [if_neg comma, extendFirst_eq_singleton_iff (partsAtCommas_ne_nil _ _ _), ih]
          simp [comma]
      · rw [partsAtCommas, if_neg structural, Mode.skeleton_of_not_structural structural,
          extendFirst_eq_singleton_iff (partsAtCommas_ne_nil _ _ _), ih]

/-- What is not cut goes before the first part of what follows it. -/
theorem partsAtCommas_append_of_uncut {depth : Int} {mode : Mode} {first : List Char}
    (uncut : Uncut depth (mode.skeleton first)) (second : List Char) :
    partsAtCommas depth mode (first ++ second) =
      first.foldr extendFirst
        (partsAtCommas (parenthesisDepthAfter depth (mode.skeleton first)) (mode.after first)
          second) := by
  induction first generalizing depth mode with
  | nil => rfl
  | cons c first ih =>
      rw [List.cons_append, partsAtCommas, List.foldr_cons, Mode.after_cons]
      by_cases structural : mode.structural c = true
      · rw [Mode.skeleton_of_structural structural, ← Mode.next_of_structural structural] at uncut ⊢
        rw [if_pos structural, if_neg uncut.1, ih uncut.2]
        rfl
      · rw [Mode.skeleton_of_not_structural structural] at uncut ⊢
        rw [if_neg structural, ih uncut]

theorem foldr_extendFirst_cons (first part : List Char) (parts : List (List Char)) :
    first.foldr extendFirst (part :: parts) = (first ++ part) :: parts := by
  induction first with
  | nil => rfl
  | cons c first ih => rw [List.foldr_cons, ih, extendFirst, List.cons_append]

/-- A list that splits into itself alone has no comma of depth zero. -/
theorem uncut_of_splitSelectors {text : List Char} (single : splitSelectors text = [text]) :
    Uncut 0 (Mode.plain.skeleton text) := by
  rw [← partsAtCommas_eq_singleton_iff]
  rw [splitSelectors, dropEmptyLast] at single
  split at single
  · rename_i emptyLast
    -- An empty last part would leave a comma at the end of the text itself.
    obtain ⟨before, shape⟩ := List.getLast?_eq_some_iff.mp emptyLast
    rw [shape, List.dropLast_concat] at single
    have whole := intercalate_partsAtCommas 0 .plain text
    rw [shape, single] at whole
    simp [List.intercalate_cons_cons] at whole
  · exact single

/-- Text that is not cut where a list ends goes into the last part of the list. -/
theorem exists_partsAtCommas_append {depth : Int} {mode : Mode} {first second : List Char}
    (uncut : Uncut (parenthesisDepthAfter depth (mode.skeleton first))
      ((mode.after first).skeleton second)) :
    ∃ earlier last, partsAtCommas depth mode first = earlier ++ [last] ∧
      partsAtCommas depth mode (first ++ second) = earlier ++ [last ++ second] := by
  induction first generalizing depth mode with
  | nil => exact ⟨[], [], rfl, partsAtCommas_eq_singleton_iff.mpr uncut⟩
  | cons c first ih =>
      have extended {inner : Int} {next : Mode}
          (found : ∃ earlier last, partsAtCommas inner next first = earlier ++ [last] ∧
            partsAtCommas inner next (first ++ second) = earlier ++ [last ++ second]) :
          ∃ earlier last, extendFirst c (partsAtCommas inner next first) = earlier ++ [last] ∧
            extendFirst c (partsAtCommas inner next (first ++ second)) =
              earlier ++ [last ++ second] := by
        obtain ⟨earlier, last, alone, together⟩ := found
        rw [alone, together]
        cases earlier with
        | nil => exact ⟨[], c :: last, rfl, rfl⟩
        | cons part earlier => exact ⟨(c :: part) :: earlier, last, rfl, rfl⟩
      rw [List.cons_append, partsAtCommas, partsAtCommas]
      by_cases structural : mode.structural c = true
      · rw [Mode.skeleton_of_structural structural, Mode.after_cons,
          ← Mode.next_of_structural structural] at uncut
        rw [if_pos structural, if_pos structural]
        have later := ih uncut
        by_cases comma : c = ',' ∧ depth = 0
        · rw [if_pos comma, if_pos comma]
          obtain ⟨rfl, rfl⟩ := comma
          obtain ⟨earlier, last, alone, together⟩ := later
          exact ⟨[] :: earlier, last, congrArg _ alone, congrArg _ together⟩
        · rw [if_neg comma, if_neg comma]
          exact extended later
      · rw [Mode.skeleton_of_not_structural structural, Mode.after_cons] at uncut
        rw [if_neg structural, if_neg structural]
        exact extended (ih uncut)

inductive CutAtLevel : Int → Mode → List Char → List (List Char) → Prop where
  | last {depth : Int} {mode : Mode} {text : List Char}
      (uncut : Uncut depth (mode.skeleton text)) : CutAtLevel depth mode text [text]
  | comma {depth : Int} {mode : Mode} {part text : List Char} {parts : List (List Char)}
      (uncut : Uncut depth (mode.skeleton part))
      (level : parenthesisDepthAfter depth (mode.skeleton part) = 0)
      (plain : mode.after part = .plain) (rest : CutAtLevel 0 .plain text parts) :
      CutAtLevel depth mode (part ++ ',' :: text) (part :: parts)

namespace CutAtLevel

variable {depth : Int} {mode : Mode} {text : List Char} {parts : List (List Char)}

/-- A character that is no comma of depth zero joins the first part. -/
theorem extendFirst {c : Char} (uncut : Uncut depth (mode.skeleton [c]))
    (cut : CutAtLevel (parenthesisDepthAfter depth (mode.skeleton [c])) (mode.next c) text parts) :
    CutAtLevel depth mode (c :: text) (extendFirst c parts) := by
  have split (more : List Char) :
      mode.skeleton (c :: more) = mode.skeleton [c] ++ (mode.next c).skeleton more :=
    Mode.skeleton_append mode [c] more
  cases cut with
  | last rest =>
      refine .last ?_
      rw [split, uncut_append]
      exact ⟨uncut, rest⟩
  | @comma _ _ part text parts inside level plain rest =>
      refine @comma depth mode (c :: part) text parts ?_ ?_ plain rest
      · rw [split, uncut_append]
        exact ⟨uncut, inside⟩
      · rw [split, parenthesisDepthAfter_append]
        exact level

end CutAtLevel

theorem cutAtLevel_partsAtCommas (depth : Int) (mode : Mode) (text : List Char) :
    CutAtLevel depth mode text (partsAtCommas depth mode text) := by
  induction text generalizing depth mode with
  | nil => exact .last trivial
  | cons c text ih =>
      rw [partsAtCommas]
      by_cases structural : mode.structural c = true
      · rw [if_pos structural]
        obtain rfl := Mode.eq_plain_of_structural structural
        have single : Mode.plain.skeleton [c] = [c] := Mode.skeleton_of_structural structural []
        have next := Mode.next_of_structural structural
        split
        · rename_i comma
          obtain ⟨rfl, rfl⟩ := comma
          rw [next]
          exact @CutAtLevel.comma 0 .plain [] text _ trivial rfl rfl (ih 0 .plain)
        · rename_i inner
          refine CutAtLevel.extendFirst ?_ ?_
          · rw [single]
            exact ⟨inner, trivial⟩
          · rw [single]
            exact ih _ _
      · rw [if_neg structural]
        have literal : mode.skeleton [c] = [] := Mode.skeleton_of_not_structural structural []
        refine CutAtLevel.extendFirst ?_ ?_
        · rw [literal]
          trivial
        · rw [literal]
          exact ih _ _

/-- Where no parenthesis closes before it opens, the parts are sheltered, and each but the last
ends outside parentheses and in plain mode. -/
theorem CutAtLevel.sheltered {depth : Int} {mode : Mode} {text : List Char}
    {parts : List (List Char)} (cut : CutAtLevel depth mode text parts) (ground : depth = 0)
    (start : mode = .plain) (covered : Covered depth (mode.skeleton text)) :
    (∀ part ∈ parts, Sheltered 0 (Mode.plain.skeleton part)) ∧
      ∀ part ∈ parts.dropLast, parenthesisDepthAfter 0 (Mode.plain.skeleton part) = 0 ∧
        Mode.plain.after part = .plain := by
  induction cut with
  | last uncut =>
      subst ground start
      simp only [List.mem_singleton, forall_eq, List.dropLast_singleton, List.not_mem_nil]
      exact ⟨⟨covered, uncut⟩, fun _ member => member.elim⟩
  | @comma depth mode part text parts uncut level plain rest ih =>
      subst ground start
      rw [Mode.skeleton_append, plain, Mode.skeleton_of_structural rfl, covered_append, level,
        covered_cons] at covered
      obtain ⟨here, -, later⟩ := covered
      obtain ⟨others, complete⟩ := ih rfl rfl later
      refine ⟨List.forall_mem_cons.mpr ⟨⟨here, uncut⟩, others⟩, fun other member => ?_⟩
      cases parts with
      | nil => cases member
      | cons second parts =>
          rcases List.mem_cons.mp member with rfl | behind
          · exact ⟨level, plain⟩
          · exact complete other behind

end ScopeLowering.Stylesheet
