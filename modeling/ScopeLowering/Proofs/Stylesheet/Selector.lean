import ScopeLowering.Proofs.Stylesheet.Placeholder
import ScopeLowering.Stylesheet.Selector

/-!
# Selectors and their lists

Which selectors vanish under a root, where a list is cut, and how the selectors that are
left are joined again.
-/

namespace ScopeLowering.Stylesheet

open ScopeLowering.Text

/-! ## One selector -/

theorem ofSelector_eq_vanish_iff {selector : List Char} :
    Scoping.ofSelector selector = .vanish ↔ AllBlank selector := by
  rw [← trim_eq_nil_iff, Scoping.ofSelector]
  simp only [List.isEmpty_iff]
  split
  · simp_all
  · split
    · simp_all
    · split <;> simp_all

theorem Placeholder.replaceFrom_ne_nil {placeholder : Placeholder} {root text : List Char}
    {mode : Mode} (rooted : root ≠ []) (nonempty : text ≠ []) :
    placeholder.replaceFrom root 0 mode text ≠ [] := by
  obtain ⟨c, rest, rfl⟩ := List.exists_cons_of_ne_nil nonempty
  cases found : placeholder.start? mode c rest with
  | none =>
      rw [replaceFrom_of_none found]
      exact List.cons_ne_nil _ _
  | some extent =>
      rw [replaceFrom_of_start found]
      exact List.append_ne_nil_of_left_ne_nil rooted _

/-- Under a root that is not empty, blank selectors vanish and no others. -/
theorem selectorUnder_eq_nil_iff {root selector : List Char} (rooted : root ≠ []) :
    selectorUnder root selector = [] ↔ AllBlank selector := by
  rw [← ofSelector_eq_vanish_iff, selectorUnder]
  cases scoping : Scoping.ofSelector selector with
  | vanish => simp
  | substitute placeholder =>
      have visible : trim selector ≠ [] := by
        rw [ne_eq, trim_eq_nil_iff, ← ofSelector_eq_vanish_iff, scoping]
        simp
      simpa [Placeholder.replace] using Placeholder.replaceFrom_ne_nil rooted visible
  | descend => simp

theorem selectorUnder_of_blank {root selector : List Char} (blank : AllBlank selector) :
    selectorUnder root selector = [] := by
  rw [selectorUnder, ofSelector_eq_vanish_iff.mpr blank]

/-! ## Cutting a list -/

inductive CutAtCommas : Mode → List Char → List (List Char) → Prop where
  | last (mode : Mode) (text : List Char) : CutAtCommas mode text [text]
  | comma {mode : Mode} {part text : List Char} {parts : List (List Char)}
      (plain : mode.after part = .plain) (rest : CutAtCommas .plain text parts) :
      CutAtCommas mode (part ++ ',' :: text) (part :: parts)

theorem CutAtCommas.extendFirst {mode : Mode} {c : Char} {text : List Char}
    {parts : List (List Char)} (cut : CutAtCommas (mode.next c) text parts) :
    CutAtCommas mode (c :: text) (extendFirst c parts) := by
  cases cut with
  | last => exact .last mode (c :: text)
  | @comma _ part text parts plain rest =>
      have start : mode.after (c :: part) = .plain := plain
      exact .comma start rest

theorem cutAtCommas_partsAtCommas (depth : Int) (mode : Mode) (text : List Char) :
    CutAtCommas mode text (partsAtCommas depth mode text) := by
  induction text generalizing depth mode with
  | nil => exact .last mode []
  | cons c text ih =>
      rw [partsAtCommas]
      split
      · rename_i structural
        split
        · rename_i comma
          obtain ⟨rfl, rfl⟩ := comma
          have rest := ih 0 (mode.next ',')
          rw [Mode.next_of_structural structural] at rest ⊢
          have start : mode.after [] = .plain := Mode.eq_plain_of_structural structural
          exact .comma start rest
        · exact (ih _ _).extendFirst
      · exact (ih _ _).extendFirst

/-! ## Joining a list -/

/-- Selectors joined by commas, empty ones left out. -/
def joinSelectors (selectors : List (List Char)) : List Char :=
  [',', ' '].intercalate (selectors.filter fun selector => !selector.isEmpty)

theorem joinSelectors_nil : joinSelectors [] = [] := rfl

theorem joinSelectors_cons_nil (selectors : List (List Char)) :
    joinSelectors ([] :: selectors) = joinSelectors selectors := rfl

theorem joinSelectors_eq_nil_iff {selectors : List (List Char)} :
    joinSelectors selectors = [] ↔ ∀ selector ∈ selectors, selector = [] := by
  induction selectors with
  | nil => simp [joinSelectors]
  | cons first selectors ih =>
      by_cases empty : first = []
      · subst empty
        rw [joinSelectors_cons_nil, ih]
        simp
      · have kept : (first :: selectors).filter (fun selector => !selector.isEmpty) =
            first :: selectors.filter (fun selector => !selector.isEmpty) := by
          simp [empty]
        rw [joinSelectors, kept]
        cases selectors.filter (fun selector => !selector.isEmpty) with
        | nil => simp [empty]
        | cons second rest => simp [empty, List.intercalate_cons_cons]

/-- A selector that is not empty comes first, and a comma only where others follow. -/
theorem joinSelectors_cons {first : List Char} (nonempty : first ≠ [])
    (selectors : List (List Char)) :
    joinSelectors (first :: selectors) =
      first ++ if joinSelectors selectors = [] then []
        else ',' :: ' ' :: joinSelectors selectors := by
  have kept : (first :: selectors).filter (fun selector => !selector.isEmpty) =
      first :: selectors.filter (fun selector => !selector.isEmpty) := by
    simp [nonempty]
  rw [joinSelectors, kept]
  split
  · rename_i none
    have empty : selectors.filter (fun selector => !selector.isEmpty) = [] := by
      simpa using joinSelectors_eq_nil_iff.mp none
    rw [empty, List.intercalate_singleton, List.append_nil]
  · rename_i some
    have others : selectors.filter (fun selector => !selector.isEmpty) ≠ [] := by
      intro empty
      exact some (by rw [joinSelectors, empty]; rfl)
    rw [List.intercalate_cons_of_ne_nil others]
    simp [joinSelectors]

theorem selectorsUnder_eq (root text : List Char) :
    selectorsUnder root text =
      joinSelectors ((partsAtCommas 0 .plain text).map (selectorUnder root)) := by
  rw [selectorsUnder, ← joinSelectors, splitSelectors, dropEmptyLast]
  split
  · rename_i last
    obtain ⟨before, shape⟩ := List.getLast?_eq_some_iff.mp last
    have vanishes : selectorUnder root [] = [] := selectorUnder_of_blank allBlank_nil
    rw [shape, List.dropLast_concat, joinSelectors, joinSelectors, List.map_append,
      List.filter_append]
    simp [vanishes]
  · rfl

/-- A list vanishes exactly where all its selectors are blank. -/
theorem selectorsUnder_eq_nil_iff {root text : List Char} (rooted : root ≠ []) :
    selectorsUnder root text = [] ↔ ∀ selector ∈ splitSelectors text, AllBlank selector := by
  rw [selectorsUnder, ← joinSelectors, joinSelectors_eq_nil_iff, List.forall_mem_map]
  exact forall₂_congr fun selector _ => selectorUnder_eq_nil_iff rooted

end ScopeLowering.Stylesheet
