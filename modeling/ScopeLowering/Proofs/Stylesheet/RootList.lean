import ScopeLowering.Proofs.Stylesheet.BlockSearch
import ScopeLowering.Proofs.Stylesheet.Commas

/-!
# Lists as roots

A root is written in front of a selector as it is. Where the root is a list, its commas cut
what is written: only the last selector of the root becomes an ancestor of the selector, and
the others stand alone.
-/

namespace ScopeLowering.Stylesheet

open ScopeLowering.Text

theorem ofSelector_eq_descend {selector : List Char} (visible : ¬AllBlank selector)
    (unnamed : ∀ placeholder : Placeholder, placeholder.occurs .plain selector = false) :
    Scoping.ofSelector selector = .descend := by
  have trimmed (placeholder : Placeholder) :
      placeholder.occurs .plain (trim selector) = false := by
    by_contra occurs
    rw [Bool.not_eq_false] at occurs
    have named := Placeholder.occurs_of_occurs_trim occurs
    rw [unnamed placeholder] at named
    cases named
  have shown : trim selector ≠ [] := fun empty => visible (trim_eq_nil_iff.mp empty)
  simp [Scoping.ofSelector, trimmed, shown]

theorem selectorUnder_of_unnamed {selector : List Char} (visible : ¬AllBlank selector)
    (unnamed : ∀ placeholder : Placeholder, placeholder.occurs .plain selector = false)
    (root : List Char) : selectorUnder root selector = root ++ ' ' :: trim selector := by
  rw [selectorUnder, ofSelector_eq_descend visible unnamed]

/-- The parentheses of a root balance. -/
theorem parenthesisDepthAfter_root {text : List Char} {block : ScopeBlock}
    (member : block ∈ scopeBlocks text) :
    parenthesisDepthAfter 0 (Mode.plain.skeleton block.root) = 0 := by
  obtain ⟨complete, rfl, -⟩ := exists_complete_of_mem_scopeBlocks member
  have level := complete.rootEnclosed.balanced.level
  rw [CompleteHead.block, parenthesisDepthAfter_trim, parenthesisDepthAfter_eq, level]
  simp

/-- A list without commas of depth zero has none behind a blank either. -/
theorem uncut_blank_cons {mode : Mode} (settled : mode.Settled) {text : List Char}
    (uncut : Uncut 0 (Mode.plain.skeleton text)) : Uncut 0 (mode.skeleton (' ' :: text)) := by
  rcases settled.skeleton_cons (c := ' ') rfl text with gap | gap
  · rw [gap]
    exact ⟨by simp, uncut⟩
  · rw [gap]
    exact uncut

/-- A selector without placeholders comes under the last selector of the root. The other
selectors of the root are selectors of what is written, so the selector is part of all that
is written exactly if it is part of each of those. -/
theorem splitSelectors_selectorUnder {text selector : List Char} {block : ScopeBlock}
    (member : block ∈ scopeBlocks text) (single : splitSelectors selector = [selector])
    (visible : ¬AllBlank selector)
    (unnamed : ∀ placeholder : Placeholder, placeholder.occurs .plain selector = false) :
    ∃ earlier last, partsAtCommas 0 .plain block.root = earlier ++ [last] ∧
      splitSelectors (selectorUnder block.root selector) =
        earlier ++ [last ++ ' ' :: trim selector] ∧
      ((∀ written ∈ splitSelectors (selectorUnder block.root selector),
          trim selector <:+: written) ↔
        ∀ part ∈ earlier, trim selector <:+: part) := by
  have uncut : Uncut (parenthesisDepthAfter 0 (Mode.plain.skeleton block.root))
      ((Mode.plain.after block.root).skeleton (' ' :: trim selector)) := by
    rw [parenthesisDepthAfter_root member]
    exact uncut_blank_cons (settled_of_mem_scopeBlocks member)
      (uncut_trim (uncut_of_splitSelectors single))
  obtain ⟨earlier, last, root, written⟩ := exists_partsAtCommas_append uncut
  have split : splitSelectors (selectorUnder block.root selector) =
      earlier ++ [last ++ ' ' :: trim selector] := by
    rw [selectorUnder_of_unnamed visible unnamed, splitSelectors, written, dropEmptyLast,
      if_neg (by simp)]
  refine ⟨earlier, last, root, split, ?_⟩
  rw [split, List.forall_mem_append, List.forall_mem_singleton]
  have descends : trim selector <:+: last ++ ' ' :: trim selector :=
    ⟨last ++ [' '], [], by simp⟩
  exact and_iff_left descends

def nestedListBlock : ScopeBlock := ⟨":is(.a, [x=\",\"])".toList, []⟩

def nestedListStylesheet : List Char := "@scope ( :is(.a, [x=\",\"]) ) \x7b\x7d".toList

def nestedSelector : List Char := " img:not(.c, .d) ".toList

theorem splitSelectors_selectorUnder_nestedListBlock :
    nestedListBlock ∈ scopeBlocks nestedListStylesheet ∧
      splitSelectors nestedSelector = [nestedSelector] ∧
      ¬AllBlank nestedSelector ∧
      (∀ placeholder : Placeholder, placeholder.occurs .plain nestedSelector = false) ∧
      ∀ written ∈ splitSelectors (selectorUnder nestedListBlock.root nestedSelector),
        trim nestedSelector <:+: written := by
  have member : nestedListBlock ∈ scopeBlocks nestedListStylesheet := by decide +kernel
  have single : splitSelectors nestedSelector = [nestedSelector] := by
    decide
  have visible : ¬AllBlank nestedSelector := by
    intro blank
    exact absurd (blank 'i' (by decide)) (by decide)
  have unnamed : ∀ placeholder : Placeholder,
      placeholder.occurs .plain nestedSelector = false := by
    intro placeholder
    cases placeholder <;> decide
  obtain ⟨earlier, last, parts, -, contained⟩ :=
    splitSelectors_selectorUnder member single visible unnamed
  have whole : partsAtCommas 0 .plain nestedListBlock.root = [nestedListBlock.root] := by decide
  rw [whole] at parts
  rcases List.append_eq_singleton_iff.mp parts.symm with ⟨rfl, -⟩ | ⟨-, absurdity⟩
  · refine ⟨member, single, visible, unnamed, contained.mpr fun part inEarlier => ?_⟩
    cases inEarlier
  · cases absurdity

def listStylesheet : List Char := "@scope (.a, .b) \x7b img \x7b x: y; \x7d \x7d".toList

/-- The first selector of a root that is a list stands alone in what is written. -/
theorem exists_written_without_selector :
    ∃ block ∈ scopeBlocks listStylesheet,
      splitSelectors "img".toList = ["img".toList] ∧ ¬AllBlank "img".toList ∧
      (∀ placeholder : Placeholder, placeholder.occurs .plain "img".toList = false) ∧
      ∃ written ∈ splitSelectors (selectorUnder block.root "img".toList),
        ¬"img".toList <:+: written := by
  have member : ⟨".a, .b".toList, " img \x7b x: y; \x7d ".toList⟩ ∈ scopeBlocks listStylesheet := by
    decide +kernel
  refine ⟨_, member, by decide, ?_, ?_, ".a".toList, by decide, by decide⟩
  · intro blank
    exact absurd (blank 'i' (by decide)) (by decide)
  · intro placeholder
    cases placeholder <;> decide

end ScopeLowering.Stylesheet
