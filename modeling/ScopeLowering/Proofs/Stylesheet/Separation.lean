import Mathlib.Data.List.Infix
import ScopeLowering.Proofs.Stylesheet.Commas
import ScopeLowering.Proofs.Stylesheet.Rooting

/-!
# Selectors of a list under a root

A list under a root is cut again into the selectors that were written for its parts. What may
go wrong is the end of a selector: trimming takes a blank from the backslash before it, and the
backslash takes the comma that is written next. This is the only way to lose a comma, where
parentheses close behind the ones they belong to, and the root is a single selector.
-/

namespace ScopeLowering.Stylesheet

open ScopeLowering.Text

/-! ## Roots of one selector -/

/-- A root that is one selector: wherever it is written, it is not cut, and it moves no comma
behind it to another depth. -/
structure IsSingleRoot (root : List Char) : Prop where
  nonempty : root ≠ []
  trimmed : Trimmed root
  enclosed : Enclosed '(' ')' root
  uncut : Uncut 0 (Mode.plain.skeleton root)

namespace IsSingleRoot

variable {root : List Char}

theorem sheltered (single : IsSingleRoot root) : Sheltered 0 (Mode.plain.skeleton root) where
  covered := covered_zero_iff.mpr single.enclosed.balanced.covered
  uncut := single.uncut

theorem level (single : IsSingleRoot root) (depth : Int) :
    parenthesisDepthAfter depth (Mode.plain.skeleton root) = depth := by
  have level := single.enclosed.balanced.level
  rw [parenthesisDepthAfter_eq]
  omega

end IsSingleRoot

/-! ## One selector under a root -/

theorem parenthesisDepth_of_light {c : Char} (light : c ∉ weights) (depth : Int) :
    parenthesisDepth depth c = depth := by
  have other : c ≠ '(' ∧ c ≠ ')' := by simp_all [weights]
  rw [parenthesisDepth, if_neg other.1, if_neg other.2]

namespace Placeholder.Substituted

variable {root source written : List Char}

theorem depth (single : IsSingleRoot root)
    (substituted : Substituted (Mode.plain.skeleton root) source written) (depth : Int) :
    parenthesisDepthAfter depth written = parenthesisDepthAfter depth source := by
  induction substituted generalizing depth with
  | nil => rfl
  | kept c rest ih => exact ih _
  | dropped light rest ih =>
      rw [parenthesisDepthAfter_cons, parenthesisDepth_of_light light]
      exact ih depth
  | inserted rest ih =>
      rw [parenthesisDepthAfter_append, single.level]
      exact ih depth

theorem sheltered (single : IsSingleRoot root)
    (substituted : Substituted (Mode.plain.skeleton root) source written) {depth : Int}
    (sheltered : Sheltered depth source) : Sheltered depth written := by
  induction substituted generalizing depth with
  | nil => exact sheltered
  | kept c rest ih =>
      obtain ⟨start, here, others⟩ := sheltered_cons.mp sheltered
      exact sheltered_cons.mpr ⟨start, here, ih others⟩
  | dropped light rest ih =>
      have others := (sheltered_cons.mp sheltered).2.2
      rw [parenthesisDepth_of_light light] at others
      exact ih others
  | inserted rest ih =>
      rw [sheltered_append, single.level]
      exact ⟨single.sheltered.mono sheltered.nonneg, ih sheltered⟩

end Placeholder.Substituted

section Selector

variable {root selector : List Char}

theorem parenthesisDepthAfter_selectorUnder (single : IsSingleRoot root) (depth : Int) :
    parenthesisDepthAfter depth (Mode.plain.skeleton (selectorUnder root selector)) =
      parenthesisDepthAfter depth (Mode.plain.skeleton selector) := by
  rw [← parenthesisDepthAfter_trim depth selector]
  rcases skeleton_selectorUnder single.enclosed.plain selector with substituted | ahead
  · exact substituted.depth single depth
  · rw [ahead, parenthesisDepthAfter_append, single.level, parenthesisDepthAfter_cons]
    rfl

theorem sheltered_selectorUnder (single : IsSingleRoot root)
    (sheltered : Sheltered 0 (Mode.plain.skeleton selector)) :
    Sheltered 0 (Mode.plain.skeleton (selectorUnder root selector)) := by
  rcases skeleton_selectorUnder single.enclosed.plain selector with substituted | ahead
  · exact substituted.sheltered single sheltered.trim
  · rw [ahead, sheltered_append, single.level, sheltered_cons]
    exact ⟨single.sheltered, Int.le_refl 0, by simp, sheltered.trim⟩

end Selector

/-! ## Joined selectors -/

def withCommas (selectors : List (List Char)) : List Char :=
  selectors.flatMap fun selector => selector ++ [',', ' ']

/-- A selector that others may follow: it has no comma of depth zero, closes its parentheses,
and ends outside strings. -/
structure Followable (selector : List Char) : Prop where
  uncut : Uncut 0 (Mode.plain.skeleton selector)
  level : parenthesisDepthAfter 0 (Mode.plain.skeleton selector) = 0
  settled : (Mode.plain.after selector).Settled

theorem withCommas_cons (first : List Char) (selectors : List (List Char)) :
    withCommas (first :: selectors) = first ++ ',' :: ' ' :: withCommas selectors := by
  simp [withCommas]

theorem intercalate_concat (selectors : List (List Char)) (last : List Char) :
    [',', ' '].intercalate (selectors ++ [last]) = withCommas selectors ++ last := by
  induction selectors with
  | nil => simp [withCommas]
  | cons first selectors ih =>
      rw [List.cons_append, List.intercalate_cons_of_ne_nil (by simp), ih, withCommas_cons,
        List.append_assoc, List.append_assoc]
      rfl

namespace Followable

variable {selector : List Char}

/-- A selector that ends in plain mode is a part of its own. -/
theorem partsAtCommas_plain (followable : Followable selector)
    (plain : Mode.plain.after selector = .plain) (text : List Char) :
    partsAtCommas 0 .plain (selector ++ ',' :: ' ' :: text) =
      selector :: [' '].foldr extendFirst (partsAtCommas 0 .plain text) := by
  have comma : partsAtCommas 0 .plain (',' :: ' ' :: text) =
      [] :: [' '].foldr extendFirst (partsAtCommas 0 .plain text) := rfl
  rw [partsAtCommas_append_of_uncut followable.uncut, followable.level, plain, comma,
    foldr_extendFirst_cons, List.append_nil]

/-- A backslash at the end of a selector takes the comma behind it, so the next selector joins
the same part. -/
theorem partsAtCommas_escape (followable : Followable selector)
    (escape : Mode.plain.after selector = .escape) (text : List Char) :
    partsAtCommas 0 .plain (selector ++ ',' :: ' ' :: text) =
      (selector ++ [',', ' ']).foldr extendFirst (partsAtCommas 0 .plain text) := by
  have comma : partsAtCommas 0 .escape (',' :: ' ' :: text) =
      [',', ' '].foldr extendFirst (partsAtCommas 0 .plain text) := rfl
  rw [partsAtCommas_append_of_uncut followable.uncut, followable.level, escape, comma,
    List.foldr_append]

end Followable

section Joined

variable {earlier : List (List Char)} {last : List Char}

theorem length_foldr_extendFirst (first : List Char) {parts : List (List Char)}
    (nonempty : parts ≠ []) : (first.foldr extendFirst parts).length = parts.length := by
  cases parts with
  | nil => exact absurd rfl nonempty
  | cons part parts => rw [foldr_extendFirst_cons, List.length_cons, List.length_cons]

theorem map_trim_foldr_extendFirst {blanks : List Char} (blank : AllBlank blanks)
    {parts : List (List Char)} (nonempty : parts ≠ []) :
    (blanks.foldr extendFirst parts).map trim = parts.map trim := by
  cases parts with
  | nil => exact absurd rfl nonempty
  | cons part parts =>
      rw [foldr_extendFirst_cons, List.map_cons, List.map_cons, trim_blank_append blank]

/-- Behind commas a scan is at depth zero and in plain mode. -/
theorem ground_withCommas (followable : ∀ selector ∈ earlier, Followable selector) :
    parenthesisDepthAfter 0 (Mode.plain.skeleton (withCommas earlier)) = 0 ∧
      Mode.plain.after (withCommas earlier) = .plain := by
  induction earlier with
  | nil => exact ⟨rfl, rfl⟩
  | cons first earlier ih =>
      obtain ⟨start, others⟩ := List.forall_mem_cons.mp followable
      obtain ⟨level, plain⟩ := ih others
      rw [withCommas_cons, after_separated start.settled, Mode.skeleton_append,
        parenthesisDepthAfter_append, start.level]
      refine ⟨?_, plain⟩
      rcases skeleton_separator start.settled (withCommas earlier) with comma | comma
      · rw [comma]
        exact level
      · rw [comma]
        exact level

/-- Each selector that ends in a backslash loses its comma, and no other one does. -/
theorem length_partsAtCommas (followable : ∀ selector ∈ earlier, Followable selector)
    (uncut : Uncut 0 (Mode.plain.skeleton last)) :
    (partsAtCommas 0 .plain (withCommas earlier ++ last)).length +
        earlier.countP (fun selector => Mode.plain.after selector ≠ .plain) =
      (earlier ++ [last]).length := by
  induction earlier with
  | nil =>
      have single := partsAtCommas_eq_singleton_iff.mpr uncut
      simp [withCommas, single]
  | cons first earlier ih =>
      obtain ⟨start, others⟩ := List.forall_mem_cons.mp followable
      have rest := ih others
      have nonempty := partsAtCommas_ne_nil 0 .plain (withCommas earlier ++ last)
      rw [withCommas_cons, List.append_assoc, List.cons_append, List.cons_append,
        List.countP_cons, List.cons_append, List.length_cons, ← rest]
      rcases start.settled with plain | escape
      · rw [start.partsAtCommas_plain plain, List.length_cons,
          length_foldr_extendFirst _ nonempty]
        simp [plain]
        omega
      · rw [start.partsAtCommas_escape escape, length_foldr_extendFirst _ nonempty]
        simp [escape]
        omega

/-- Where every selector ends in plain mode, the parts are the selectors again, but for blanks. -/
theorem map_trim_partsAtCommas (followable : ∀ selector ∈ earlier, Followable selector)
    (plain : ∀ selector ∈ earlier, Mode.plain.after selector = .plain)
    (uncut : Uncut 0 (Mode.plain.skeleton last)) :
    (partsAtCommas 0 .plain (withCommas earlier ++ last)).map trim =
      (earlier ++ [last]).map trim := by
  induction earlier with
  | nil =>
      have single := partsAtCommas_eq_singleton_iff.mpr uncut
      simp [withCommas, single]
  | cons first earlier ih =>
      obtain ⟨start, others⟩ := List.forall_mem_cons.mp followable
      obtain ⟨here, later⟩ := List.forall_mem_cons.mp plain
      have nonempty := partsAtCommas_ne_nil 0 .plain (withCommas earlier ++ last)
      rw [withCommas_cons, List.append_assoc, List.cons_append, List.cons_append,
        start.partsAtCommas_plain here, List.map_cons,
        map_trim_foldr_extendFirst allBlank_space nonempty, ih others later, List.cons_append,
        List.map_cons]

/-- The last part of joined selectors is not empty, so no part is dropped. -/
theorem splitSelectors_withCommas (followable : ∀ selector ∈ earlier, Followable selector)
    (uncut : Uncut 0 (Mode.plain.skeleton last)) (visible : last ≠ []) :
    splitSelectors (withCommas earlier ++ last) =
      partsAtCommas 0 .plain (withCommas earlier ++ last) := by
  obtain ⟨level, plain⟩ := ground_withCommas followable
  obtain ⟨front, start, -, shape⟩ :=
    @exists_partsAtCommas_append 0 .plain (withCommas earlier) last (by rwa [level, plain])
  rw [splitSelectors, shape, dropEmptyLast, if_neg (by simp [visible])]

/-- Joined selectors are cut into the same selectors exactly if each that is followed by
another one ends in plain mode. -/
theorem map_trim_splitSelectors_intercalate_iff {selectors : List (List Char)}
    (followable : ∀ selector ∈ selectors.dropLast, Followable selector)
    (uncut : ∀ selector ∈ selectors, Uncut 0 (Mode.plain.skeleton selector))
    (trimmed : ∀ selector ∈ selectors, Trimmed selector)
    (visible : ∀ selector ∈ selectors, selector ≠ []) :
    (splitSelectors ([',', ' '].intercalate selectors)).map trim = selectors ↔
      ∀ selector ∈ selectors.dropLast, Mode.plain.after selector = .plain := by
  rcases List.eq_nil_or_concat selectors with rfl | ⟨earlier, last, rfl⟩
  · exact iff_of_true rfl (by simp)
  · rw [List.concat_eq_append] at *
    rw [List.dropLast_concat] at *
    have uncutLast := uncut last (by simp)
    rw [intercalate_concat,
      splitSelectors_withCommas followable uncutLast (visible last (by simp))]
    constructor
    · -- A lost comma shows in the number of parts.
      intro same selector member
      have lost := length_partsAtCommas followable uncutLast
      rw [← List.length_map trim, same, Nat.add_eq_left, List.countP_eq_zero] at lost
      simpa using lost selector member
    · intro plain
      rw [map_trim_partsAtCommas followable plain uncutLast,
        List.map_congr_left fun selector member => trim_of_trimmed (trimmed selector member),
        List.map_id']

end Joined

/-! ## The selectors of a list -/

def visibleSelectors (text : List Char) : List (List Char) :=
  (splitSelectors text).filter fun selector => !(trim selector).isEmpty

theorem selectorUnder_trim (root selector : List Char) :
    selectorUnder root (trim selector) = selectorUnder root selector := by
  rw [selectorUnder, selectorUnder, Scoping.ofSelector, Scoping.ofSelector,
    trim_of_trimmed (trimmed_trim selector)]

theorem selectorsUnder_eq_intercalate {root : List Char} (rooted : root ≠ [])
    (text : List Char) :
    selectorsUnder root text =
      [',', ' '].intercalate ((visibleSelectors text).map (selectorUnder root)) := by
  have same (selector : List Char) :
      (!(selectorUnder root selector).isEmpty) = !(trim selector).isEmpty := by
    rw [Bool.eq_iff_iff]
    simp only [Bool.not_eq_true', List.isEmpty_eq_false_iff, ne_eq]
    rw [selectorUnder_eq_nil_iff rooted, trim_eq_nil_iff]
  rw [selectorsUnder, List.filter_map, visibleSelectors]
  exact congrArg _ (congrArg _ (List.filter_congr fun selector _ => same selector))

theorem visibleSelectors_sublist (text : List Char) :
    (visibleSelectors text).Sublist (partsAtCommas 0 .plain text) := by
  refine List.filter_sublist.trans ?_
  rw [splitSelectors, dropEmptyLast]
  split
  · exact List.dropLast_sublist _
  · exact List.Sublist.refl _

/-- What is not last in a sublist is not last in the list. -/
theorem dropLast_sublist_dropLast {α : Type} {some all : List α} (within : some.Sublist all) :
    some.dropLast.Sublist all.dropLast := by
  have reversed := within.reverse.tail
  rwa [List.tail_reverse, List.tail_reverse, List.reverse_sublist] at reversed

/-- What is written for a part that a comma follows may be followed by others. -/
theorem followable_selectorUnder {root part : List Char} (single : IsSingleRoot root)
    (sheltered : Sheltered 0 (Mode.plain.skeleton part))
    (level : parenthesisDepthAfter 0 (Mode.plain.skeleton part) = 0)
    (plain : Mode.plain.after part = .plain) : Followable (selectorUnder root part) where
  uncut := (sheltered_selectorUnder single sheltered).uncut
  level := (parenthesisDepthAfter_selectorUnder single 0).trans level
  settled := by
    rw [after_selectorUnder single.enclosed.plain]
    exact settled_trim (Or.inl plain)

/-- Where no parenthesis closes before it opens, a list under a root of one selector is cut
into the selectors that are written for its parts, in order, exactly if none of them but the
last is trimmed to end in a backslash that waits. -/
theorem map_trim_splitSelectors_selectorsUnder_iff {root text : List Char}
    (opened : ∀ first, first <+: Mode.plain.skeleton text → first.count ')' ≤ first.count '(')
    (single : IsSingleRoot root) :
    (splitSelectors (selectorsUnder root text)).map trim =
        (visibleSelectors text).map (fun selector => selectorUnder root (trim selector)) ↔
      ∀ selector ∈ (visibleSelectors text).dropLast,
        Mode.plain.after (trim selector) ≠ .escape := by
  obtain ⟨sheltered, complete⟩ :=
    (cutAtLevel_partsAtCommas 0 .plain text).sheltered rfl rfl (covered_zero_iff.mpr opened)
  have within := visibleSelectors_sublist text
  have earlier := dropLast_sublist_dropLast within
  rw [List.map_congr_left fun selector _ => selectorUnder_trim root selector,
    selectorsUnder_eq_intercalate single.nonempty, map_trim_splitSelectors_intercalate_iff,
    ← List.map_dropLast, List.forall_mem_map]
  · refine forall₂_congr fun part member => ?_
    rw [after_selectorUnder single.enclosed.plain]
    rcases settled_trim (Or.inl (complete part (earlier.subset member)).2) with plain | escape
    · simp [plain]
    · simp [escape]
  · rw [← List.map_dropLast, List.forall_mem_map]
    intro part member
    have inner := List.dropLast_subset _ member
    obtain ⟨level, plain⟩ := complete part (earlier.subset member)
    exact followable_selectorUnder single (sheltered part (within.subset inner)) level plain
  · rw [List.forall_mem_map]
    intro part member
    exact (sheltered_selectorUnder single (sheltered part (within.subset member))).uncut
  · rw [List.forall_mem_map]
    exact fun part _ => trimmed_selectorUnder single.nonempty single.trimmed part
  · rw [List.forall_mem_map]
    intro part member empty
    have blank := trim_eq_nil_iff.mpr ((selectorUnder_eq_nil_iff single.nonempty).mp empty)
    simpa [blank] using (List.mem_filter.mp member).2

/-- Whether parentheses close behind the ones they belong to can be decided prefix by prefix. -/
theorem opened_of_inits {characters : List Char}
    (decided : ∀ first ∈ characters.inits, first.count ')' ≤ first.count '(') :
    ∀ first, first <+: characters → first.count ')' ≤ first.count '(' :=
  fun first within => decided first ((List.mem_inits _ _).mpr within)

theorem isSingleRoot_of_parenthesized? {root : List Char} (nonempty : root ≠ [])
    (trimmed : trim root = root) (closed : parenthesized? (root ++ [')']) = some (root, []))
    (parts : partsAtCommas 0 .plain root = [root]) : IsSingleRoot root where
  nonempty := nonempty
  trimmed := trimmed ▸ trimmed_trim root
  enclosed := (parenthesized?_eq_some_iff.mp closed).2
  uncut := partsAtCommas_eq_singleton_iff.mp parts

def negatedRoot : List Char := ".r:not(x, y)".toList

/-- A list with commas in parentheses, in strings and behind a backslash, with placeholders and
a blank part, and with an escaped blank at its end. -/
def mixedList : List Char :=
  " a:is(b, \"x,)\") > &\\, c , ,:scope[y=','] d,e\\ ".toList

theorem map_trim_splitSelectors_mixedList :
    (∀ first, first <+: Mode.plain.skeleton mixedList → first.count ')' ≤ first.count '(') ∧
      IsSingleRoot negatedRoot ∧ (visibleSelectors mixedList).length = 3 ∧
      (splitSelectors (selectorsUnder negatedRoot mixedList)).map trim =
        (visibleSelectors mixedList).map fun selector =>
          selectorUnder negatedRoot (trim selector) := by
  have opened := opened_of_inits
    (show ∀ first ∈ (Mode.plain.skeleton mixedList).inits, first.count ')' ≤ first.count '(' by
      decide +kernel)
  have single : IsSingleRoot negatedRoot :=
    isSingleRoot_of_parenthesized? (by decide) (by decide +kernel) (by decide +kernel)
      (by decide +kernel)
  have settled : ∀ selector ∈ (visibleSelectors mixedList).dropLast,
      Mode.plain.after (trim selector) ≠ .escape := by
    decide +kernel
  exact ⟨opened, single, by decide +kernel,
    (map_trim_splitSelectors_selectorsUnder_iff opened single).mpr settled⟩

def escapedBlankList : List Char := "a\\ , b".toList

/-- The comma behind a blank that was cut off belongs to the backslash, so two selectors are
written as one. -/
theorem map_trim_splitSelectors_escapedBlankList :
    (∀ first, first <+: Mode.plain.skeleton escapedBlankList →
        first.count ')' ≤ first.count '(') ∧
      IsSingleRoot ".r".toList ∧
      (splitSelectors (selectorsUnder ".r".toList escapedBlankList)).map trim =
        [".r a\\, .r b".toList] ∧
      (visibleSelectors escapedBlankList).map (fun selector =>
        selectorUnder ".r".toList (trim selector)) = [".r a\\".toList, ".r b".toList] := by
  refine ⟨opened_of_inits (by decide), ?_, by decide +kernel, by decide +kernel⟩
  exact isSingleRoot_of_parenthesized? (by decide) (by decide) (by decide) (by decide)

end ScopeLowering.Stylesheet
