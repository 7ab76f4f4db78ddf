import ScopeLowering.Proofs.Stylesheet.Header
import ScopeLowering.Proofs.Stylesheet.Selector

/-!
# Structure under a root

A selector list under a root is the list with copies of the root in it, up to blanks, commas
and placeholders. So any relation that allows for these, and for a copy of the root, holds
between the list and the list under the root. One such relation says that no bracket, brace
or semicolon moves: a root that is a closed piece of text makes a header a header again.
-/

namespace ScopeLowering.Stylesheet

open ScopeLowering.Text

/-- A relation between lists of structural characters that holds part by part and does not
see the characters without weight. -/
structure Imitation (related : List Char → List Char → Prop) : Prop where
  refl : ∀ characters, related characters characters
  append : ∀ {source source' written written'}, related source written →
    related source' written' → related (source ++ source') (written ++ written')
  of_light : ∀ {source written}, (∀ c ∈ source, c ∉ weights) → (∀ c ∈ written, c ∉ weights) →
    related source written

/-- A root that may be written into a text wherever the relation allows for nothing. -/
structure Fits (related : List Char → List Char → Prop) (root : List Char) : Prop where
  imitation : Imitation related
  neutral : Mode.plain.after root = .plain
  nothing : related [] (Mode.plain.skeleton root)

/-- A list of structural characters that can stand in for another one: it has no braces of
its own, and brackets and guarded semicolons come out as they were. -/
structure Imitates (source written : List Char) : Prop where
  braces : ∀ brace ∈ ['{', '}'], brace ∈ written → brace ∈ source
  depth : ∀ depth, depthAfter depth written = depthAfter depth source
  guarded : ∀ depth, Guarded depth source → Guarded depth written

theorem imitation_imitates : Imitation Imitates where
  refl := fun _ => ⟨fun _ _ member => member, fun _ => rfl, fun _ guarded => guarded⟩
  append := by
    intro source source' written written' left right
    refine ⟨fun brace kind member => ?_, fun depth => ?_, fun depth guarded => ?_⟩
    · rcases List.mem_append.mp member with inLeft | inRight
      · exact List.mem_append_left _ (left.braces brace kind inLeft)
      · exact List.mem_append_right _ (right.braces brace kind inRight)
    · rw [depthAfter_append, depthAfter_append, left.depth, right.depth]
    · rw [guarded_append] at guarded ⊢
      refine ⟨left.guarded depth guarded.1, ?_⟩
      rw [left.depth]
      exact right.guarded _ guarded.2
  of_light := by
    intro source written lightSource lightWritten
    refine ⟨fun brace kind member => ?_, fun depth => ?_, fun _ _ => ?_⟩
    · have weight : ∀ brace ∈ ['{', '}'], brace ∈ weights := by simp [weights]
      exact absurd (weight brace kind) (lightWritten brace member)
    · rw [depthAfter_of_light lightSource, depthAfter_of_light lightWritten]
    · exact guarded_of_not_mem fun member => lightWritten ';' member (by decide)

/-- A closed piece of text: brought into a selector it opens and closes nothing. -/
structure IsClosedRoot (root : List Char) : Prop where
  nonempty : root ≠ []
  trimmed : Trimmed root
  neutral : Mode.plain.after root = .plain
  unstructured : ∀ c ∈ ['{', '}', ';'], c ∉ Mode.plain.skeleton root
  level : (Mode.plain.skeleton root).count '(' + (Mode.plain.skeleton root).count '[' =
    (Mode.plain.skeleton root).count ')' + (Mode.plain.skeleton root).count ']'

theorem IsClosedRoot.fits {root : List Char} (closed : IsClosedRoot root) :
    Fits Imitates root where
  imitation := imitation_imitates
  neutral := closed.neutral
  nothing := by
    refine ⟨fun brace kind member => ?_, fun depth => ?_, fun _ _ => ?_⟩
    · have within : ∀ brace ∈ ['{', '}'], brace ∈ ['{', '}', ';'] := by simp
      exact absurd member (closed.unstructured brace (within brace kind))
    · have level := closed.level
      rw [depthAfter_eq, depthAfter_nil]
      omega
    · exact guarded_of_not_mem (closed.unstructured ';' (by decide))

/-! ## Selectors under a root -/

structure StandsFor (related : List Char → List Char → Prop) (written source : List Char) :
    Prop where
  skeleton : related (Mode.plain.skeleton source) (Mode.plain.skeleton written)
  settled : (Mode.plain.after source).Settled → (Mode.plain.after written).Settled

variable {related : List Char → List Char → Prop} {root : List Char}

/-- What stands for the trimmed part of a text stands for the text. -/
theorem StandsFor.of_trim (imitation : Imitation related) {written text : List Char}
    (stands : StandsFor related written (trim text)) : StandsFor related written text where
  skeleton := by
    obtain ⟨lead, tail, blankLead, blankTail, shape⟩ := exists_skeleton_trim text
    have left : related lead [] := imitation.of_light (AllBlank.light blankLead) (by simp)
    have right : related tail [] := imitation.of_light (AllBlank.light blankTail) (by simp)
    have whole := imitation.append (imitation.append left stands.skeleton) right
    rwa [← shape, List.nil_append, List.append_nil] at whole
  settled := fun settled => stands.settled (settled_trim settled)

namespace Placeholder

variable {placeholder : Placeholder} {skip : Nat} {mode : Mode} {text : List Char}

theorem after_replaceFrom (neutral : Mode.plain.after root = .plain)
    (passing : Passing skip mode text) :
    mode.after (placeholder.replaceFrom root skip mode text) = mode.after text := by
  induction text generalizing skip mode with
  | nil => rw [replaceFrom_nil]
  | cons c text ih =>
      cases skip with
      | succ skip =>
          rw [replaceFrom_succ, Mode.after_cons, ← ih passing.next,
            Mode.next_of_structural passing.structural, passing.mode_eq]
      | zero =>
          cases found : placeholder.start? mode c text with
          | none =>
              rw [replaceFrom_of_none found, Mode.after_cons, ih (passing_zero _ _),
                Mode.after_cons]
          | some extent =>
              have structural := (start?_eq_some_iff.mp found).1
              rw [replaceFrom_of_start found, Mode.after_append, Mode.after_cons,
                ← ih (passing_of_start? found), Mode.next_of_structural structural,
                Mode.eq_plain_of_structural structural, neutral]

/-- What writing a root for placeholders does to a list of structural characters: some without
weight go, and the structure of the root comes in between. -/
inductive Substituted (inserted : List Char) : List Char → List Char → Prop where
  | nil : Substituted inserted [] []
  | kept {source written : List Char} (c : Char) (rest : Substituted inserted source written) :
      Substituted inserted (c :: source) (c :: written)
  | dropped {source written : List Char} {c : Char} (light : c ∉ weights)
      (rest : Substituted inserted source written) : Substituted inserted (c :: source) written
  | inserted {source written : List Char} (rest : Substituted inserted source written) :
      Substituted inserted source (inserted ++ written)

theorem substituted_replaceFrom (neutral : Mode.plain.after root = .plain)
    (passing : Passing skip mode text) :
    Substituted (Mode.plain.skeleton root) (mode.skeleton text)
      (mode.skeleton (placeholder.replaceFrom root skip mode text)) := by
  induction text generalizing skip mode with
  | nil =>
      rw [replaceFrom_nil]
      exact .nil
  | cons c text ih =>
      cases skip with
      | succ skip =>
          have rest := ih passing.next
          rw [Mode.next_of_structural passing.structural] at rest
          rw [replaceFrom_succ, Mode.skeleton_of_structural passing.structural,
            Mode.next_of_structural passing.structural, passing.mode_eq]
          exact .dropped (light_of_not_mem_marks (passing.unmarked c (by simp))) rest
      | zero =>
          cases found : placeholder.start? mode c text with
          | none =>
              have rest := ih (passing_zero (mode.next c) text)
              rw [replaceFrom_of_none found]
              by_cases structural : mode.structural c = true
              · rw [Mode.next_of_structural structural] at rest ⊢
                rw [Mode.skeleton_of_structural structural, Mode.skeleton_of_structural structural]
                exact .kept c rest
              · rw [Mode.skeleton_of_not_structural structural,
                  Mode.skeleton_of_not_structural structural]
                exact rest
          | some extent =>
              obtain ⟨structural, covered⟩ := start?_eq_some_iff.mp found
              have rest := ih (passing_of_start? found)
              have light : c ∉ weights := by
                rw [(exists_of_extent? covered).1]
                cases placeholder <;> decide
              rw [Mode.next_of_structural structural] at rest
              rw [replaceFrom_of_start found, Mode.skeleton_of_structural structural,
                Mode.next_of_structural structural, Mode.eq_plain_of_structural structural,
                Mode.skeleton_append, neutral]
              exact .dropped light (.inserted rest)

theorem Substituted.relates (fits : Fits related root) {source written : List Char}
    (substituted : Substituted (Mode.plain.skeleton root) source written) :
    related source written := by
  induction substituted with
  | nil => exact fits.imitation.refl []
  | kept c rest ih => exact fits.imitation.append (fits.imitation.refl [c]) ih
  | @dropped _ _ c light rest ih =>
      have here : related [c] [] := fits.imitation.of_light (by simpa using light) (by simp)
      exact fits.imitation.append here ih
  | inserted rest ih => exact fits.imitation.append fits.nothing ih

end Placeholder

/-- A selector ends under a root in the mode in which it ends alone, but for blanks. -/
theorem after_selectorUnder (neutral : Mode.plain.after root = .plain) (selector : List Char) :
    Mode.plain.after (selectorUnder root selector) = Mode.plain.after (trim selector) := by
  rw [selectorUnder]
  cases scoping : Scoping.ofSelector selector with
  | vanish => rw [trim_eq_nil_iff.mpr (ofSelector_eq_vanish_iff.mp scoping)]
  | substitute placeholder =>
      exact Placeholder.after_replaceFrom neutral (Placeholder.passing_zero _ _)
  | descend =>
      rw [Mode.after_append, neutral]
      rfl

/-- The structure of a root comes for placeholders of a selector, or in front of it. -/
theorem skeleton_selectorUnder (neutral : Mode.plain.after root = .plain)
    (selector : List Char) :
    Placeholder.Substituted (Mode.plain.skeleton root) (Mode.plain.skeleton (trim selector))
        (Mode.plain.skeleton (selectorUnder root selector)) ∨
      Mode.plain.skeleton (selectorUnder root selector) =
        Mode.plain.skeleton root ++ ' ' :: Mode.plain.skeleton (trim selector) := by
  rw [selectorUnder]
  cases scoping : Scoping.ofSelector selector with
  | vanish =>
      rw [trim_eq_nil_iff.mpr (ofSelector_eq_vanish_iff.mp scoping)]
      exact Or.inl .nil
  | substitute placeholder =>
      exact Or.inl (Placeholder.substituted_replaceFrom neutral (Placeholder.passing_zero _ _))
  | descend =>
      refine Or.inr ?_
      rw [Mode.skeleton_append, neutral, Mode.skeleton_of_structural rfl]

theorem standsFor_selectorUnder (fits : Fits related root) (selector : List Char) :
    StandsFor related (selectorUnder root selector) selector := by
  refine StandsFor.of_trim fits.imitation ⟨?_, fun settled => ?_⟩
  · rcases skeleton_selectorUnder fits.neutral selector with substituted | ahead
    · exact substituted.relates fits
    · rw [ahead]
      have gap : related [] [' '] := fits.imitation.of_light (by simp) (by simp [weights])
      exact fits.imitation.append fits.nothing
        (fits.imitation.append gap (fits.imitation.refl _))
  · rwa [after_selectorUnder fits.neutral]

/-- A comma and a blank are structure, but for the comma where a backslash takes it. -/
theorem skeleton_separator {mode : Mode} (settled : mode.Settled) (text : List Char) :
    mode.skeleton (',' :: ' ' :: text) = ',' :: ' ' :: Mode.plain.skeleton text ∨
      mode.skeleton (',' :: ' ' :: text) = ' ' :: Mode.plain.skeleton text := by
  have blank : Mode.plain.skeleton (' ' :: text) = ' ' :: Mode.plain.skeleton text :=
    Mode.skeleton_of_structural rfl text
  rw [← blank]
  exact settled.skeleton_cons rfl (' ' :: text)

/-- A comma and a blank after a text that ends outside strings add nothing to its structure. -/
theorem Imitation.separated (imitation : Imitation related)
    {written written' source source' : List Char}
    (settled : (Mode.plain.after written).Settled)
    (left : related source (Mode.plain.skeleton written))
    (right : related source' (Mode.plain.skeleton written')) :
    related (source ++ source') (Mode.plain.skeleton (written ++ ',' :: ' ' :: written')) := by
  rw [Mode.skeleton_append]
  refine imitation.append left ?_
  rcases skeleton_separator settled written' with comma | comma
  · rw [comma]
    have nothing : related [] [',', ' '] := imitation.of_light (by simp) (by simp [weights])
    exact imitation.append nothing right
  · rw [comma]
    have nothing : related [] [' '] := imitation.of_light (by simp) (by simp [weights])
    exact imitation.append nothing right

theorem after_separated {written written' : List Char}
    (settled : (Mode.plain.after written).Settled) :
    Mode.plain.after (written ++ ',' :: ' ' :: written') = Mode.plain.after written' := by
  rw [Mode.after_append, Mode.after_cons, settled.next_eq rfl, Mode.after_cons,
    Mode.next_of_structural rfl]

/-- A list under a root stands for the list, also where blank selectors are left out. -/
theorem standsFor_joinSelectors {text : List Char} {mode : Mode} {parts : List (List Char)}
    (fits : Fits related root) (cut : CutAtCommas mode text parts) (start : mode = .plain) :
    StandsFor related (joinSelectors (parts.map (selectorUnder root))) text := by
  induction cut with
  | last mode text =>
      have one := standsFor_selectorUnder fits text
      rw [List.map_singleton]
      by_cases empty : selectorUnder root text = []
      · rw [empty] at one ⊢
        exact one
      · rw [joinSelectors_cons empty, if_pos joinSelectors_nil, List.append_nil]
        exact one
  | @comma mode part text parts plain rest ih =>
      subst start
      have others := ih rfl
      have first := standsFor_selectorUnder fits part
      have settled := first.settled (Or.inl plain)
      have source : Mode.plain.skeleton (part ++ ',' :: text) =
          Mode.plain.skeleton part ++ ([','] ++ Mode.plain.skeleton text) := by
        rw [Mode.skeleton_append, plain, Mode.skeleton_of_structural rfl]
        rfl
      have behind : Mode.plain.after (part ++ ',' :: text) = Mode.plain.after text := by
        rw [Mode.after_append, plain, Mode.after_cons, Mode.next_of_structural rfl]
      have comma : related [','] [] := fits.imitation.of_light (by simp [weights]) (by simp)
      have later : related ([','] ++ Mode.plain.skeleton text)
          (Mode.plain.skeleton (joinSelectors (parts.map (selectorUnder root)))) :=
        fits.imitation.append comma others.skeleton
      rw [List.map_cons]
      by_cases empty : selectorUnder root part = []
      · rw [empty] at first ⊢
        rw [joinSelectors_cons_nil]
        refine ⟨?_, fun ends => others.settled (behind ▸ ends)⟩
        rw [source]
        exact fits.imitation.append first.skeleton later
      · rw [joinSelectors_cons empty]
        split
        · rename_i none
          rw [none] at later
          refine ⟨?_, fun _ => by rwa [List.append_nil]⟩
          rw [source, List.append_nil]
          simpa using fits.imitation.append first.skeleton later
        · refine ⟨?_, fun ends => ?_⟩
          · rw [source]
            exact fits.imitation.separated settled first.skeleton later
          · rw [after_separated settled]
            exact others.settled (behind ▸ ends)

theorem standsFor_selectorsUnder (fits : Fits related root) (text : List Char) :
    StandsFor related (selectorsUnder root text) text := by
  rw [selectorsUnder_eq]
  exact standsFor_joinSelectors fits (cutAtCommas_partsAtCommas 0 .plain text) rfl

/-! ## The ends of a selector list -/

/-- Only the ends of a text matter to trimming. -/
theorem trimmed_of_ends (middle : List Char) {first last : List Char} (start : Trimmed first)
    (finish : Trimmed last) (nonemptyFirst : first ≠ []) (nonemptyLast : last ≠ []) :
    Trimmed (first ++ middle ++ last) where
  first := by
    intro c member
    rw [List.append_assoc, List.head?_append_of_ne_nil _ nonemptyFirst] at member
    exact start.first c member
  last := by
    intro c member
    rw [List.getLast?_append_of_ne_nil _ nonemptyLast] at member
    exact finish.last c member

/-- What is written ends as the text does, or as the root does. -/
theorem Placeholder.mem_getLast?_replaceFrom {placeholder : Placeholder} {root text : List Char}
    {skip : Nat} {mode : Mode} {c : Char} (rooted : root ≠ [])
    (member : c ∈ (placeholder.replaceFrom root skip mode text).getLast?) :
    c ∈ text.getLast? ∨ c ∈ root.getLast? := by
  induction text generalizing skip mode with
  | nil => simp [replaceFrom_nil] at member
  | cons first text ih =>
      have further {more : List Char} (later : c ∈ more.getLast?) :
          c ∈ (first :: more).getLast? := by
        have nonempty : more ≠ [] := by
          rintro rfl
          simp at later
        rwa [← List.singleton_append, List.getLast?_append_of_ne_nil _ nonempty]
      cases skip with
      | succ skip => exact (ih member).imp_left further
      | zero =>
          cases found : placeholder.start? mode first text with
          | some extent =>
              rw [replaceFrom_of_start found] at member
              by_cases last : placeholder.replaceFrom root extent (mode.next first) text = []
              · rw [last, List.append_nil] at member
                exact Or.inr member
              · rw [List.getLast?_append_of_ne_nil _ last] at member
                exact (ih member).imp_left further
          | none =>
              rw [replaceFrom_of_none found] at member
              by_cases last : text = []
              · subst last
                rw [replaceFrom_nil] at member
                exact Or.inl member
              · have nonempty : placeholder.replaceFrom root 0 (mode.next first) text ≠ [] :=
                  replaceFrom_ne_nil rooted last
                rw [← List.singleton_append, List.getLast?_append_of_ne_nil _ nonempty] at member
                exact (ih member).imp_left further

theorem Placeholder.mem_head?_replaceFrom {placeholder : Placeholder} {root text : List Char}
    {mode : Mode} {c : Char} (rooted : root ≠ [])
    (member : c ∈ (placeholder.replaceFrom root 0 mode text).head?) :
    c ∈ text.head? ∨ c ∈ root.head? := by
  cases text with
  | nil => simp [replaceFrom_nil] at member
  | cons first text =>
      cases found : placeholder.start? mode first text with
      | some extent =>
          rw [replaceFrom_of_start found, List.head?_append_of_ne_nil _ rooted] at member
          exact Or.inr member
      | none =>
          rw [replaceFrom_of_none found] at member
          exact Or.inl member

theorem Placeholder.trimmed_replaceFrom {placeholder : Placeholder} {root text : List Char}
    {mode : Mode} (rooted : root ≠ []) (ends : Trimmed root) (trimmed : Trimmed text) :
    Trimmed (placeholder.replaceFrom root 0 mode text) where
  first := fun c member =>
    (mem_head?_replaceFrom rooted member).elim (trimmed.first c) (ends.first c)
  last := fun c member =>
    (mem_getLast?_replaceFrom rooted member).elim (trimmed.last c) (ends.last c)

theorem trimmed_selectorUnder {root : List Char} (rooted : root ≠ []) (ends : Trimmed root)
    (selector : List Char) : Trimmed (selectorUnder root selector) := by
  rw [selectorUnder]
  cases scoping : Scoping.ofSelector selector with
  | vanish => exact trimmed_nil
  | substitute placeholder =>
      exact Placeholder.trimmed_replaceFrom rooted ends (trimmed_trim selector)
  | descend =>
      have visible : trim selector ≠ [] := by
        rw [ne_eq, trim_eq_nil_iff, ← ofSelector_eq_vanish_iff, scoping]
        simp
      have whole := trimmed_of_ends [' '] ends (trimmed_trim selector) rooted visible
      simpa using whole

theorem trimmed_joinSelectors {selectors : List (List Char)}
    (trimmed : ∀ selector ∈ selectors, Trimmed selector) : Trimmed (joinSelectors selectors) := by
  induction selectors with
  | nil => exact trimmed_nil
  | cons first selectors ih =>
      have others := ih fun selector member => trimmed selector (List.mem_cons_of_mem _ member)
      by_cases empty : first = []
      · subst empty
        exact others
      · have start := trimmed first List.mem_cons_self
        rw [joinSelectors_cons empty]
        split
        · rwa [List.append_nil]
        · rename_i more
          have whole := trimmed_of_ends [',', ' '] start others empty more
          simpa using whole

theorem trimmed_selectorsUnder {root : List Char} (closed : IsClosedRoot root)
    (text : List Char) : Trimmed (selectorsUnder root text) := by
  rw [selectorsUnder_eq]
  refine trimmed_joinSelectors fun selector member => ?_
  obtain ⟨part, -, rfl⟩ := List.mem_map.mp member
  exact trimmed_selectorUnder closed.nonempty closed.trimmed part

/-- A header is a header again under a closed root. -/
theorem isHeader_selectorsUnder {root header : List Char} (closed : IsClosedRoot root)
    (isHeader : IsHeader header) : IsHeader (selectorsUnder root header) := by
  have stands := standsFor_selectorsUnder closed.fits header
  refine ⟨stands.settled isHeader.settled, fun opened => ?_, ?_,
    trimmed_selectorsUnder closed header⟩
  · exact isHeader.unopened (stands.skeleton.braces '{' (by decide) opened)
  · exact stands.skeleton.guarded 0 isHeader.guarded

end ScopeLowering.Stylesheet
