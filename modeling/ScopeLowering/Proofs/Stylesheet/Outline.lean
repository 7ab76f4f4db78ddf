import ScopeLowering.Proofs.Stylesheet.Selector
import ScopeLowering.Proofs.Stylesheet.Template

/-!
# The root is opaque

The text written for a block is an outline of the block with the root filled in. The
outline is found without the root: it says which constructs are written, holds the headers,
bodies and declarations that are copied, and has a gap for each place of the root.
-/

namespace ScopeLowering.Stylesheet

open ScopeLowering.Text

/-! ## Selectors -/

namespace Placeholder

/-- A selector with gaps for its placeholders, after passing over some characters. -/
def templateFrom (placeholder : Placeholder) : Nat → Mode → List Char → Template
  | _, _, [] => []
  | skip + 1, mode, c :: text => placeholder.templateFrom skip (mode.next c) text
  | 0, mode, c :: text =>
      match placeholder.start? mode c text with
      | some extent => none :: placeholder.templateFrom extent (mode.next c) text
      | none => some c :: placeholder.templateFrom 0 (mode.next c) text

def occurrences (placeholder : Placeholder) : Mode → List Char → Nat
  | _, [] => 0
  | mode, c :: text =>
      placeholder.occurrences (mode.next c) text
        + if (placeholder.start? mode c text).isSome then 1 else 0

variable {placeholder : Placeholder} {root text : List Char} {skip : Nat} {mode : Mode}

theorem fill_templateFrom :
    (placeholder.templateFrom skip mode text).fill root =
      placeholder.replaceFrom root skip mode text := by
  induction text generalizing skip mode with
  | nil => cases skip <;> rfl
  | cons c text ih =>
      cases skip with
      | succ skip => exact ih
      | zero =>
          rw [templateFrom]
          cases found : placeholder.start? mode c text with
          | some extent => rw [replaceFrom_of_start found, Template.fill_gap, ih]
          | none => rw [replaceFrom_of_none found, Template.fill_char, ih]

/-- Every placeholder gets a gap, as none starts inside another one. -/
theorem gaps_templateFrom (passing : Passing skip mode text) :
    (placeholder.templateFrom skip mode text).gaps = placeholder.occurrences mode text := by
  induction text generalizing skip mode with
  | nil => cases skip <;> rfl
  | cons c text ih =>
      cases skip with
      | succ skip =>
          rw [templateFrom, ih passing.next, occurrences, passing.start?_eq_none]
          simp
      | zero =>
          rw [templateFrom, occurrences]
          cases found : placeholder.start? mode c text with
          | some extent => simp [ih (passing_of_start? found)]
          | none => simp [ih (passing_zero _ _)]

theorem occurs_iff :
    placeholder.occurs mode text = true ↔ 0 < placeholder.occurrences mode text := by
  induction text generalizing mode with
  | nil => simp [occurs, occurrences]
  | cons c text ih =>
      rw [occurs, occurrences, start?]
      by_cases structural : mode.structural c = true
      · cases placeholder.extent? (c :: text) <;> simp [structural, ih]
      · simp [structural, ih]

end Placeholder

def selectorTemplate (selector : List Char) : Template :=
  match Scoping.ofSelector selector with
  | .vanish => []
  | .substitute placeholder => placeholder.templateFrom 0 .plain (trim selector)
  | .descend => none :: some ' ' :: Template.ofText (trim selector)

/-- How often the root is written for a selector: for each `:scope` if there is one, else for
each nesting mark if there is one, else once; and never for a blank selector. -/
def rootUses (selector : List Char) : Nat :=
  if trim selector = [] then 0
  else if 0 < Placeholder.scope.occurrences .plain (trim selector) then
    Placeholder.scope.occurrences .plain (trim selector)
  else if 0 < Placeholder.nesting.occurrences .plain (trim selector) then
    Placeholder.nesting.occurrences .plain (trim selector)
  else 1

theorem fill_selectorTemplate (root selector : List Char) :
    (selectorTemplate selector).fill root = selectorUnder root selector := by
  rw [selectorTemplate, selectorUnder]
  cases Scoping.ofSelector selector with
  | vanish => rfl
  | substitute placeholder => exact Placeholder.fill_templateFrom
  | descend => simp

theorem gaps_selectorTemplate (selector : List Char) :
    (selectorTemplate selector).gaps = rootUses selector := by
  have gaps (placeholder : Placeholder) :
      (placeholder.templateFrom 0 .plain (trim selector)).gaps =
        placeholder.occurrences .plain (trim selector) :=
    Placeholder.gaps_templateFrom (Placeholder.passing_zero _ _)
  rw [selectorTemplate, rootUses, Scoping.ofSelector]
  simp only [List.isEmpty_iff, Placeholder.occurs_iff]
  split_ifs <;> simp [gaps]

def selectorsTemplate (text : List Char) : Template :=
  Template.join [',', ' ']
    (((splitSelectors text).map selectorTemplate).filter fun template => !template.isEmpty)

theorem fill_selectorsTemplate {root : List Char} (rooted : root ≠ []) (text : List Char) :
    (selectorsTemplate text).fill root = selectorsUnder root text := by
  have kept (templates : List Template) :
      (templates.filter fun template => !template.isEmpty).map (Template.fill root) =
        (templates.map (Template.fill root)).filter fun selector => !selector.isEmpty := by
    rw [List.filter_map]
    congr 1
    refine List.filter_congr fun template _ => ?_
    rw [Function.comp_apply, Bool.eq_iff_iff]
    simp [Template.fill_eq_nil_iff rooted]
  rw [selectorsTemplate, Template.fill_join, kept, List.map_map, selectorsUnder]
  congr 3
  funext selector
  exact fill_selectorTemplate root selector

theorem gaps_selectorsTemplate (text : List Char) :
    (selectorsTemplate text).gaps = ((splitSelectors text).map rootUses).sum := by
  rw [selectorsTemplate, Template.gaps_join]
  induction splitSelectors text with
  | nil => rfl
  | cons first selectors ih =>
      rw [List.map_cons, List.map_cons, List.sum_cons, ← gaps_selectorTemplate, ← ih,
        List.filter_cons]
      cases selectorTemplate first <;> simp

/-! ## Blocks -/

/-- What is written of a construct for any root. -/
inductive Outline where
  | definition (header body : List Char)
  | rule (selectors : Template) (declarations : List Char)
  | grouping (header : List Char) (inner : List Outline)

mutual

def Outline.template : Outline → Template
  | .definition header body => Template.ofText (braces header body)
  | .rule selectors declarations => Template.braces selectors (Template.ofText declarations)
  | .grouping header inner =>
      Template.braces (Template.ofText header)
        (some '\n' :: Template.join ['\n'] (templates inner) ++ [some '\n'])

def templates : List Outline → List Template
  | [] => []
  | first :: outlines => first.template :: templates outlines

end

theorem templates_eq_map (outlines : List Outline) :
    templates outlines = outlines.map Outline.template := by
  induction outlines with
  | nil => rfl
  | cons first outlines ih => rw [templates, ih, List.map_cons]

def Outline.print (root : List Char) (outline : Outline) : List Char := outline.template.fill root

theorem print_definition (root header body : List Char) :
    (Outline.definition header body).print root = braces header body := by
  rw [Outline.print, Outline.template, Template.fill_ofText]

theorem print_rule (root : List Char) (selectors : Template) (declarations : List Char) :
    (Outline.rule selectors declarations).print root =
      braces (selectors.fill root) declarations := by
  rw [Outline.print, Outline.template, Template.fill_braces, Template.fill_ofText]

theorem print_grouping (root header : List Char) (inner : List Outline) :
    (Outline.grouping header inner).print root =
      braces header ('\n' :: joinLines (inner.map (Outline.print root)) ++ ['\n']) := by
  rw [Outline.print, Outline.template, Template.fill_braces, Template.fill_ofText,
    templates_eq_map, Template.fill_append, Template.fill_char, Template.fill_join, List.map_map]
  rfl

def Construct.outline? (inner : Option (List Char → List Outline)) (construct : Construct) :
    Option Outline :=
  match construct.kind with
  | .definition => some (.definition construct.header construct.body)
  | .grouping => inner.map fun outlines => .grouping construct.header (outlines construct.body)
  | .plain =>
      let selectors := selectorsTemplate construct.header
      if selectors.isEmpty then none else some (.rule selectors construct.body)

def blockOutlines : Nat → List Char → List Outline
  | 0, body => (constructs body).filterMap (Construct.outline? none)
  | levels + 1, body =>
      (constructs body).filterMap (Construct.outline? (some (blockOutlines levels)))

def Construct.rootUses (inner : Option (List Char → Nat)) (construct : Construct) : Nat :=
  match construct.kind with
  | .definition => 0
  | .grouping => (inner.map fun uses => uses construct.body).getD 0
  | .plain => ((splitSelectors construct.header).map Stylesheet.rootUses).sum

def blockRootUses : Nat → List Char → Nat
  | 0, body => ((constructs body).map (Construct.rootUses none)).sum
  | levels + 1, body =>
      ((constructs body).map (Construct.rootUses (some (blockRootUses levels)))).sum

theorem Construct.lower?_eq_outline {root : List Char} (rooted : root ≠ [])
    {write : Option (List Char → List Char)} (inner : Option (List Char → List Outline))
    (same : write = inner.map fun outlines body =>
      joinLines ((outlines body).map (Outline.print root)))
    (construct : Construct) :
    construct.lower? root write = (construct.outline? inner).map (Outline.print root) := by
  unfold lower? outline?
  cases construct.kind with
  | definition => rw [Option.map_some, print_definition]
  | grouping =>
      subst same
      cases inner with
      | none => rfl
      | some outlines =>
          simp only [Option.map_some]
          rw [print_grouping]
  | plain =>
      have filled := fill_selectorsTemplate rooted construct.header
      simp only [List.isEmpty_iff]
      rw [← filled]
      by_cases empty : selectorsTemplate construct.header = []
      · simp [empty]
      · rw [if_neg empty, if_neg (by rwa [Template.fill_eq_nil_iff rooted]), Option.map_some,
          print_rule]

theorem lowerBlock_eq_outlines {root : List Char} (rooted : root ≠ []) (levels : Nat)
    (body : List Char) :
    lowerBlock root levels body =
      joinLines ((blockOutlines levels body).map (Outline.print root)) := by
  induction levels generalizing body with
  | zero =>
      rw [lowerBlock, blockOutlines, List.map_filterMap]
      exact congrArg joinLines (List.filterMap_congr fun construct _ =>
        construct.lower?_eq_outline rooted none rfl)
  | succ levels ih =>
      rw [lowerBlock, blockOutlines, List.map_filterMap]
      refine congrArg joinLines (List.filterMap_congr fun construct _ => ?_)
      refine construct.lower?_eq_outline rooted (some (blockOutlines levels)) ?_
      exact congrArg some (funext ih)

theorem Construct.gaps_outline? {uses : Option (List Char → Nat)}
    {inner : Option (List Char → List Outline)}
    (same : uses = inner.map fun outlines body => ((outlines body).map (·.template.gaps)).sum)
    (construct : Construct) :
    ((construct.outline? inner).map (·.template.gaps)).getD 0 = construct.rootUses uses := by
  unfold outline? rootUses
  cases construct.kind with
  | definition => simp [Outline.template]
  | grouping =>
      subst same
      cases inner with
      | none => rfl
      | some outlines =>
          simp [Outline.template, Template.gaps_braces, Template.gaps_append, Template.gaps_join,
            templates_eq_map]
          rfl
  | plain =>
      simp only [List.isEmpty_iff]
      rw [← gaps_selectorsTemplate]
      by_cases empty : selectorsTemplate construct.header = []
      · simp [empty]
      · simp [empty, Outline.template, Template.gaps_braces]

theorem sum_gaps_filterMap {uses : Option (List Char → Nat)}
    (inner : Option (List Char → List Outline))
    (same : uses = inner.map fun outlines body => ((outlines body).map (·.template.gaps)).sum)
    (source : List Construct) :
    ((source.filterMap (Construct.outline? inner)).map (·.template.gaps)).sum =
      (source.map (Construct.rootUses uses)).sum := by
  induction source with
  | nil => rfl
  | cons construct source ih =>
      rw [List.map_cons, List.sum_cons, ← construct.gaps_outline? same, ← ih, List.filterMap_cons]
      cases construct.outline? inner <;> simp

theorem gaps_blockOutlines (levels : Nat) (body : List Char) :
    ((blockOutlines levels body).map (·.template.gaps)).sum = blockRootUses levels body := by
  induction levels generalizing body with
  | zero => exact sum_gaps_filterMap none rfl (constructs body)
  | succ levels ih =>
      refine sum_gaps_filterMap (some (blockOutlines levels)) ?_ (constructs body)
      exact congrArg some (funext fun inside => (ih inside).symm)

/-- The root is opaque: what is written for a block is the print of an outline that is found
without the root, and so the same texts with the root between them for every root. -/
theorem lowerBlock_opaque_root (body : List Char) :
    (∀ root, root ≠ [] → lowerBlock root maxNesting body =
      joinLines ((blockOutlines maxNesting body).map (Outline.print root))) ∧
    ∃ (first : List Char) (others : List (List Char)),
      others.length = blockRootUses maxNesting body ∧
      ∀ root, root ≠ [] →
        lowerBlock root maxNesting body = first ++ others.flatMap (root ++ ·) := by
  have printed : ∀ root, root ≠ [] → lowerBlock root maxNesting body =
      joinLines ((blockOutlines maxNesting body).map (Outline.print root)) :=
    fun root rooted => lowerBlock_eq_outlines rooted maxNesting body
  refine ⟨printed, ?_⟩
  obtain ⟨first, others, length, filled⟩ := Template.exists_pieces
    (Template.join ['\n'] ((blockOutlines maxNesting body).map Outline.template))
  refine ⟨first, others, ?_, fun root rooted => ?_⟩
  · rw [length, Template.gaps_join, List.map_map, ← gaps_blockOutlines]
    rfl
  · rw [printed root rooted, ← filled root, Template.fill_join, List.map_map]
    rfl

end ScopeLowering.Stylesheet
