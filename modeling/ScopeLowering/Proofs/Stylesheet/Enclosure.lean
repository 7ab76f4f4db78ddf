import ScopeLowering.Proofs.Stylesheet.BlockSearch
import ScopeLowering.Proofs.Stylesheet.Rooting
import ScopeLowering.Stylesheet.Lowering

/-!
# Enclosed output

A stylesheet whose roots are enclosed is lowered to an enclosed text, whatever else in it is
malformed: a scan of the text ends outside strings, and its braces balance. A root ends at
its closing parenthesis, whatever braces it holds, and trimming may leave a backslash at its
end. Such a root is written as it is, and some block under it is lowered to a text that is
not enclosed.
-/

namespace ScopeLowering.Stylesheet

open ScopeLowering.Text

theorem enclosed_of_blank {text : List Char} (blank : AllBlank text) : Enclosed '{' '}' text :=
  .of_ordinary blank.ordinary
    (fun member => not_mem_marks_of_isBlank (blank '{' member) (by decide))
    (fun member => not_mem_marks_of_isBlank (blank '}' member) (by decide))

theorem enclosed_joinLines {texts : List (List Char)}
    (enclosed : ∀ text ∈ texts, Enclosed '{' '}' text) : Enclosed '{' '}' (joinLines texts) := by
  induction texts with
  | nil => exact enclosed_of_blank allBlank_nil
  | cons first texts ih =>
      have start := enclosed first List.mem_cons_self
      have rest := ih fun text member => enclosed text (List.mem_cons_of_mem _ member)
      cases texts with
      | nil => rwa [joinLines, List.intercalate_singleton]
      | cons second texts =>
          rw [joinLines, List.intercalate_cons_cons, ← joinLines]
          exact (start.append (enclosed_of_blank allBlank_line)).append rest

/-! ## Selectors under an enclosed root -/

def TurnsBalanced (source written : List Char) : Prop :=
  (∀ brace ∈ ['{', '}'], brace ∉ source) → Balanced '{' '}' 0 written

theorem balanced_of_unbraced {characters : List Char}
    (unbraced : ∀ brace ∈ ['{', '}'], brace ∉ characters) : Balanced '{' '}' 0 characters :=
  .of_not_mem (unbraced '{' (by decide)) (unbraced '}' (by decide))

theorem unbraced_iff {characters : List Char} :
    (∀ brace ∈ ['{', '}'], brace ∉ characters) ↔ '{' ∉ characters ∧ '}' ∉ characters := by
  simp

theorem imitation_turnsBalanced : Imitation TurnsBalanced where
  refl := fun _ unbraced => balanced_of_unbraced unbraced
  append := by
    intro source source' written written' left right unbraced
    refine (left fun brace kind member => ?_).append (right fun brace kind member => ?_)
    · exact unbraced brace kind (List.mem_append_left _ member)
    · exact unbraced brace kind (List.mem_append_right _ member)
  of_light := by
    intro source written _ light _
    have weight : ∀ brace ∈ ['{', '}'], brace ∈ weights := by simp [weights]
    exact balanced_of_unbraced fun brace kind member => light brace member (weight brace kind)

theorem fits_of_enclosed {root : List Char} (enclosed : Enclosed '{' '}' root) :
    Fits TurnsBalanced root :=
  ⟨imitation_turnsBalanced, enclosed.plain, fun _ => enclosed.balanced⟩

/-! ## Blocks under an enclosed root -/

/-- A header with balanced braces and an enclosed body make an enclosed text. -/
theorem enclosed_braces {header body : List Char} (settled : (Mode.plain.after header).Settled)
    (balanced : Balanced '{' '}' 0 (Mode.plain.skeleton header))
    (inside : Enclosed '{' '}' body) : Enclosed '{' '}' (braces header body) where
  plain := by
    rw [braces, Mode.after_append, Mode.after_cons, settled.next_eq rfl, Mode.after_cons,
      Mode.next_of_structural rfl, Mode.after_append, inside.plain]
    rfl
  balanced := by
    have wrapped : Balanced '{' '}' 0 (Mode.plain.skeleton ('{' :: (body ++ ['}']))) := by
      rw [Mode.skeleton_of_structural rfl, Mode.skeleton_append, inside.plain]
      exact Balanced.wrap (by decide) inside.balanced
    rw [braces, Mode.skeleton_append]
    refine balanced.append ?_
    rcases settled.skeleton_cons (c := ' ') rfl ('{' :: (body ++ ['}'])) with gap | gap
    · rw [gap]
      exact (Balanced.cons_other (by decide) (by decide)).mpr wrapped
    · rw [gap]
      exact wrapped

def innerWriter (root : List Char) : Nat → Option (List Char → List Char)
  | 0 => none
  | levels + 1 => some (lowerBlock root levels)

theorem lowerBlock_eq_joinLines (root : List Char) (levels : Nat) (body : List Char) :
    lowerBlock root levels body =
      joinLines
        ((constructs body).filterMap (Construct.lower? root (innerWriter root levels))) := by
  cases levels <;> rfl

/-- Bodies of grouping at-rules are enclosed again when they are written. -/
def KeepsEnclosed (inner : Option (List Char → List Char)) : Prop :=
  ∀ write ∈ inner, ∀ body, Enclosed '{' '}' body → Enclosed '{' '}' (write body)

/-- A construct is written as a header that stands for its own and an enclosed body. -/
theorem Construct.WellFormed.exists_written {related : List Char → List Char → Prop}
    {root text : List Char} (fits : Fits related root)
    {inner : Option (List Char → List Char)} (keeps : KeepsEnclosed inner)
    {construct : Construct} (wellFormed : construct.WellFormed)
    (found : construct.lower? root inner = some text) :
    ∃ header body, text = braces header body ∧ StandsFor related header construct.header ∧
      Enclosed '{' '}' body := by
  have same : StandsFor related construct.header construct.header :=
    ⟨fits.imitation.refl _, fun settled => settled⟩
  unfold lower? at found
  cases kind : construct.kind with
  | definition =>
      simp only [kind, Option.some.injEq] at found
      exact ⟨construct.header, construct.body, found.symm, same, wellFormed.body⟩
  | grouping =>
      simp only [kind, Option.map_eq_some_iff] at found
      obtain ⟨write, given, rfl⟩ := found
      have line : Enclosed '{' '}' ['\n'] := enclosed_of_blank allBlank_line
      have inside := keeps write given construct.body wellFormed.body
      exact ⟨construct.header, _, rfl, same, (line.append inside).append line⟩
  | plain =>
      simp only [kind, Option.ite_none_left_eq_some, Option.some.injEq] at found
      exact ⟨selectorsUnder root construct.header, construct.body, found.2.symm,
        standsFor_selectorsUnder fits construct.header, wellFormed.body⟩

/-- What is written for a construct that closes no brace in its header is enclosed. -/
theorem Construct.WellFormed.enclosed_lower? {root text : List Char}
    (enclosed : Enclosed '{' '}' root) {inner : Option (List Char → List Char)}
    (keeps : KeepsEnclosed inner) {construct : Construct} (wellFormed : construct.WellFormed)
    (unclosed : '}' ∉ Mode.plain.skeleton construct.header)
    (found : construct.lower? root inner = some text) : Enclosed '{' '}' text := by
  have unbraced : ∀ brace ∈ ['{', '}'], brace ∉ Mode.plain.skeleton construct.header := by
    simp [wellFormed.header.unopened, unclosed]
  obtain ⟨header, body, rfl, stands, inside⟩ :=
    wellFormed.exists_written (fits_of_enclosed enclosed) keeps found
  exact enclosed_braces (stands.settled wellFormed.header.settled) (stands.skeleton unbraced) inside

theorem enclosed_lowerBlock_of_keeps {root : List Char} (enclosed : Enclosed '{' '}' root)
    {levels : Nat} (keeps : KeepsEnclosed (innerWriter root levels)) {body : List Char}
    (inside : Enclosed '{' '}' body) : Enclosed '{' '}' (lowerBlock root levels body) := by
  rw [lowerBlock_eq_joinLines]
  refine enclosed_joinLines fun text member => ?_
  obtain ⟨construct, source, found⟩ := List.mem_filterMap.mp member
  exact (wellFormed_of_mem_constructs source).enclosed_lower? enclosed keeps
    (unclosed_of_mem_constructs inside.balanced.covered source) found

theorem keepsEnclosed_innerWriter {root : List Char} (enclosed : Enclosed '{' '}' root)
    (levels : Nat) : KeepsEnclosed (innerWriter root levels) := by
  intro write given body inside
  induction levels generalizing write body with
  | zero => cases given
  | succ levels ih =>
      obtain rfl := Option.some.inj given
      exact enclosed_lowerBlock_of_keeps enclosed ih inside

/-- An enclosed block is lowered to an enclosed text under an enclosed root. -/
theorem enclosed_lowerBlock {root : List Char} (enclosed : Enclosed '{' '}' root) (levels : Nat)
    {body : List Char} (inside : Enclosed '{' '}' body) :
    Enclosed '{' '}' (lowerBlock root levels body) :=
  enclosed_lowerBlock_of_keeps enclosed (keepsEnclosed_innerWriter enclosed levels) inside

/-! ## Roots that are not enclosed -/

/-- A rule that shows whether a root is enclosed: its selector is the nesting mark with an
empty string behind it. -/
def probe : Construct := ⟨['&', '"', '"'], []⟩

def probeBlock : List Char := braces probe.header probe.body

theorem enclosed_probeBlock : Enclosed '{' '}' probeBlock :=
  enclosed_braces (Or.inl (by decide)) (balanced_of_unbraced (unbraced_iff.mpr (by decide)))
    (enclosed_of_blank allBlank_nil)

theorem constructs_probeBlock : constructs probeBlock = [probe] := by
  have first : firstConstruct? probeBlock = some (probe, []) := by decide
  rw [constructs_of_some first, constructs_of_none rfl]

theorem selectorsUnder_probe (root : List Char) :
    selectorsUnder root probe.header = root ++ ['"', '"'] := by
  have parts : partsAtCommas 0 .plain probe.header = [probe.header] := by decide
  have scoping : Scoping.ofSelector probe.header = .substitute .nesting := by decide
  have under : selectorUnder root probe.header = root ++ ['"', '"'] := by
    rw [selectorUnder, scoping]
    rfl
  rw [selectorsUnder_eq, parts, List.map_singleton, under, joinSelectors_cons (by simp),
    if_pos joinSelectors_nil, List.append_nil]

theorem lowerBlock_probeBlock (root : List Char) (levels : Nat) :
    lowerBlock root levels probeBlock = braces (root ++ ['"', '"']) [] := by
  have written (inner : Option (List Char → List Char)) :
      probe.lower? root inner = some (braces (root ++ ['"', '"']) []) := by
    have kind : probe.kind = .plain := by decide
    simp only [Construct.lower?, kind, selectorsUnder_probe]
    rw [if_neg (by simp)]
    rfl
  cases levels <;> simp [lowerBlock, constructs_probeBlock, written, joinLines]

/-- A root that no string is open after is enclosed where it lowers the probe to an enclosed
text. -/
theorem enclosed_of_enclosed_probeBlock {root : List Char}
    (settled : (Mode.plain.after root).Settled) {levels : Nat}
    (enclosed : Enclosed '{' '}' (lowerBlock root levels probeBlock)) : Enclosed '{' '}' root := by
  rw [lowerBlock_probeBlock, braces] at enclosed
  have plain : Mode.plain.after root = .plain := by
    rcases settled with plain | escape
    · exact plain
    · -- The backslash takes the first mark, so the second one opens a string.
      have after := enclosed.plain
      rw [List.append_assoc, Mode.after_append, escape] at after
      exact absurd after (by decide)
  refine ⟨plain, ?_⟩
  have balanced := enclosed.balanced
  rw [List.append_assoc, Mode.skeleton_append, plain] at balanced
  refine balanced.of_append ?_
  have skeleton : Mode.plain.skeleton (['"', '"'] ++ ' ' :: '{' :: ([] ++ ['}'])) =
      [' ', '{', '}'] := by decide
  rw [skeleton, Balanced.cons_other (by decide) (by decide)]
  exact Balanced.wrap (by decide) .nil

/-! ## Stylesheets -/

theorem eq_joinLines_of_lower? {stylesheet css : List Char}
    (lowered : lower? stylesheet = some css) :
    css = joinLines ((scopeBlocks (withoutComments stylesheet)).map ScopeBlock.lower) := by
  unfold lower? at lowered
  split at lowered
  · cases lowered
  · exact (Option.some.inj lowered).symm

/-- A stylesheet is lowered to an enclosed text where the roots of its blocks are enclosed,
and this is what it takes: a root is enclosed exactly if every enclosed block under it is
lowered to an enclosed text. -/
theorem enclosed_lower?_of_roots {stylesheet css : List Char}
    (lowered : lower? stylesheet = some css) :
    ((∀ block ∈ scopeBlocks (withoutComments stylesheet), Enclosed '{' '}' block.root) →
      Enclosed '{' '}' css) ∧
    ∀ block ∈ scopeBlocks (withoutComments stylesheet),
      (Enclosed '{' '}' block.root ↔ ∀ body, Enclosed '{' '}' body →
        Enclosed '{' '}' (lowerBlock block.root maxNesting body)) := by
  constructor
  · intro roots
    rw [eq_joinLines_of_lower? lowered]
    refine enclosed_joinLines fun text member => ?_
    obtain ⟨block, found, rfl⟩ := List.mem_map.mp member
    obtain ⟨complete, same, -⟩ := exists_complete_of_mem_scopeBlocks found
    refine enclosed_lowerBlock (roots block found) maxNesting ?_
    rw [← same]
    exact complete.bodyEnclosed
  · intro block member
    constructor
    · exact fun enclosed body inside => enclosed_lowerBlock enclosed maxNesting inside
    · intro keeps
      exact enclosed_of_enclosed_probeBlock (settled_of_mem_scopeBlocks member)
        (keeps probeBlock enclosed_probeBlock)

def unclosedStylesheet : List Char :=
  "@scope (.a) \x7b h1 \x7b\x7d @scope ([x=\"\x7d\"]) \x7b p \x7b\x7d \x7d".toList

theorem enclosed_lower?_unclosedStylesheet :
    lower? unclosedStylesheet = some "[x=\"\x7d\"] p \x7b\x7d".toList ∧
      (∀ block ∈ scopeBlocks (withoutComments unclosedStylesheet),
        Enclosed '{' '}' block.root) ∧
      Enclosed '{' '}' "[x=\"\x7d\"] p \x7b\x7d".toList := by
  have lowered : lower? unclosedStylesheet = some "[x=\"\x7d\"] p \x7b\x7d".toList := by
    decide +kernel
  have blocks : scopeBlocks (withoutComments unclosedStylesheet) =
      [⟨"[x=\"\x7d\"]".toList, " p \x7b\x7d ".toList⟩] := by decide +kernel
  have roots : ∀ block ∈ scopeBlocks (withoutComments unclosedStylesheet),
      Enclosed '{' '}' block.root := by
    intro block member
    rw [blocks, List.mem_singleton] at member
    subst member
    exact ⟨by decide, balanced_of_unbraced (unbraced_iff.mpr (by decide))⟩
  exact ⟨lowered, roots, (enclosed_lower?_of_roots lowered).1 roots⟩

def openingStylesheet : List Char :=
  "@scope (.a\x7b) \x7b p \x7b x \x7d \x7d @scope (.b) \x7b q \x7b y \x7d \x7d".toList

/-- The brace that a root opens is open at the end of all that is written. -/
theorem not_enclosed_lower?_openingStylesheet :
    ∃ css, lower? openingStylesheet = some css ∧ ¬Enclosed '{' '}' css := by
  refine ⟨".a\x7b p \x7b x \x7d\n.b q \x7b y \x7d".toList, by decide +kernel, fun enclosed => ?_⟩
  exact absurd enclosed.balanced.level (by decide)

end ScopeLowering.Stylesheet
