import Mathlib.Data.List.Pairwise
import ScopeLowering.Proofs.Stylesheet.BlockSearch
import ScopeLowering.Proofs.Stylesheet.Comment
import ScopeLowering.Stylesheet.Lowering

/-!
# Heads inside strings

The search for scope blocks starts afresh at every head, so a string around a head does not
hide it. What hides a complete head is the span of an earlier one, and nothing else: a search
meets the complete heads that lie in no span it met, in strings or not.
-/

namespace ScopeLowering.Text

def Mode.InString (mode : Mode) : Prop := ∃ quote, mode = .quoted quote ∨ mode = .quotedEscape quote

theorem Mode.inString_iff {mode : Mode} :
    mode.InString ↔ mode ∈ [.quoted .single, .quoted .double, .quotedEscape .single,
      .quotedEscape .double] := by
  constructor
  · rintro ⟨quote, rfl | rfl⟩ <;> cases quote <;> decide
  · intro member
    simp only [List.mem_cons, List.not_mem_nil, or_false] at member
    rcases member with rfl | rfl | rfl | rfl
    · exact ⟨.single, .inl rfl⟩
    · exact ⟨.double, .inl rfl⟩
    · exact ⟨.single, .inr rfl⟩
    · exact ⟨.double, .inr rfl⟩

instance (mode : Mode) : Decidable mode.InString := decidable_of_iff _ Mode.inString_iff.symm

/-- Every occurrence of a character lies in a string, for a scan that starts in a mode. -/
def Mode.QuotesEvery (target : Char) : Mode → List Char → Prop
  | _, [] => True
  | mode, c :: text => (c = target → mode.InString) ∧ (mode.next c).QuotesEvery target text

instance Mode.decidableQuotesEvery (target : Char) :
    (mode : Mode) → (text : List Char) → Decidable (mode.QuotesEvery target text)
  | _, [] => .isTrue trivial
  | mode, c :: text =>
      have := decidableQuotesEvery target (mode.next c) text
      inferInstanceAs (Decidable ((c = target → mode.InString) ∧ _))

theorem Mode.QuotesEvery.inString {target : Char} {mode : Mode} {before after : List Char}
    (quoted : mode.QuotesEvery target (before ++ target :: after)) :
    (mode.after before).InString := by
  induction before generalizing mode with
  | nil => exact quoted.1 rfl
  | cons c before ih => exact ih quoted.2

/-- A text is cut at most once at the closing delimiter of an enclosed text. -/
theorem Enclosed.eq_of_append {opener closer : Char} (distinct : opener ≠ closer)
    (ordinary : Mode.plain.structural closer = true) {inside inside' rest rest' : List Char}
    (enclosed : Enclosed opener closer inside) (enclosed' : Enclosed opener closer inside')
    (same : inside ++ closer :: rest = inside' ++ closer :: rest') :
    inside = inside' ∧ rest = rest' := by
  have cut : closing? opener closer 0 .plain (inside ++ closer :: rest) = some (inside, rest) :=
    (closing?_plain_eq_some_iff distinct ordinary).mpr ⟨rfl, enclosed⟩
  rw [same, (closing?_plain_eq_some_iff distinct ordinary).mpr ⟨rfl, enclosed'⟩] at cut
  obtain ⟨rfl, rfl⟩ := Prod.mk.inj (Option.some.inj cut)
  exact ⟨rfl, rfl⟩

/-- A text is cut at most once at the first visible character. -/
theorem AllBlank.eq_of_append {c : Char} (visible : isBlank c = false)
    {gap gap' rest rest' : List Char} (blank : AllBlank gap) (blank' : AllBlank gap')
    (same : gap ++ c :: rest = gap' ++ c :: rest') : gap = gap' ∧ rest = rest' := by
  have start : trimStart (gap ++ c :: rest) = c :: rest :=
    (trimStart_eq_cons_iff visible).mpr ⟨gap, rfl, blank⟩
  rw [same, (trimStart_eq_cons_iff visible).mpr ⟨gap', rfl, blank'⟩] at start
  obtain rfl := (List.cons.inj start).2
  exact ⟨List.append_cancel_right same, rfl⟩

end ScopeLowering.Text

namespace ScopeLowering.Stylesheet

open ScopeLowering.Text

theorem lower?_eq_none_iff {stylesheet : List Char} :
    lower? stylesheet = none ↔ scopeBlocks (withoutComments stylesheet) = [] := by
  unfold lower?
  split
  · simp_all
  · simp_all

/-! ## Complete heads -/

/-- A text starts with at most one complete head. -/
theorem CompleteHead.eq_of_append {one two : CompleteHead} {rest rest' : List Char}
    (same : one.text ++ rest = two.text ++ rest') : one = two := by
  obtain ⟨head, root, gap, body, isHead, rootEnclosed, gapBlank, bodyEnclosed⟩ := one
  obtain ⟨head', root', gap', body', isHead', rootEnclosed', gapBlank', bodyEnclosed'⟩ := two
  simp only [CompleteHead.text, List.append_assoc, List.cons_append] at same
  obtain rfl := isHead.eq_of_append isHead' same
  obtain ⟨rfl, gaps⟩ := rootEnclosed.eq_of_append (by decide) (by decide) rootEnclosed'
    (List.append_cancel_left same)
  obtain ⟨rfl, bodies⟩ := gapBlank.eq_of_append (by decide) gapBlank' gaps
  obtain ⟨rfl, -⟩ := bodyEnclosed.eq_of_append (by decide) (by decide) bodyEnclosed' bodies
  rfl

/-- Whether a span lets a search find a block: its root is not blank. -/
def Span.GivesBlock (span : Span) : Prop := span.complete.block.root ≠ []

def Span.StartsInString (span : Span) (text : List Char) : Prop :=
  ∃ before after, text = before ++ span.complete.text ++ after ∧
    byteSize before = span.start ∧ (Mode.plain.after before).InString

variable {text : List Char} {met : List Span} {span : Span}

theorem CompleteHead.exists_text_eq (complete : CompleteHead) :
    ∃ rest, complete.text = '@' :: rest := by
  obtain ⟨word, blanks, spelled, -⟩ := complete.isHead
  rw [CompleteHead.text, spelled]
  exact ⟨_, rfl⟩

/-- At one place of a text starts at most one span. -/
theorem Span.OccursIn.eq_of_start {one two : Span} (first : one.OccursIn text)
    (second : two.OccursIn text) (same : one.start = two.start) : one = two := by
  obtain ⟨before, after, rfl, start⟩ := first
  obtain ⟨before', after', whole, start'⟩ := second
  rw [List.append_assoc, List.append_assoc] at whole
  obtain ⟨more, longer, rest⟩ := exists_of_append_eq_append whole (by omega)
  have size := byteSize_append before more
  rw [← longer] at size
  obtain rfl : more = [] := byteSize_eq_zero_iff.mp (by omega)
  have complete : one.complete = two.complete := CompleteHead.eq_of_append rest
  cases one
  cases two
  simp only [Span.mk.injEq]
  exact ⟨same, complete⟩

/-- Where every at-sign lies in a string, so does the start of every span. -/
theorem Span.OccursIn.startsInString (occurs : span.OccursIn text)
    (quoted : Mode.plain.QuotesEvery '@' text) : span.StartsInString text := by
  obtain ⟨before, after, rfl, start⟩ := occurs
  refine ⟨before, after, rfl, start, ?_⟩
  obtain ⟨rest, shape⟩ := span.complete.exists_text_eq
  rw [shape, List.append_assoc, List.cons_append] at quoted
  exact quoted.inString

theorem Span.StartsInString.occursIn (starts : span.StartsInString text) : span.OccursIn text := by
  obtain ⟨before, after, whole, start, -⟩ := starts
  exact ⟨before, after, whole, start⟩

/-! ## Searches -/

/-- The starts of the spans that a search met lie in none of them. -/
theorem IsSearch.not_covers (search : IsSearch text met) (member : span ∈ met) :
    ∀ outer ∈ met, ¬outer.Covers span.start := by
  intro outer known ⟨after, before⟩
  have apart : met.Pairwise fun one two => one.stop ≤ two.start ∨ two.stop ≤ one.start :=
    search.ordered.imp Or.inl
  have symmetric : Std.Symm fun one two : Span => one.stop ≤ two.start ∨ two.stop ≤ one.start :=
    ⟨fun _ _ => Or.symm⟩
  have different : outer ≠ span := by
    rintro rfl
    exact Nat.lt_irrefl _ after
  have positive : span.start ≤ span.stop := Nat.le_add_right ..
  rcases apart.forall known member different with first | second
  · omega
  · omega

/-- A search meets the complete heads that lie inside no span it met, and no others. -/
theorem IsSearch.mem_iff (search : IsSearch text met) :
    span ∈ met ↔ span.OccursIn text ∧ ∀ outer ∈ met, ¬outer.Covers span.start := by
  constructor
  · intro member
    exact ⟨search.sound span member, search.not_covers member⟩
  · rintro ⟨occurs, outside⟩
    have split := occurs
    obtain ⟨before, after, whole, start⟩ := split
    have tail : span.complete.text ++ after = span.complete.head ++ ((span.complete.root ++
        ')' :: (span.complete.gap ++ '{' :: (span.complete.body ++ ['}']))) ++ after) := by
      rw [CompleteHead.text, List.append_assoc]
    rw [← start] at outside
    rw [List.append_assoc, tail, ← List.append_assoc] at whole
    rcases search.complete before _ _ whole span.complete.isHead outside with
      ⟨found, member, same, -⟩ | none
    · rwa [← (search.sound found member).eq_of_start occurs (same.trans start)]
    · exact absurd ⟨span.complete, after, tail.symm⟩ none

/-- A search finds a block exactly if a span it met has a root that is not blank. -/
theorem IsSearch.scopeBlocks_eq_nil_iff (search : IsSearch text met) :
    scopeBlocks text = [] ↔ ∀ span ∈ met, ¬span.GivesBlock := by
  rw [search.blocks, blocksOf, List.filter_eq_nil_iff, List.forall_mem_map]
  simp [Span.GivesBlock]

/-- A search meets the complete heads outside the spans it met, in strings or not. So no block
starts in a string just if every complete head of a block in a string is inside a span. Where
all at-signs of a stylesheet lie in strings, it gives nothing under the same condition. -/
theorem exists_isSearch_quoted (text : List Char) :
    ∃ met, IsSearch text met ∧
      (∀ span, span ∈ met ↔ span.OccursIn text ∧ ∀ outer ∈ met, ¬outer.Covers span.start) ∧
      ((∀ span ∈ met, span.GivesBlock → ¬span.StartsInString text) ↔
        ∀ span : Span, span.GivesBlock → span.StartsInString text →
          ∃ outer ∈ met, outer.Covers span.start) ∧
      (¬['/', '*'] <:+: text → Mode.plain.QuotesEvery '@' text →
        (lower? text = none ↔
          ∀ span : Span, span.GivesBlock → span.StartsInString text →
            ∃ outer ∈ met, outer.Covers span.start)) := by
  obtain ⟨met, search⟩ := exists_isSearch text
  have member (span : Span) (occurs : span.OccursIn text) :
      span ∉ met ↔ ∃ outer ∈ met, outer.Covers span.start := by
    rw [search.mem_iff]
    simp [occurs]
  refine ⟨met, search, fun span => search.mem_iff, ?_, fun unopened quoted => ?_⟩
  · constructor
    · intro unquoted span gives starts
      exact (member span starts.occursIn).mp fun known => unquoted span known gives starts
    · intro covered span known gives starts
      exact (member span starts.occursIn).mpr (covered span gives starts) known
  · rw [lower?_eq_none_iff, withoutComments_of_unopened unopened, search.scopeBlocks_eq_nil_iff]
    constructor
    · intro barren span gives starts
      exact (member span starts.occursIn).mp fun known => barren span known gives
    · intro covered span known gives
      have starts := (search.sound span known).startsInString quoted
      exact (member span starts.occursIn).mpr (covered span gives starts) known

/-- A string with a block inside the span of a head that gives none. -/
def shieldedHead : List Char :=
  "a \x7b content: '@scope () \x7b @scope (.a) \x7b p \x7b x \x7d \x7d \x7d' \x7d".toList

theorem exists_isSearch_quoted_shieldedHead :
    ¬['/', '*'] <:+: shieldedHead ∧ Mode.plain.QuotesEvery '@' shieldedHead ∧
      ∃ met, IsSearch shieldedHead met ∧
        ∀ span : Span, span.GivesBlock → span.StartsInString shieldedHead →
          ∃ outer ∈ met, outer.Covers span.start := by
  have unopened : ¬['/', '*'] <:+: shieldedHead := by decide +kernel
  have quoted : Mode.plain.QuotesEvery '@' shieldedHead := by decide +kernel
  obtain ⟨met, search, -, -, barren⟩ := exists_isSearch_quoted shieldedHead
  exact ⟨unopened, quoted, met, search, (barren unopened quoted).mp (by decide +kernel)⟩

def quotedHead : List Char :=
  "a \x7b content: \"@scope (.a) \x7b p \x7b x \x7d \x7d\" \x7d".toList

/-- The block inside the string is found and lowered. -/
theorem lower?_quotedHead :
    ¬['/', '*'] <:+: quotedHead ∧ Mode.plain.QuotesEvery '@' quotedHead ∧
      scopeBlocks quotedHead = [⟨".a".toList, " p \x7b x \x7d ".toList⟩] ∧
      lower? quotedHead = some ".a p \x7b x \x7d".toList := by
  decide +kernel

end ScopeLowering.Stylesheet
