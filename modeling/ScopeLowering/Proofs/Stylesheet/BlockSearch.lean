import ScopeLowering.Proofs.Text.Balance
import ScopeLowering.Proofs.Text.Keyword
import ScopeLowering.Proofs.Text.Slice
import ScopeLowering.Stylesheet.Lowering

/-!
# The search for scope blocks

A head is complete when its root and its body are closed and only blanks stand between
them. The search meets complete heads from left to right and passes over their whole span.
It finds nothing else, it misses no complete head outside the spans it met, and it goes on
after a span as a search that starts there.
-/

namespace ScopeLowering.Stylesheet

open ScopeLowering.Text

/-! ## Heads -/

/-- The spelling of a head: `@scope` without case, blanks, and an opening parenthesis. -/
def IsHead (head : List Char) : Prop :=
  ∃ word blanks, head = '@' :: word ++ blanks ++ ['('] ∧
    word.map fold = ['s', 'c', 'o', 'p', 'e'] ∧ AllBlank blanks

/-- A head with all that makes it complete: an enclosed root, only blanks up to an opening
brace, and an enclosed body. -/
structure CompleteHead where
  head : List Char
  root : List Char
  gap : List Char
  body : List Char
  isHead : IsHead head
  rootEnclosed : Enclosed '(' ')' root
  gapBlank : AllBlank gap
  bodyEnclosed : Enclosed '{' '}' body

def CompleteHead.text (complete : CompleteHead) : List Char :=
  complete.head ++ (complete.root ++ ')' :: (complete.gap ++ '{' :: (complete.body ++ ['}'])))

def CompleteHead.block (complete : CompleteHead) : ScopeBlock :=
  ⟨trim complete.root, complete.body⟩

theorem afterHead?_eq_some_iff {text rest : List Char} :
    afterHead? text = some rest ↔ ∃ head, text = head ++ rest ∧ IsHead head := by
  constructor
  · intro found
    unfold afterHead? at found
    split at found
    · rename_i inner
      split at found
      · rename_i tail start
        obtain rfl := Option.some.inj found
        obtain ⟨behind, word, trimmed⟩ := Option.map_eq_some_iff.mp start
        obtain ⟨spelled, rfl, folded⟩ := afterWord?_eq_some_iff.mp word
        obtain ⟨blanks, rfl, blank⟩ := (trimStart_eq_cons_iff (by decide)).mp trimmed
        exact ⟨'@' :: spelled ++ blanks ++ ['('], by simp, spelled, blanks, rfl, folded, blank⟩
      · cases found
    · cases found
  · rintro ⟨head, rfl, word, blanks, rfl, folded, blank⟩
    have start : afterWord? ['s', 'c', 'o', 'p', 'e'] (word ++ (blanks ++ '(' :: rest)) =
        some (blanks ++ '(' :: rest) := afterWord?_eq_some_iff.mpr ⟨word, rfl, folded⟩
    have trimmed : trimStart (blanks ++ '(' :: rest) = '(' :: rest :=
      (trimStart_eq_cons_iff (by decide)).mpr ⟨blanks, rfl, blank⟩
    simp [afterHead?, start, trimmed]

/-- The search at one place finds a complete head there, or nothing. -/
theorem firstBlock?_eq_some_iff {text rest : List Char} {block : ScopeBlock} :
    firstBlock? text = some (block, rest) ↔
      ∃ complete : CompleteHead, text = complete.text ++ rest ∧ complete.block = block := by
  constructor
  · intro found
    simp only [firstBlock?, Option.bind_eq_some_iff] at found
    obtain ⟨opened, start, ⟨root, behind⟩, closed, found⟩ := found
    obtain ⟨head, rfl, isHead⟩ := afterHead?_eq_some_iff.mp start
    obtain ⟨rfl, rootEnclosed⟩ := parenthesized?_eq_some_iff.mp closed
    split at found
    · rename_i tail trimmed
      obtain ⟨⟨body, last⟩, matched, same⟩ := Option.map_eq_some_iff.mp found
      obtain ⟨rfl, rfl⟩ := Prod.mk.inj same
      obtain ⟨gap, rfl, gapBlank⟩ := (trimStart_eq_cons_iff (by decide)).mp trimmed
      obtain ⟨rfl, bodyEnclosed⟩ := braced?_eq_some_iff.mp matched
      exact ⟨⟨head, root, gap, body, isHead, rootEnclosed, gapBlank, bodyEnclosed⟩,
        by simp [CompleteHead.text], rfl⟩
    · cases found
  · rintro ⟨⟨head, root, gap, body, isHead, rootEnclosed, gapBlank, bodyEnclosed⟩, rfl, rfl⟩
    have start : afterHead? (head ++ (root ++ ')' :: (gap ++ '{' :: (body ++ '}' :: rest)))) =
        some (root ++ ')' :: (gap ++ '{' :: (body ++ '}' :: rest))) :=
      afterHead?_eq_some_iff.mpr ⟨head, rfl, isHead⟩
    have closed : parenthesized? (root ++ ')' :: (gap ++ '{' :: (body ++ '}' :: rest))) =
        some (root, gap ++ '{' :: (body ++ '}' :: rest)) :=
      parenthesized?_eq_some_iff.mpr ⟨rfl, rootEnclosed⟩
    have trimmed : trimStart (gap ++ '{' :: (body ++ '}' :: rest)) =
        '{' :: (body ++ '}' :: rest) :=
      (trimStart_eq_cons_iff (by decide)).mpr ⟨gap, rfl, gapBlank⟩
    have matched : braced? (body ++ '}' :: rest) = some (body, rest) :=
      braced?_eq_some_iff.mpr ⟨rfl, bodyEnclosed⟩
    simp [firstBlock?, CompleteHead.text, CompleteHead.block, start, closed, trimmed, matched]

theorem scopeBlocks_of_some {text rest : List Char} {block : ScopeBlock}
    (found : firstBlock? text = some (block, rest)) :
    scopeBlocks text =
      if block.root.isEmpty then scopeBlocks rest else block :: scopeBlocks rest := by
  rw [scopeBlocks]
  split
  · rename_i same
    rw [found] at same
    obtain ⟨rfl, rfl⟩ := Prod.mk.inj (Option.some.inj same)
    rfl
  · rename_i none
    rw [found] at none
    cases none

theorem scopeBlocks_of_none {c : Char} {text : List Char}
    (none : firstBlock? (c :: text) = none) : scopeBlocks (c :: text) = scopeBlocks text := by
  rw [scopeBlocks]
  split
  · rename_i found
    rw [none] at found
    cases found
  · rfl

theorem scopeBlocks_nil : scopeBlocks [] = [] := by
  rw [scopeBlocks]
  split
  · rename_i found
    exact absurd (length_of_firstBlock? found) (Nat.not_lt_zero _)
  · rfl

/-- Every block found is that of a complete head whose root is not blank. -/
theorem exists_complete_of_mem_scopeBlocks {text : List Char} {block : ScopeBlock}
    (member : block ∈ scopeBlocks text) :
    ∃ complete : CompleteHead, complete.block = block ∧ block.root ≠ [] := by
  induction text using scopeBlocks.induct with
  | case1 text first rest found blank ih =>
      rw [scopeBlocks_of_some found, if_pos blank] at member
      exact ih member
  | case2 text first rest found visible ih =>
      rw [scopeBlocks_of_some found, if_neg visible, List.mem_cons] at member
      rcases member with rfl | later
      · obtain ⟨complete, -, same⟩ := firstBlock?_eq_some_iff.mp found
        exact ⟨complete, same, by simpa using visible⟩
      · exact ih later
  | case3 none =>
      rw [scopeBlocks_nil] at member
      cases member
  | case4 c text none ih =>
      rw [scopeBlocks_of_none none] at member
      exact ih member

/-- Trimming may leave a backslash at the end of a root, and no open string. -/
theorem settled_of_mem_scopeBlocks {text : List Char} {block : ScopeBlock}
    (member : block ∈ scopeBlocks text) : (Mode.plain.after block.root).Settled := by
  obtain ⟨complete, rfl, -⟩ := exists_complete_of_mem_scopeBlocks member
  exact settled_trim (Or.inl complete.rootEnclosed.plain)

/-! ## Spans -/

structure Span where
  start : Nat
  complete : CompleteHead

def Span.stop (span : Span) : Nat := span.start + byteSize span.complete.text

@[simp]
theorem Span.stop_zero (complete : CompleteHead) :
    (⟨0, complete⟩ : Span).stop = byteSize complete.text := Nat.zero_add _

def Span.OccursIn (span : Span) (text : List Char) : Prop :=
  ∃ before after, text = before ++ span.complete.text ++ after ∧ byteSize before = span.start

/-- An offset inside a span is after its first character and before its end. -/
def Span.Covers (span : Span) (offset : Nat) : Prop :=
  span.start < offset ∧ offset < span.stop

def Span.shift (lead : Nat) (span : Span) : Span := ⟨lead + span.start, span.complete⟩

@[simp]
theorem Span.shift_start (lead : Nat) (span : Span) :
    (span.shift lead).start = lead + span.start := rfl

@[simp]
theorem Span.shift_complete (lead : Nat) (span : Span) :
    (span.shift lead).complete = span.complete := rfl

@[simp]
theorem Span.shift_stop (lead : Nat) (span : Span) :
    (span.shift lead).stop = lead + span.stop := Nat.add_assoc _ _ _

theorem Span.covers_shift {span : Span} {lead offset : Nat} :
    (span.shift lead).Covers (lead + offset) ↔ span.Covers offset := by
  rw [Covers, Covers, shift_start, shift_stop]
  omega

def blocksOf (spans : List Span) : List ScopeBlock :=
  (spans.map fun span => span.complete.block).filter fun block => !block.root.isEmpty

@[simp]
theorem blocksOf_nil : blocksOf [] = [] := rfl

theorem blocksOf_cons (span : Span) (spans : List Span) :
    blocksOf (span :: spans) =
      if span.complete.block.root.isEmpty then blocksOf spans
      else span.complete.block :: blocksOf spans := by
  cases blank : span.complete.block.root.isEmpty <;> simp [blocksOf, blank]

@[simp]
theorem blocksOf_shift (lead : Nat) (spans : List Span) :
    blocksOf (spans.map (Span.shift lead)) = blocksOf spans := by
  simp [blocksOf, Function.comp_def]

theorem Span.OccursIn.shift {span : Span} {text : List Char} (occurs : span.OccursIn text)
    (lead : List Char) : (span.shift (byteSize lead)).OccursIn (lead ++ text) := by
  obtain ⟨before, after, rfl, start⟩ := occurs
  exact ⟨lead ++ before, after, by simp, by simp [byteSize_append, start]⟩

theorem IsHead.eq_of_append {head head' rest rest' : List Char} (isHead : IsHead head)
    (isHead' : IsHead head') (same : head ++ rest = head' ++ rest') : head = head' := by
  have first : afterHead? (head ++ rest) = some rest :=
    afterHead?_eq_some_iff.mpr ⟨head, rfl, isHead⟩
  have second : afterHead? (head ++ rest) = some rest' :=
    afterHead?_eq_some_iff.mpr ⟨head', same, isHead'⟩
  obtain rfl := Option.some.inj (first.symm.trans second)
  exact List.append_cancel_right same

/-! ## The search -/

/-- The spans that a search of the text met. Its blocks are theirs, every one of them is a
complete head of the text, and they are disjoint and in order. A head that starts inside
no span is incomplete or starts a span, and the blocks after a span are those of a search
that starts at its end. -/
structure IsSearch (text : List Char) (met : List Span) : Prop where
  blocks : scopeBlocks text = blocksOf met
  sound : ∀ span ∈ met, span.OccursIn text
  ordered : met.Pairwise fun first second => first.stop ≤ second.start
  complete : ∀ before head rest, text = before ++ head ++ rest → IsHead head →
    (∀ span ∈ met, ¬ span.Covers (byteSize before)) →
    (∃ span ∈ met, span.start = byteSize before ∧ span.complete.head = head) ∨
      ¬ ∃ (found : CompleteHead) (after : List Char), head ++ rest = found.text ++ after
  memoryless : ∀ earlier span later, met = earlier ++ span :: later →
    ∃ rest, fromOffset? span.stop text = some rest ∧ scopeBlocks rest = blocksOf later

theorem isSearch_nil : IsSearch [] [] where
  blocks := scopeBlocks_nil
  sound := by simp
  ordered := .nil
  complete := by
    rintro before head rest same ⟨word, blanks, rfl, -⟩ -
    simp at same
  memoryless := by simp

/-! What a search of a rest met, moved to the whole text. -/

section

variable {text : List Char} {met : List Span}

theorem IsSearch.sound_shift (search : IsSearch text met) (lead : List Char) :
    ∀ span ∈ met.map (Span.shift (byteSize lead)), span.OccursIn (lead ++ text) := by
  intro span member
  obtain ⟨origin, known, rfl⟩ := List.mem_map.mp member
  exact (search.sound origin known).shift lead

theorem IsSearch.ordered_shift (search : IsSearch text met) (lead : Nat) :
    (met.map (Span.shift lead)).Pairwise fun first second => first.stop ≤ second.start := by
  rw [List.pairwise_map]
  refine search.ordered.imp fun {first second} apart => ?_
  rw [Span.shift_stop, Span.shift_start]
  exact Nat.add_le_add_left apart lead

theorem IsSearch.complete_shift (search : IsSearch text met) (lead : List Char)
    {before head rest : List Char} (same : text = before ++ head ++ rest) (isHead : IsHead head)
    (outside : ∀ span ∈ met.map (Span.shift (byteSize lead)),
      ¬ span.Covers (byteSize (lead ++ before))) :
    (∃ span ∈ met.map (Span.shift (byteSize lead)),
        span.start = byteSize (lead ++ before) ∧ span.complete.head = head) ∨
      ¬ ∃ (found : CompleteHead) (after : List Char), head ++ rest = found.text ++ after := by
  rw [byteSize_append] at outside ⊢
  have within : ∀ span ∈ met, ¬ span.Covers (byteSize before) := by
    intro span member covers
    exact outside _ (List.mem_map.mpr ⟨span, member, rfl⟩) (Span.covers_shift.mpr covers)
  refine (search.complete before head rest same isHead within).imp_left ?_
  rintro ⟨span, member, start, spelled⟩
  refine ⟨_, List.mem_map.mpr ⟨span, member, rfl⟩, ?_, spelled⟩
  rw [Span.shift_start, start]

theorem IsSearch.memoryless_shift (search : IsSearch text met) (lead : List Char)
    {earlier later : List Span} {span : Span}
    (split : met.map (Span.shift (byteSize lead)) = earlier ++ span :: later) :
    ∃ rest, fromOffset? span.stop (lead ++ text) = some rest ∧
      scopeBlocks rest = blocksOf later := by
  obtain ⟨first, others, rfl, rfl, tail⟩ := List.map_eq_append_iff.mp split
  obtain ⟨origin, last, rfl, rfl, rfl⟩ := List.map_eq_cons_iff.mp tail
  obtain ⟨rest, reached, continued⟩ := search.memoryless _ _ _ rfl
  refine ⟨rest, ?_, by rw [blocksOf_shift]; exact continued⟩
  rw [Span.shift_stop, fromOffset?_append]
  exact reached

end

/-- A search that finds nothing at the first character is the search of the rest. -/
theorem IsSearch.skip {c : Char} {text : List Char} {met : List Span}
    (search : IsSearch text met) (none : firstBlock? (c :: text) = none) :
    IsSearch (c :: text) (met.map (Span.shift (byteSize [c]))) where
  blocks := by rw [scopeBlocks_of_none none, search.blocks, blocksOf_shift]
  sound := search.sound_shift [c]
  ordered := search.ordered_shift (byteSize [c])
  complete := by
    intro before head rest same isHead outside
    cases before with
    | nil =>
        right
        rintro ⟨found, after, start⟩
        rw [List.nil_append] at same
        rw [firstBlock?_eq_some_iff.mpr ⟨found, same.trans start, rfl⟩] at none
        cases none
    | cons d before =>
        obtain ⟨rfl, inner⟩ := List.cons.inj same
        exact search.complete_shift [c] inner isHead outside
  memoryless := fun _ _ _ split => search.memoryless_shift [c] split

/-- A search that finds a complete head goes on after its span. -/
theorem IsSearch.meet {rest : List Char} {met : List Span} (search : IsSearch rest met)
    (found : CompleteHead) :
    IsSearch (found.text ++ rest)
      (⟨0, found⟩ :: met.map (Span.shift (byteSize found.text))) where
  blocks := by
    rw [scopeBlocks_of_some (firstBlock?_eq_some_iff.mpr ⟨found, rfl, rfl⟩), search.blocks,
      blocksOf_cons, blocksOf_shift]
  sound := by
    intro span member
    rcases List.mem_cons.mp member with rfl | member
    · exact ⟨[], rest, rfl, rfl⟩
    · exact search.sound_shift found.text span member
  ordered := by
    rw [List.pairwise_cons]
    refine ⟨?_, search.ordered_shift (byteSize found.text)⟩
    intro span member
    obtain ⟨origin, -, rfl⟩ := List.mem_map.mp member
    rw [Span.stop_zero, Span.shift_start]
    exact Nat.le_add_right ..
  complete := by
    intro before head tail same isHead outside
    rcases Nat.eq_zero_or_pos (byteSize before) with zero | positive
    · obtain rfl := byteSize_eq_zero_iff.mp zero
      refine .inl ⟨_, List.mem_cons_self .., rfl, ?_⟩
      have start : found.head ++ (found.text.drop found.head.length ++ rest) = head ++ tail := by
        rw [← List.nil_append head, ← same]
        simp [CompleteHead.text]
      exact found.isHead.eq_of_append isHead start
    · have beyond : byteSize found.text ≤ byteSize before := by
        by_contra within
        refine outside _ (List.mem_cons_self ..) ⟨positive, ?_⟩
        rw [Span.stop_zero]
        exact Nat.lt_of_not_le within
      rw [List.append_assoc] at same
      obtain ⟨between, rfl, after⟩ := exists_of_append_eq_append same beyond
      rw [← List.append_assoc] at after
      have moved := search.complete_shift found.text after isHead
        fun span member => outside span (List.mem_cons_of_mem _ member)
      refine moved.imp_left ?_
      rintro ⟨span, member, here⟩
      exact ⟨span, List.mem_cons_of_mem _ member, here⟩
  memoryless := by
    intro earlier span later split
    rcases List.cons_eq_append_iff.mp split with ⟨rfl, first⟩ | ⟨first, rfl, others⟩
    · obtain ⟨rfl, rfl⟩ := List.cons.inj first
      refine ⟨rest, ?_, by rw [blocksOf_shift]; exact search.blocks⟩
      rw [Span.stop_zero]
      exact (fromOffset?_append found.text rest 0).trans (by rw [fromOffset?])
    · exact search.memoryless_shift found.text others

/-- Every search meets a list of complete heads that accounts for all it returns and for
all it passes over. -/
theorem exists_isSearch (text : List Char) : ∃ met, IsSearch text met := by
  -- A span takes many characters at once, so the induction is on the length.
  induction size : text.length using Nat.strong_induction_on generalizing text with
  | _ size ih =>
      subst size
      cases start : firstBlock? text with
      | some pair =>
          obtain ⟨block, rest⟩ := pair
          have shorter := length_of_firstBlock? start
          obtain ⟨found, rfl, -⟩ := firstBlock?_eq_some_iff.mp start
          obtain ⟨met, search⟩ := ih _ shorter rest rfl
          exact ⟨_, search.meet found⟩
      | none =>
          cases text with
          | nil => exact ⟨[], isSearch_nil⟩
          | cons c text =>
              obtain ⟨met, search⟩ := ih _ (by simp) text rfl
              exact ⟨_, search.skip start⟩

end ScopeLowering.Stylesheet
