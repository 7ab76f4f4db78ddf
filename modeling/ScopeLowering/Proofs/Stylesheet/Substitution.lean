import ScopeLowering.Proofs.Stylesheet.Selector

/-!
# Placeholders and what takes their place

A placeholder occurs where one of its spellings lies in a run of structural characters. A
selector is taken apart into these occurrences and single characters, and the root is written
in place of every occurrence and of nothing else. So strings and escapes stay as they are.
-/

namespace ScopeLowering.Text

/-- The structural characters that a text starts with, up to the first literal one. -/
def Mode.run : Mode → List Char → List Char
  | _, [] => []
  | mode, c :: text => if mode.structural c then c :: (mode.next c).run text else []

theorem Mode.skeleton_sublist (mode : Mode) (text : List Char) :
    (mode.skeleton text).Sublist text := by
  induction text generalizing mode with
  | nil => exact .slnil
  | cons c text ih =>
      rw [skeleton]
      split
      · exact (ih _).cons_cons c
      · exact (ih _).cons c

/-- The first character of a text that is all structure is structural. -/
theorem Mode.structural_of_skeleton_cons {mode : Mode} {c : Char} {text : List Char}
    (whole : mode.skeleton (c :: text) = c :: text) : mode.structural c = true := by
  by_contra literal
  rw [skeleton_of_not_structural literal] at whole
  have shorter := (skeleton_sublist (mode.next c) text).length_le
  rw [whole, List.length_cons] at shorter
  omega

/-- A word that ends in the text ends in the run: no literal character continues a word. -/
theorem endsWord_run (text : List Char) : endsWord (Mode.plain.run text) = endsWord text := by
  cases text with
  | nil => rfl
  | cons c text =>
      by_cases structural : Mode.plain.structural c = true
      · rw [Mode.run, if_pos structural]
        rfl
      · rw [Mode.run, if_neg structural]
        rw [Mode.structural_plain_iff, not_not] at structural
        have separates : ∀ mark ∈ ['\\', '\'', '"'], (!isWord mark) = true :=
          List.all_eq_true.mp (by decide)
        exact (separates c structural).symm

/-- No blank folds to a letter of `scope`. -/
theorem isBlank_of_fold {c : Char} (letter : fold c ∈ ['s', 'c', 'o', 'p', 'e']) :
    isBlank c = false := by
  by_contra blank
  have apart : ∀ c ∈ blankCharacters, decide (fold c ∉ ['s', 'c', 'o', 'p', 'e']) = true :=
    List.all_eq_true.mp (by decide +kernel)
  have other := apart c (mem_blankCharacters (Bool.not_eq_false _ ▸ blank))
  exact of_decide_eq_true other letter

end ScopeLowering.Text

namespace ScopeLowering.Stylesheet

open ScopeLowering.Text

namespace Placeholder

inductive Spelling : Placeholder → List Char → Prop
  | scope {blanks word : List Char} (blank : AllBlank blanks)
      (folded : word.map fold = ['s', 'c', 'o', 'p', 'e']) :
      Spelling .scope (':' :: (blanks ++ word))
  | nesting : Spelling .nesting ['&']

/-- Whether a spelling is complete before the rest of its run: a word must end there. -/
def CompleteBefore : Placeholder → List Char → Prop
  | .scope, rest => endsWord rest = true
  | .nesting, _ => True

/-- A spelling of a placeholder inside a run of structural characters of a text, and complete
there, with what stands before and after it. -/
structure Occurrence (placeholder : Placeholder) (mode : Mode)
    (text before found after : List Char) : Prop where
  whole : text = before ++ found ++ after
  spelled : placeholder.Spelling found
  structural : (mode.after before).skeleton found = found
  complete : placeholder.CompleteBefore ((mode.after (before ++ found)).run after)

def Appears (placeholder : Placeholder) (mode : Mode) (text : List Char) : Prop :=
  ∃ before found after, placeholder.Occurrence mode text before found after

variable {placeholder : Placeholder} {mode : Mode} {c : Char} {text before found after : List Char}

theorem Spelling.exists_cons (spelled : placeholder.Spelling found) :
    ∃ rest, found = placeholder.mark :: rest ∧ ∀ c ∈ rest, c ∉ marks := by
  cases spelled with
  | nesting => exact ⟨[], rfl, by simp⟩
  | @scope blanks word blank folded =>
      refine ⟨blanks ++ word, rfl, fun c member => ?_⟩
      rcases List.mem_append.mp member with inBlanks | inWord
      · exact not_mem_marks_of_isBlank (blank c inBlanks)
      · refine not_mem_marks_of_fold ['s', 'c', 'o', 'p', 'e'] (by simp [marks]) ?_
        rw [← folded]
        exact List.mem_map_of_mem inWord

theorem Spelling.ordinary (spelled : placeholder.Spelling found) :
    ∀ c ∈ found, Mode.plain.structural c = true := by
  obtain ⟨rest, rfl, unmarked⟩ := spelled.exists_cons
  intro c member
  rcases List.mem_cons.mp member with rfl | inRest
  · cases placeholder <;> rfl
  · exact ordinary_of_not_mem_marks (unmarked c inRest)

/-- The word `scope` is found behind blanks in any of its spellings. -/
theorem afterWord?_trimStart_eq_some_iff :
    afterWord? ['s', 'c', 'o', 'p', 'e'] (trimStart text) = some after ↔
      ∃ blanks word, text = blanks ++ word ++ after ∧
        AllBlank blanks ∧ word.map fold = ['s', 'c', 'o', 'p', 'e'] := by
  rw [afterWord?_eq_some_iff]
  constructor
  · rintro ⟨word, start, folded⟩
    refine ⟨text.takeWhile isBlank, word, ?_, fun c member => List.mem_takeWhile_imp member, folded⟩
    rw [List.append_assoc, ← start, trimStart, List.takeWhile_append_dropWhile]
  · rintro ⟨blanks, word, rfl, blank, folded⟩
    refine ⟨word, ?_, folded⟩
    obtain ⟨first, rest, rfl⟩ : ∃ first rest, word = first :: rest := by
      cases word with
      | nil => cases folded
      | cons first rest => exact ⟨first, rest, rfl⟩
    have visible : isBlank first = false := by
      refine isBlank_of_fold ?_
      rw [(List.cons.inj folded).1]
      exact List.mem_cons_self
    rw [List.append_assoc]
    exact (trimStart_eq_cons_iff visible).mpr ⟨blanks, rfl, blank⟩

/-- The text after the word `scope` stands behind blanks, a spelling of the word, and the end
of a word. -/
theorem afterScopeWord?_eq_some_iff :
    afterScopeWord? text = some after ↔ ∃ blanks word, text = blanks ++ word ++ after ∧
      AllBlank blanks ∧ word.map fold = ['s', 'c', 'o', 'p', 'e'] ∧ endsWord after = true := by
  rw [afterScopeWord?, Option.filter_eq_some_iff, afterWord?_trimStart_eq_some_iff]
  constructor
  · rintro ⟨⟨blanks, word, shape, blank, folded⟩, ends⟩
    exact ⟨blanks, word, shape, blank, folded, ends⟩
  · rintro ⟨blanks, word, shape, blank, folded, ends⟩
    exact ⟨⟨blanks, word, shape, blank, folded⟩, ends⟩

/-- The extent of a placeholder is that of its spelling, but for the first character. -/
theorem extent?_eq_some_iff {extent : Nat} :
    placeholder.extent? text = some extent ↔
      ∃ found after, text = found ++ after ∧ found.length = extent + 1 ∧
        placeholder.Spelling found ∧ placeholder.CompleteBefore after := by
  constructor
  · intro covered
    unfold extent? at covered
    split at covered
    · obtain ⟨after, word, rfl⟩ := Option.map_eq_some_iff.mp covered
      obtain ⟨blanks, letters, rfl, blank, folded, ends⟩ := afterScopeWord?_eq_some_iff.mp word
      refine ⟨':' :: (blanks ++ letters), after, rfl, ?_, .scope blank folded, ends⟩
      simp only [List.length_cons, List.length_append]
      omega
    · rename_i after
      obtain rfl := Option.some.inj covered
      exact ⟨['&'], after, rfl, rfl, .nesting, trivial⟩
    · cases covered
  · rintro ⟨found, after, rfl, length, spelled, complete⟩
    cases spelled with
    | nesting =>
        obtain rfl : extent = 0 := by simpa using length.symm
        rfl
    | @scope blanks word blank folded =>
        have word : afterScopeWord? (blanks ++ word ++ after) = some after :=
          afterScopeWord?_eq_some_iff.mpr ⟨blanks, word, rfl, blank, folded, complete⟩
        simp only [List.cons_append, extent?, word, Option.map_some, Option.some.injEq]
        simp only [List.length_cons, List.length_append] at length ⊢
        omega

theorem completeBefore_run :
    placeholder.CompleteBefore (Mode.plain.run after) ↔ placeholder.CompleteBefore after := by
  cases placeholder with
  | scope => rw [CompleteBefore, CompleteBefore, endsWord_run]
  | nesting => exact Iff.rfl

/-- A placeholder starts at a character exactly if it occurs there. -/
theorem start?_eq_some_iff_occurrence {extent : Nat} :
    placeholder.start? mode c text = some extent ↔
      ∃ found after, found.length = extent + 1 ∧
        placeholder.Occurrence mode (c :: text) [] found after := by
  rw [start?_eq_some_iff, extent?_eq_some_iff]
  constructor
  · rintro ⟨structural, found, after, whole, length, spelled, complete⟩
    obtain rfl := Mode.eq_plain_of_structural structural
    refine ⟨found, after, length, whole, spelled, Mode.skeleton_of_ordinary spelled.ordinary, ?_⟩
    rw [List.nil_append, Mode.after_of_ordinary spelled.ordinary]
    exact completeBefore_run.mpr complete
  · rintro ⟨found, after, length, whole, spelled, structural, complete⟩
    obtain ⟨rest, rfl, -⟩ := spelled.exists_cons
    rw [List.nil_append] at complete
    obtain rfl : c = placeholder.mark := (List.cons.inj whole).1
    have marked := Mode.structural_of_skeleton_cons structural
    obtain rfl := Mode.eq_plain_of_structural marked
    rw [Mode.after_of_ordinary spelled.ordinary] at complete
    exact ⟨marked, _, after, whole, length, spelled, completeBefore_run.mp complete⟩

/-! ## Occurrences -/

theorem Occurrence.cons_iff :
    placeholder.Occurrence mode (c :: text) (c :: before) found after ↔
      placeholder.Occurrence (mode.next c) text before found after := by
  constructor
  · rintro ⟨whole, spelled, structural, complete⟩
    exact ⟨(List.cons.inj whole).2, spelled, structural, complete⟩
  · rintro ⟨rfl, spelled, structural, complete⟩
    exact ⟨rfl, spelled, structural, complete⟩

/-- An occurrence behind some text is one in the rest of the text. -/
theorem Occurrence.append_iff {lead : List Char} :
    placeholder.Occurrence mode (lead ++ text) (lead ++ before) found after ↔
      placeholder.Occurrence (mode.after lead) text before found after := by
  induction lead generalizing mode with
  | nil => exact Iff.rfl
  | cons c lead ih => exact cons_iff.trans ih

/-- Where a placeholder occurs, it starts with its mark there. -/
theorem Occurrence.exists_start (occurs : placeholder.Occurrence mode text before found after) :
    ∃ rest, found = placeholder.mark :: rest ∧
      placeholder.start? (mode.after before) placeholder.mark (rest ++ after) =
        some rest.length := by
  obtain ⟨rest, rfl, -⟩ := occurs.spelled.exists_cons
  refine ⟨rest, rfl, start?_eq_some_iff_occurrence.mpr
    ⟨placeholder.mark :: rest, after, rfl, ?_⟩⟩
  rw [← List.cons_append, ← Occurrence.append_iff, List.append_nil]
  rwa [← List.append_assoc, ← occurs.whole]

/-- A placeholder occurs in at most one way at a place. -/
theorem Occurrence.found_eq {found' after' : List Char}
    (one : placeholder.Occurrence mode text before found after)
    (two : placeholder.Occurrence mode text before found' after') : found = found' := by
  obtain ⟨rest, rfl, start⟩ := one.exists_start
  obtain ⟨rest', rfl, start'⟩ := two.exists_start
  have whole := one.whole.symm.trans two.whole
  rw [List.append_assoc, List.append_assoc, List.append_right_inj, List.cons_append,
    List.cons_append, List.cons_inj_right] at whole
  rw [whole, start', Option.some.injEq] at start
  rw [(List.append_inj whole start.symm).1]

theorem Occurrence.not_nil : ¬placeholder.Occurrence mode [] before found after := by
  intro occurs
  obtain ⟨rest, rfl, -⟩ := occurs.spelled.exists_cons
  simpa using occurs.whole

/-- An occurrence at the start of a text is met in plain mode, and leaves it so. -/
theorem Occurrence.mode_eq (occurs : placeholder.Occurrence mode text [] found after) :
    mode = .plain := by
  obtain ⟨rest, rfl, -⟩ := occurs.spelled.exists_cons
  exact Mode.eq_plain_of_structural (Mode.structural_of_skeleton_cons occurs.structural)

/-- A stretch of a text that starts with a placeholder starts inside the placeholder or behind
it. -/
theorem Occurrence.inside_or_behind {lead rest : List Char}
    (occurs : placeholder.Occurrence mode text [] found after) (whole : text = lead ++ rest) :
    (∃ c inner, found = lead ++ c :: inner ∧ rest = c :: (inner ++ after)) ∨
      ∃ lead', lead = found ++ lead' ∧ after = lead' ++ rest := by
  have same : found ++ after = lead ++ rest := occurs.whole.symm.trans whole
  rcases List.append_eq_append_iff.mp same with behind | ⟨inner, shape, rfl⟩
  · exact Or.inr behind
  · cases inner with
    | nil => exact Or.inr ⟨[], by simpa using shape.symm, rfl⟩
    | cons c inner => exact Or.inl ⟨c, inner, shape, rfl⟩

/-- No placeholder starts behind the first character of another one and inside it. -/
theorem Occurrence.eq_or_behind {before' found' after' : List Char}
    (first : placeholder.Occurrence mode text [] found after)
    (second : placeholder.Occurrence mode text before' found' after') :
    before' = [] ∨ ∃ lead, before' = found ++ lead ∧
      placeholder.Occurrence .plain after lead found' after' := by
  obtain rfl := first.mode_eq
  have whole := second.whole
  rw [List.append_assoc] at whole
  rcases first.inside_or_behind whole with ⟨c, inner, shape, rest⟩ | ⟨lead, rfl, -⟩
  · obtain ⟨others, rfl, -⟩ := second.spelled.exists_cons
    obtain ⟨letters, rfl, unmarked⟩ := first.spelled.exists_cons
    obtain ⟨rfl, -⟩ := List.cons.inj rest
    cases before' with
    | nil => exact Or.inl rfl
    | cons first before' =>
        obtain ⟨-, rfl⟩ := List.cons.inj shape
        exact absurd placeholder.mark_mem_marks (unmarked _ (by simp))
  · refine Or.inr ⟨lead, rfl, ?_⟩
    have start := first.whole
    rw [List.nil_append] at start
    rw [start, Occurrence.append_iff, Mode.after_of_ordinary first.spelled.ordinary] at second
    exact second

/-- A placeholder lies in a text exactly if a search along the text says so. -/
theorem appears_iff_occurs :
    placeholder.Appears mode text ↔ placeholder.occurs mode text = true := by
  unfold Appears
  induction text generalizing mode with
  | nil =>
      exact iff_of_false (fun ⟨_, _, _, occurs⟩ => occurs.not_nil) Bool.false_ne_true
  | cons c text ih =>
      rw [occurs, Bool.or_eq_true, Bool.and_eq_true, ← ih, Option.isSome_iff_exists]
      constructor
      · rintro ⟨before, found, after, occurrence⟩
        cases before with
        | nil =>
            obtain ⟨rest, rfl, -⟩ := occurrence.spelled.exists_cons
            obtain ⟨structural, covered⟩ := start?_eq_some_iff.mp
              (start?_eq_some_iff_occurrence.mpr ⟨_, after, rfl, occurrence⟩)
            exact Or.inl ⟨structural, _, covered⟩
        | cons first before =>
            obtain ⟨rfl, -⟩ := List.cons.inj occurrence.whole
            exact Or.inr ⟨before, found, after, Occurrence.cons_iff.mp occurrence⟩
      · rintro (⟨structural, extent, covered⟩ | ⟨before, found, after, occurrence⟩)
        · obtain ⟨found, after, -, occurrence⟩ := start?_eq_some_iff_occurrence.mp
            (start?_eq_some_iff.mpr ⟨structural, covered⟩)
          exact ⟨[], found, after, occurrence⟩
        · exact ⟨c :: before, found, after, Occurrence.cons_iff.mpr occurrence⟩

end Placeholder

/-! ## Parts -/

inductive Part where
  | kept (c : Char)
  | placeholder (found : List Char)
deriving DecidableEq, Repr

namespace Part

def source : Part → List Char
  | kept c => [c]
  | placeholder found => found

def written (root : List Char) : Part → List Char
  | kept c => [c]
  | placeholder _ => root

end Part

/-- A text taken apart: the placeholders among the parts are exactly its occurrences, and each
stretch of literal characters is kept. -/
structure Placeholder.Divides (placeholder : Placeholder) (mode : Mode) (text : List Char)
    (parts : List Part) : Prop where
  whole : parts.flatMap Part.source = text
  exact : ∀ before found after, placeholder.Occurrence mode text before found after ↔
    ∃ earlier later, parts = earlier ++ .placeholder found :: later ∧
      earlier.flatMap Part.source = before ∧ later.flatMap Part.source = after
  literal : ∀ before stretch after, text = before ++ stretch ++ after → stretch ≠ [] →
    (mode.after before).skeleton stretch = [] →
    ∃ earlier later, parts = earlier ++ stretch.map Part.kept ++ later ∧
      earlier.flatMap Part.source = before ∧ later.flatMap Part.source = after

namespace Placeholder.Divides

variable {placeholder : Placeholder} {mode : Mode} {c : Char} {text found after : List Char}
  {parts : List Part}

/-- A placeholder is never empty, so only the empty list of parts has no source. -/
theorem eq_nil_of_source {earlier later : List Part}
    (divides : placeholder.Divides mode text (earlier ++ later))
    (empty : earlier.flatMap Part.source = []) : earlier = [] := by
  cases earlier with
  | nil => rfl
  | cons part earlier =>
      exfalso
      have nothing := (List.append_eq_nil_iff.mp (List.flatMap_cons ▸ empty)).1
      cases part with
      | kept c => cases nothing
      | placeholder found =>
          have occurs := (divides.exact [] found _).mpr
            ⟨[], earlier ++ later, rfl, rfl, rfl⟩
          obtain ⟨rest, rfl, -⟩ := occurs.spelled.exists_cons
          cases nothing

theorem nil : placeholder.Divides mode [] [] where
  whole := rfl
  exact before found after := by
    refine iff_of_false (fun occurs => occurs.not_nil) ?_
    rintro ⟨earlier, later, shape, -⟩
    simp at shape
  literal before stretch after whole nonempty := by
    simp_all

/-- Where no placeholder starts, a character is kept. -/
theorem kept (none : placeholder.start? mode c text = none)
    (divides : placeholder.Divides (mode.next c) text parts) :
    placeholder.Divides mode (c :: text) (.kept c :: parts) where
  whole := congrArg (c :: ·) divides.whole
  exact before found after := by
    constructor
    · intro occurs
      cases before with
      | nil =>
          have start := start?_eq_some_iff_occurrence.mpr
            ⟨found, after, (Nat.succ_pred_eq_of_pos
              (List.length_pos_of_ne_nil fun empty => ?_)).symm, occurs⟩
          · rw [none] at start
            cases start
          · obtain ⟨rest, rfl, -⟩ := occurs.spelled.exists_cons
            cases empty
      | cons first before =>
          obtain ⟨rfl, -⟩ := List.cons.inj occurs.whole
          obtain ⟨earlier, later, rfl, rfl, rfl⟩ :=
            (divides.exact _ _ _).mp (Occurrence.cons_iff.mp occurs)
          exact ⟨.kept c :: earlier, later, rfl, rfl, rfl⟩
    · rintro ⟨earlier, later, shape, rfl, rfl⟩
      cases earlier with
      | nil => simp at shape
      | cons part earlier =>
          obtain ⟨rfl, rfl⟩ := List.cons.inj shape
          exact Occurrence.cons_iff.mpr
            ((divides.exact _ _ _).mpr ⟨earlier, later, rfl, rfl, rfl⟩)
  literal before stretch after whole nonempty literal := by
    cases before with
    | cons first before =>
        obtain ⟨rfl, rest⟩ := List.cons.inj whole
        obtain ⟨earlier, later, rfl, rfl, rfl⟩ :=
          divides.literal before stretch after rest nonempty literal
        exact ⟨.kept c :: earlier, later, rfl, rfl, rfl⟩
    | nil =>
        obtain ⟨first, stretch, rfl⟩ := List.exists_cons_of_ne_nil nonempty
        obtain ⟨rfl, behind⟩ := List.cons.inj whole
        by_cases single : stretch = []
        · subst single
          exact ⟨[], parts, rfl, rfl, divides.whole.trans behind⟩
        · have rest : (mode.next c).skeleton stretch = [] := by
            rw [Mode.after_nil, Mode.skeleton] at literal
            split at literal
            · cases literal
            · exact literal
          obtain ⟨earlier, later, shape, empty, rfl⟩ :=
            divides.literal [] stretch after behind single rest
          subst shape
          rw [List.append_assoc] at divides
          obtain rfl := divides.eq_nil_of_source empty
          exact ⟨[], later, rfl, rfl, rfl⟩

/-- Where a placeholder occurs, it is a part, and the rest is taken apart behind it. -/
theorem replaced (divides : placeholder.Divides .plain after parts)
    (occurs : placeholder.Occurrence mode text [] found after) :
    placeholder.Divides mode text (.placeholder found :: parts) where
  whole := by
    rw [List.flatMap_cons, divides.whole]
    exact occurs.whole.symm
  exact before found' after' := by
    constructor
    · intro second
      rcases occurs.eq_or_behind second with rfl | ⟨lead, rfl, behind⟩
      · obtain rfl := occurs.found_eq second
        have same : after = after' :=
          List.append_cancel_left (occurs.whole.symm.trans second.whole)
        exact ⟨[], parts, rfl, rfl, divides.whole.trans same⟩
      · obtain ⟨earlier, later, rfl, rfl, rfl⟩ := (divides.exact _ _ _).mp behind
        exact ⟨.placeholder found :: earlier, later, rfl, rfl, rfl⟩
    · rintro ⟨earlier, later, shape, rfl, rfl⟩
      cases earlier with
      | nil =>
          obtain ⟨same, rfl⟩ := List.cons.inj shape
          obtain rfl := Part.placeholder.inj same
          rwa [divides.whole]
      | cons part earlier =>
          obtain ⟨rfl, rfl⟩ := List.cons.inj shape
          have behind := (divides.exact _ found' _).mpr ⟨earlier, later, rfl, rfl, rfl⟩
          have whole := occurs.whole
          obtain rfl := occurs.mode_eq
          rw [List.nil_append] at whole
          rw [List.flatMap_cons, whole]
          refine Occurrence.append_iff.mpr ?_
          rwa [Mode.after_of_ordinary occurs.spelled.ordinary]
  literal before stretch after' whole nonempty literal := by
    rw [List.append_assoc] at whole
    rcases occurs.inside_or_behind whole with ⟨c, inner, rfl, start⟩ | ⟨lead, rfl, rest⟩
    · exfalso
      obtain rfl := occurs.mode_eq
      have ordinary := occurs.spelled.ordinary
      obtain ⟨first, others, rfl⟩ := List.exists_cons_of_ne_nil nonempty
      obtain ⟨rfl, -⟩ := List.cons.inj start
      rw [Mode.after_of_ordinary fun other member => ordinary other (by simp [member]),
        Mode.skeleton_of_structural (ordinary first (by simp))] at literal
      cases literal
    · obtain rfl := occurs.mode_eq
      rw [Mode.after_append, Mode.after_of_ordinary occurs.spelled.ordinary] at literal
      rw [← List.append_assoc] at rest
      obtain ⟨earlier, later, rfl, rfl, rfl⟩ :=
        divides.literal lead stretch after' rest nonempty literal
      exact ⟨.placeholder found :: earlier, later, rfl, rfl, rfl⟩

end Placeholder.Divides

namespace Placeholder

variable {placeholder : Placeholder} {mode : Mode} {text : List Char}

/-- What is passed over leaves nothing behind. -/
theorem replaceFrom_passed (root passed rest : List Char) :
    placeholder.replaceFrom root passed.length mode (passed ++ rest) =
      placeholder.replaceFrom root 0 (mode.after passed) rest := by
  induction passed generalizing mode with
  | nil => rfl
  | cons c passed ih => exact ih

/-- Replacing placeholders writes the parts of a text, the root for each placeholder. -/
theorem exists_divides (placeholder : Placeholder) (mode : Mode) (text : List Char) :
    ∃ parts, placeholder.Divides mode text parts ∧ ∀ root,
      placeholder.replaceFrom root 0 mode text = parts.flatMap (Part.written root) := by
  -- The rest behind a placeholder is shorter, but it is no tail that induction on the list gives.
  induction size : text.length using Nat.strong_induction_on generalizing mode text with
  | _ size ih =>
      subst size
      cases text with
      | nil => exact ⟨[], .nil, fun root => replaceFrom_nil 0⟩
      | cons c text =>
          cases start : placeholder.start? mode c text with
          | none =>
              obtain ⟨parts, divides, written⟩ :=
                ih text.length (Nat.lt_succ_self _) (mode.next c) text rfl
              refine ⟨.kept c :: parts, divides.kept start, fun root => ?_⟩
              rw [replaceFrom_of_none start, written]
              rfl
          | some extent =>
              obtain ⟨found, after, length, occurs⟩ := start?_eq_some_iff_occurrence.mp start
              obtain rfl := occurs.mode_eq
              obtain ⟨rest, rfl, -⟩ := occurs.spelled.exists_cons
              obtain ⟨rfl, rfl⟩ := List.cons.inj occurs.whole
              obtain rfl := Nat.succ.inj length
              have shorter : after.length < (placeholder.mark :: (rest ++ after)).length := by
                rw [List.length_cons, List.length_append]
                omega
              obtain ⟨parts, divides, written⟩ := ih after.length shorter .plain after rfl
              refine ⟨_, divides.replaced occurs, fun root => ?_⟩
              calc
                _ = root ++ placeholder.replaceFrom root rest.length
                      (Mode.plain.next placeholder.mark) (rest ++ after) :=
                    replaceFrom_of_start start
                _ = root ++ placeholder.replaceFrom root 0
                      (Mode.plain.after (placeholder.mark :: rest)) after :=
                    congrArg (root ++ ·) (replaceFrom_passed root rest after)
                _ = root ++ parts.flatMap (Part.written root) := by
                    rw [Mode.after_of_ordinary occurs.spelled.ordinary, written]

end Placeholder

/-! ## Selectors -/

theorem ofSelector_of_trimmed {selector : List Char} (trimmed : Trimmed selector)
    (visible : selector ≠ []) :
    Scoping.ofSelector selector =
      if Placeholder.scope.occurs .plain selector then .substitute .scope
      else if Placeholder.nesting.occurs .plain selector then .substitute .nesting
      else .descend := by
  rw [Scoping.ofSelector, trim_of_trimmed trimmed, if_neg (by simpa using visible)]

theorem exists_divides_of_substitute {placeholder : Placeholder} {selector : List Char}
    (trimmed : Trimmed selector)
    (scoping : Scoping.ofSelector selector = .substitute placeholder) :
    ∃ parts, placeholder.Divides .plain selector parts ∧
      ∀ root, selectorUnder root selector = parts.flatMap (Part.written root) := by
  obtain ⟨parts, divides, written⟩ := placeholder.exists_divides .plain selector
  refine ⟨parts, divides, fun root => ?_⟩
  rw [selectorUnder, scoping, trim_of_trimmed trimmed]
  exact written root

/-- A selector with `:scope` gets the root for every `:scope` and for nothing else; one
without it, but with the nesting mark, gets the root for every nesting mark and for nothing
else; any other stands whole behind the root. -/
theorem selectorUnder_placeholders {selector : List Char} (trimmed : Trimmed selector)
    (visible : selector ≠ []) :
    (Placeholder.scope.Appears .plain selector →
      Scoping.ofSelector selector = .substitute .scope ∧
        ∃ parts, Placeholder.scope.Divides .plain selector parts ∧
          ∀ root, selectorUnder root selector = parts.flatMap (Part.written root)) ∧
    (¬Placeholder.scope.Appears .plain selector → Placeholder.nesting.Appears .plain selector →
      Scoping.ofSelector selector = .substitute .nesting ∧
        ∃ parts, Placeholder.nesting.Divides .plain selector parts ∧
          ∀ root, selectorUnder root selector = parts.flatMap (Part.written root)) ∧
    (¬Placeholder.scope.Appears .plain selector → ¬Placeholder.nesting.Appears .plain selector →
      Scoping.ofSelector selector = .descend ∧
        ∀ root, selectorUnder root selector = root ++ ' ' :: selector) := by
  have scoping := ofSelector_of_trimmed trimmed visible
  simp only [Placeholder.appears_iff_occurs]
  refine ⟨fun scope => ?_, fun noScope nesting => ?_, fun noScope noNesting => ?_⟩
  · rw [if_pos scope] at scoping
    exact ⟨scoping, exists_divides_of_substitute trimmed scoping⟩
  · rw [if_neg noScope, if_pos nesting] at scoping
    exact ⟨scoping, exists_divides_of_substitute trimmed scoping⟩
  · rw [if_neg noScope, if_neg noNesting] at scoping
    refine ⟨scoping, fun root => ?_⟩
    rw [selectorUnder, scoping, trim_of_trimmed trimmed]

def mixedSelector : List Char := ": SCOPE&[x=':scope'] \\:scope:scoped:scope'&'".toList

theorem selectorUnder_placeholders_mixedSelector :
    (Scoping.ofSelector mixedSelector = .substitute .scope ∧
      ∃ parts, Placeholder.scope.Divides .plain mixedSelector parts ∧
        ∀ root, selectorUnder root mixedSelector = parts.flatMap (Part.written root)) ∧
    selectorUnder ".a".toList mixedSelector =
      ".a&[x=':scope'] \\:scope:scoped.a'&'".toList := by
  have kept : trim mixedSelector = mixedSelector := by decide +kernel
  have trimmed : Trimmed mixedSelector := kept ▸ trimmed_trim mixedSelector
  have scope : Placeholder.scope.Appears .plain mixedSelector :=
    Placeholder.appears_iff_occurs.mpr (by decide +kernel)
  exact ⟨(selectorUnder_placeholders trimmed (by decide)).1 scope, by decide +kernel⟩

end ScopeLowering.Stylesheet
