import ScopeLowering.Proofs.Stylesheet.Substitution

/-!
# Names that go on behind `scope`

A pseudo-class whose name is longer than `scope` is none of the placeholders. But the search for
`:scope` asks only whether a word ends behind it, and a name goes on behind a hyphen, a backslash
and every character beyond ASCII, where a word ends at the first two and at some of the others.
So a longer name is kept exactly where its next character continues a word.
-/

namespace ScopeLowering.Stylesheet

open ScopeLowering.Text

/-! ## Placeholders and trimming -/

namespace Placeholder

variable {placeholder : Placeholder} {mode : Mode} {text blanks : List Char}

theorem occurs_of_occurs_blank_append (blank : AllBlank blanks)
    (occurs : placeholder.occurs .plain (blanks ++ text) = true) :
    placeholder.occurs .plain text = true := by
  induction blanks with
  | nil => exact occurs
  | cons c blanks ih =>
      obtain ⟨here, others⟩ := List.forall_mem_cons.mp blank
      rw [List.cons_append, Placeholder.occurs, Bool.or_eq_true, Bool.and_eq_true] at occurs
      rcases occurs with ⟨-, found⟩ | later
      · obtain ⟨extent, covered⟩ := Option.isSome_iff_exists.mp found
        obtain ⟨rfl, -⟩ := exists_of_extent? covered
        exact absurd placeholder.mark_mem_marks (not_mem_marks_of_isBlank here)
      · rw [Mode.next_of_structural (ordinary_of_isBlank here)] at later
        exact ih others later

/-- A word that ends before blanks ends before them all. -/
theorem eq_append_of_append_blank (blank : AllBlank blanks) {lead word after : List Char}
    (folded : word.map fold = ['s', 'c', 'o', 'p', 'e'])
    (shape : text ++ blanks = lead ++ word ++ after) :
    ∃ after', text = lead ++ word ++ after' ∧ after = after' ++ blanks := by
  rcases List.append_eq_append_iff.mp shape with ⟨inner, inWord, rfl⟩ | longer
  · rcases List.eq_nil_or_concat inner with rfl | ⟨front, c, rfl⟩
    · exact ⟨[], by simpa using inWord.symm, rfl⟩
    · -- Else the last letter of the word would be a blank.
      exfalso
      rcases List.eq_nil_or_concat word with rfl | ⟨letters, last, rfl⟩
      · cases folded
      · simp only [List.concat_eq_append, ← List.append_assoc] at inWord
        obtain rfl : last = c := by simpa using (List.append_inj' inWord rfl).2
        have letter : fold last ∈ ['s', 'c', 'o', 'p', 'e'] := by
          rw [← folded]
          exact List.mem_map_of_mem (by simp)
        have isBlank := blank last (by simp)
        rw [isBlank_of_fold letter] at isBlank
        cases isBlank
  · exact longer

theorem afterScopeWord?_of_append_blank (blank : AllBlank blanks)
    (found : (afterScopeWord? (text ++ blanks)).isSome = true) :
    (afterScopeWord? text).isSome = true := by
  obtain ⟨after, behind⟩ := Option.isSome_iff_exists.mp found
  obtain ⟨lead, word, shape, blankLead, folded, ends⟩ := afterScopeWord?_eq_some_iff.mp behind
  obtain ⟨after', rfl, rfl⟩ := eq_append_of_append_blank blank folded shape
  have complete : endsWord after' = true := by
    cases after' with
    | nil => rfl
    | cons c after' => exact ends
  exact Option.isSome_iff_exists.mpr
    ⟨after', afterScopeWord?_eq_some_iff.mpr ⟨lead, word, rfl, blankLead, folded, complete⟩⟩

theorem extent?_of_append_blank {c : Char} (blank : AllBlank blanks)
    (found : (placeholder.extent? (c :: (text ++ blanks))).isSome = true) :
    (placeholder.extent? (c :: text)).isSome = true := by
  obtain ⟨extent, covered⟩ := Option.isSome_iff_exists.mp found
  obtain ⟨rfl, -⟩ := exists_of_extent? covered
  cases placeholder with
  | nesting => rfl
  | scope =>
      rw [mark, extent?, Option.isSome_map] at found ⊢
      exact afterScopeWord?_of_append_blank blank found

theorem occurs_of_blank (blank : AllBlank blanks) : placeholder.occurs mode blanks = false := by
  induction blanks generalizing mode with
  | nil => rfl
  | cons c blanks ih =>
      obtain ⟨here, others⟩ := List.forall_mem_cons.mp blank
      have unmarked : placeholder.extent? (c :: blanks) = none := by
        refine Option.eq_none_iff_forall_ne_some.mpr fun extent covered => ?_
        obtain ⟨rfl, -⟩ := exists_of_extent? covered
        exact absurd placeholder.mark_mem_marks (not_mem_marks_of_isBlank here)
      rw [occurs, unmarked, ih others]
      simp

theorem occurs_of_occurs_append_blank (blank : AllBlank blanks)
    (occurs : placeholder.occurs mode (text ++ blanks) = true) :
    placeholder.occurs mode text = true := by
  induction text generalizing mode with
  | nil => rwa [List.nil_append, occurs_of_blank blank] at occurs
  | cons c text ih =>
      rw [List.cons_append, Placeholder.occurs, Bool.or_eq_true, Bool.and_eq_true] at occurs
      rw [Placeholder.occurs, Bool.or_eq_true, Bool.and_eq_true]
      rcases occurs with ⟨structural, found⟩ | later
      · exact Or.inl ⟨structural, extent?_of_append_blank blank found⟩
      · exact Or.inr (ih later)

/-- Trimming takes no placeholder away, and brings none about. -/
theorem occurs_trim (placeholder : Placeholder) (text : List Char) :
    placeholder.occurs .plain (trim text) = placeholder.occurs .plain text := by
  refine Bool.eq_iff_iff.mpr ⟨occurs_of_occurs_trim, fun occurs => ?_⟩
  obtain ⟨lead, tail, blankLead, blankTail, shape⟩ := exists_trim_parts text
  rw [shape] at occurs
  exact occurs_of_occurs_blank_append blankLead (occurs_of_occurs_append_blank blankTail occurs)

end Placeholder

theorem ofSelector_eq_substitute_scope_iff {selector : List Char} :
    Scoping.ofSelector selector = .substitute .scope ↔
      Placeholder.scope.Appears .plain selector := by
  rw [Placeholder.appears_iff_occurs, ← Placeholder.occurs_trim, Scoping.ofSelector]
  simp only [List.isEmpty_iff]
  by_cases blank : trim selector = []
  · rw [if_pos blank, blank]
    exact iff_of_false (by simp) Bool.false_ne_true
  · rw [if_neg blank]
    split
    · rename_i scope
      exact iff_of_true rfl scope
    · rename_i noScope
      refine iff_of_false ?_ noScope
      split <;> simp

/-! ## Names that start with `scope` -/

/-- A structural colon, blanks, and the word `scope` in any ASCII case, with what stands before
and after them in a text. A name may go on behind the word. -/
structure ScopeName (text before found after : List Char) : Prop where
  whole : text = before ++ found ++ after
  spelled : ∃ blanks word, found = ':' :: (blanks ++ word) ∧ AllBlank blanks ∧
    word.map Char.toLower = ['s', 'c', 'o', 'p', 'e']
  structural : (Mode.plain.after before).structural ':' = true

/-- The characters that a name goes on with: letters and digits of ASCII, the hyphen, the
underscore, every character beyond ASCII, and the backslash of an escape. -/
def continuesName (c : Char) : Bool :=
  c.isAlphanum || c == '-' || c == '_' || c == '\\' || 0x80 ≤ c.toNat

theorem fold_of_toLower {c : Char} (letter : c.toLower ∈ ['s', 'c', 'o', 'p', 'e']) :
    fold c = c.toLower := by
  have long : c ≠ '\u017F' := by
    rintro rfl
    exact absurd letter (by decide)
  have kelvin : c ≠ '\u212A' := by
    rintro rfl
    exact absurd letter (by decide)
  rw [fold, if_neg long, if_neg kelvin]

namespace ScopeName

variable {text before found after : List Char}

theorem spelling (name : ScopeName text before found after) :
    Placeholder.scope.Spelling found := by
  obtain ⟨blanks, word, rfl, blank, lower⟩ := name.spelled
  refine .scope blank (lower ▸ List.map_congr_left fun c member => fold_of_toLower ?_)
  rw [← lower]
  exact List.mem_map_of_mem member

theorem after_before (name : ScopeName text before found after) :
    Mode.plain.after before = .plain :=
  Mode.eq_plain_of_structural name.structural

/-- A name that does not go on is a placeholder. -/
theorem occurrence (name : ScopeName text before found after) (ends : endsWord after = true) :
    Placeholder.scope.Occurrence .plain text before found after where
  whole := name.whole
  spelled := name.spelling
  structural := by
    rw [name.after_before]
    exact Mode.skeleton_of_ordinary name.spelling.ordinary
  complete := by
    rw [Mode.after_append, name.after_before, Mode.after_of_ordinary name.spelling.ordinary]
    exact Placeholder.completeBefore_run.mpr ends

end ScopeName

/-- What stands behind the names of a text, one by one, and also behind those that are spelled
with the long s. -/
def behindNames : Mode → List Char → List (List Char)
  | _, [] => []
  | mode, c :: text =>
      if mode.structural c ∧ c = ':' then
        (afterWord? ['s', 'c', 'o', 'p', 'e'] (trimStart text)).toList ++
          behindNames (mode.next c) text
      else behindNames (mode.next c) text

theorem mem_behindNames {mode : Mode} {before after blanks word : List Char}
    (structural : (mode.after before).structural ':' = true) (blank : AllBlank blanks)
    (folded : word.map fold = ['s', 'c', 'o', 'p', 'e']) :
    after ∈ behindNames mode (before ++ ':' :: (blanks ++ word ++ after)) := by
  induction before generalizing mode with
  | nil =>
      have found : afterWord? ['s', 'c', 'o', 'p', 'e'] (trimStart (blanks ++ word ++ after)) =
          some after :=
        Placeholder.afterWord?_trimStart_eq_some_iff.mpr ⟨blanks, word, rfl, blank, folded⟩
      rw [List.nil_append, behindNames, if_pos ⟨structural, rfl⟩, found]
      exact List.mem_cons_self
  | cons c before ih =>
      have later := ih structural
      rw [List.cons_append, behindNames]
      split
      · exact List.mem_append_right _ later
      · exact later

theorem ScopeName.mem_behindNames {text before found after : List Char}
    (name : ScopeName text before found after) : after ∈ behindNames .plain text := by
  have shape := name.whole
  cases name.spelling with
  | @scope blanks word blank folded =>
      rw [shape, List.append_assoc]
      exact Stylesheet.mem_behindNames name.structural blank folded

theorem exists_cons_of_behindNames {text : List Char}
    (tails : (behindNames .plain text).all (fun after => after.head?.any continuesName) = true) :
    ∀ before found after, ScopeName text before found after →
      ∃ c rest, after = c :: rest ∧ continuesName c = true := by
  intro before found after name
  have continues := List.all_eq_true.mp tails after name.mem_behindNames
  cases after with
  | nil => cases continues
  | cons c rest => exact ⟨c, rest, rfl, continues⟩

/-- A placeholder that is spelled without the long s is a name. -/
theorem Placeholder.Occurrence.scopeName {text before found after : List Char}
    (occurs : Placeholder.scope.Occurrence .plain text before found after)
    (short : '\u017F' ∉ text) : ScopeName text before found after := by
  have shape := occurs.whole
  have structural := occurs.structural
  cases occurs.spelled with
  | @scope blanks word blank folded =>
      refine ⟨shape, ⟨blanks, word, rfl, blank, ?_⟩, Mode.structural_of_skeleton_cons structural⟩
      rw [← folded]
      refine List.map_congr_left fun c member => ?_
      have letter : fold c ∈ ['s', 'c', 'o', 'p', 'e'] := by
        rw [← folded]
        exact List.mem_map_of_mem member
      have long : c ≠ '\u017F' := by
        rintro rfl
        exact short (by rw [shape]; simp [member])
      have kelvin : c ≠ '\u212A' := by
        rintro rfl
        exact absurd letter (by decide)
      rw [fold, if_neg long, if_neg kelvin]

/-- A placeholder is complete where a word ends. -/
theorem Placeholder.Occurrence.endsWord_after {text before found after : List Char}
    (occurs : Placeholder.scope.Occurrence .plain text before found after)
    (plain : Mode.plain.after before = .plain) : endsWord after = true := by
  have complete := occurs.complete
  rw [Mode.after_append, plain, Mode.after_of_ordinary occurs.spelled.ordinary] at complete
  exact Placeholder.completeBefore_run.mp complete

/-! ## Where a name goes on and a word ends -/

/-- What holds of the characters below a bound can be decided, as there are few of them. -/
theorem forall_ascii {holds : Char → Bool}
    (decided : ((List.range 0x80).map Char.ofNat).all holds = true) {c : Char}
    (ascii : c.toNat < 0x80) : holds c = true :=
  List.all_eq_true.mp decided c
    (List.mem_map.mpr ⟨c.toNat, List.mem_range.mpr ascii, Char.ofNat_toNat c⟩)

/-- A name goes on with a word character, but for the hyphen, the backslash, and the
characters beyond ASCII that are no word characters. -/
theorem isWord_iff_of_continuesName {c : Char} (continues : continuesName c = true) :
    isWord c = true ↔
      c ≠ '-' ∧ c ≠ '\\' ∧ (0x80 ≤ c.toNat → inRanges wideWordRanges c = true) := by
  by_cases ascii : c.toNat < 0x80
  · -- Of the characters of ASCII that a name goes on with, the hyphen and the backslash alone
    -- end a word.
    have known := @forall_ascii (fun c => !continuesName c || (isWord c == (c != '-' && c != '\\')))
      (by decide) c ascii
    simp only [continues, Bool.not_true, Bool.false_or, beq_iff_eq] at known
    have narrow : ¬0x80 ≤ c.toNat := Nat.not_le.mpr ascii
    simp [known, narrow]
  · have wide := Nat.le_of_not_lt ascii
    have hyphen : c ≠ '-' := by
      rintro rfl
      exact ascii (by decide)
    have backslash : c ≠ '\\' := by
      rintro rfl
      exact ascii (by decide)
    simp [isWord, ascii, hyphen, backslash, wide]

/-! ## Nesting marks around a name -/

namespace Placeholder

variable {root : List Char} {mode : Mode}

/-- Whether a nesting mark starts at a character does not depend on what follows. -/
theorem start?_nesting (mode : Mode) (c : Char) (text : List Char) :
    nesting.start? mode c text = if mode.structural c ∧ c = '&' then some 0 else none := by
  rw [start?]
  by_cases same : c = '&'
  · subst same
    simp [extent?]
  · have none : nesting.extent? (c :: text) = none := by
      refine Option.eq_none_iff_forall_ne_some.mpr fun extent covered => ?_
      exact same (exists_of_extent? covered).1
    simp [none, same]

/-- A nesting mark is one character, so a text is rewritten piece by piece. -/
theorem replaceFrom_nesting_append (first second : List Char) :
    nesting.replaceFrom root 0 mode (first ++ second) =
      nesting.replaceFrom root 0 mode first ++
        nesting.replaceFrom root 0 (mode.after first) second := by
  induction first generalizing mode with
  | nil => rfl
  | cons c first ih =>
      rw [List.cons_append, Mode.after_cons]
      by_cases here : mode.structural c ∧ c = '&'
      · have start (text : List Char) : nesting.start? mode c text = some 0 := by
          rw [start?_nesting, if_pos here]
        rw [replaceFrom_of_start (start _), replaceFrom_of_start (start _), ih, List.append_assoc]
      · have none (text : List Char) : nesting.start? mode c text = none := by
          rw [start?_nesting, if_neg here]
        rw [replaceFrom_of_none (none _), replaceFrom_of_none (none _), ih, List.cons_append]

theorem replaceFrom_nesting_of_not_mem {text : List Char} (absent : '&' ∉ mode.skeleton text) :
    nesting.replaceFrom root 0 mode text = text := by
  induction text generalizing mode with
  | nil => rfl
  | cons c text ih =>
      rw [Mode.mem_skeleton_cons, not_or] at absent
      have none : nesting.start? mode c text = none := by
        rw [start?_nesting, if_neg fun start => absent.1 ⟨start.1, start.2.symm⟩]
      rw [replaceFrom_of_none none, ih absent.2]

end Placeholder

theorem ScopeName.whole_tail {text before found tail rest : List Char}
    (name : ScopeName text before found (tail ++ rest)) :
    text = before ++ (found ++ tail) ++ rest := by
  rw [name.whole]
  simp

/-- A name is written as it is, as far as no nesting mark comes behind it. -/
theorem ScopeName.replace_nesting {text before found tail rest : List Char}
    (name : ScopeName text before found (tail ++ rest)) (absent : '&' ∉ Mode.plain.skeleton tail)
    (root : List Char) :
    Placeholder.nesting.replace root text =
      Placeholder.nesting.replace root before ++ (found ++ tail) ++
        Placeholder.nesting.replaceFrom root 0 (Mode.plain.after tail) rest := by
  have plain := Mode.after_of_ordinary name.spelling.ordinary
  have unmarked : '&' ∉ Mode.plain.skeleton (found ++ tail) := by
    obtain ⟨letters, rfl, others⟩ := name.spelling.exists_cons
    rw [Mode.skeleton_append, Mode.skeleton_of_ordinary name.spelling.ordinary, plain,
      List.mem_append, List.mem_cons, not_or, not_or]
    exact ⟨⟨by decide, fun member => others '&' member (by decide)⟩, absent⟩
  rw [Placeholder.replace, name.whole_tail, Placeholder.replaceFrom_nesting_append,
    Placeholder.replaceFrom_nesting_append, name.after_before,
    Placeholder.replaceFrom_nesting_of_not_mem unmarked, Mode.after_append, Mode.after_append,
    name.after_before, plain]
  rfl

theorem selectorUnder_of_ne_substitute_scope {selector : List Char}
    (visible : trim selector ≠ [])
    (kept : Scoping.ofSelector selector ≠ .substitute .scope) (root : List Char) :
    selectorUnder root selector =
      if Placeholder.nesting.occurs .plain (trim selector) then
        Placeholder.nesting.replace root (trim selector)
      else root ++ ' ' :: trim selector := by
  have noScope : Placeholder.scope.occurs .plain (trim selector) = false := by
    rw [Placeholder.occurs_trim]
    by_contra occurs
    exact kept (ofSelector_eq_substitute_scope_iff.mpr
      (Placeholder.appears_iff_occurs.mpr (Bool.not_eq_false _ ▸ occurs)))
  have scoping : Scoping.ofSelector selector =
      if Placeholder.nesting.occurs .plain (trim selector) then .substitute .nesting
      else .descend := by
    simp [Scoping.ofSelector, visible, noScope]
  rw [selectorUnder, scoping]
  cases Placeholder.nesting.occurs .plain (trim selector) <;> rfl

/-! ## Names that are kept -/

/-- Where every name that starts with `scope` goes on behind it, and no other `:scope` occurs,
the names are no placeholders exactly if none goes on where a word ends: with a hyphen, with a
backslash, or with a character beyond ASCII that is no word character. Then all of them are
kept to their ends and beyond, up to a nesting mark: with nesting marks around them written out,
or whole behind the root. -/
theorem ofSelector_ne_scope_iff_of_continued {selector : List Char}
    (continued : ∀ before found after, ScopeName selector before found after →
      ∃ c rest, after = c :: rest ∧ continuesName c = true)
    (only : ∀ before found after,
      Placeholder.scope.Occurrence .plain selector before found after →
        ScopeName selector before found after) :
    (Scoping.ofSelector selector ≠ .substitute .scope ↔
      ∀ before found after, ScopeName selector before found after → ∀ c ∈ after.head?,
        c ≠ '-' ∧ c ≠ '\\' ∧ (0x80 ≤ c.toNat → inRanges wideWordRanges c = true)) ∧
    (Scoping.ofSelector selector ≠ .substitute .scope →
      ∀ before found tail rest, ScopeName (trim selector) before found (tail ++ rest) →
        '&' ∉ Mode.plain.skeleton tail → ∀ root,
          selectorUnder root selector =
            if Placeholder.nesting.occurs .plain (trim selector) then
              Placeholder.nesting.replace root before ++ (found ++ tail) ++
                Placeholder.nesting.replaceFrom root 0 (Mode.plain.after tail) rest
            else root ++ ' ' :: (before ++ (found ++ tail) ++ rest)) := by
  constructor
  · rw [ne_eq, ofSelector_eq_substitute_scope_iff]
    constructor
    · intro kept before found after name other first
      obtain ⟨c, rest, rfl, continues⟩ := continued before found after name
      obtain rfl := Option.some.inj first
      refine (isWord_iff_of_continuesName continues).mp ?_
      by_contra separates
      have ends : endsWord (c :: rest) = true := by simpa [endsWord] using separates
      exact kept ⟨before, found, c :: rest, name.occurrence ends⟩
    · rintro kept ⟨before, found, after, occurs⟩
      have name := only before found after occurs
      obtain ⟨c, rest, rfl, continues⟩ := continued before found after name
      have word := (isWord_iff_of_continuesName continues).mpr
        (kept before found (c :: rest) name c rfl)
      have ends := occurs.endsWord_after name.after_before
      rw [endsWord, word] at ends
      cases ends
  · intro kept before found tail rest name absent root
    have visible : trim selector ≠ [] := by
      obtain ⟨letters, rfl, -⟩ := name.spelling.exists_cons
      rw [name.whole]
      simp
    rw [selectorUnder_of_ne_substitute_scope visible kept, name.replace_nesting absent,
      ← name.whole_tail]

def longNamesSelector : List Char :=
  " :scoped &: SCOPE_x[y=\":scope\"]:scope9 \\:scope &:Scope\u00E9 ".toList

theorem ofSelector_ne_scope_longNamesSelector :
    (∀ before found after, ScopeName longNamesSelector before found after →
      ∃ c rest, after = c :: rest ∧ continuesName c = true) ∧
    (∀ before found after,
      Placeholder.scope.Occurrence .plain longNamesSelector before found after →
        ScopeName longNamesSelector before found after) ∧
    Scoping.ofSelector longNamesSelector ≠ .substitute .scope ∧
    ∀ before found tail rest, ScopeName (trim longNamesSelector) before found (tail ++ rest) →
      '&' ∉ Mode.plain.skeleton tail → ∀ root,
        selectorUnder root longNamesSelector =
          Placeholder.nesting.replace root before ++ (found ++ tail) ++
            Placeholder.nesting.replaceFrom root 0 (Mode.plain.after tail) rest := by
  have continued : ∀ before found after, ScopeName longNamesSelector before found after →
      ∃ c rest, after = c :: rest ∧ continuesName c = true :=
    exists_cons_of_behindNames (by decide +kernel)
  have only : ∀ before found after,
      Placeholder.scope.Occurrence .plain longNamesSelector before found after →
        ScopeName longNamesSelector before found after :=
    fun before found after occurs => occurs.scopeName (by decide)
  obtain ⟨exactly, kept⟩ := ofSelector_ne_scope_iff_of_continued continued only
  have words : ∀ after ∈ behindNames .plain longNamesSelector, after.head?.all isWord = true :=
    List.all_eq_true.mp (by decide +kernel)
  have scoping : Scoping.ofSelector longNamesSelector ≠ .substitute .scope := by
    refine exactly.mpr fun before found after name other first => ?_
    obtain ⟨c, rest, rfl, continues⟩ := continued before found after name
    obtain rfl := Option.some.inj first
    exact (isWord_iff_of_continuesName continues).mp (words _ name.mem_behindNames)
  have nested : Placeholder.nesting.occurs .plain (trim longNamesSelector) = true := by
    decide +kernel
  refine ⟨continued, only, scoping, fun before found tail rest name absent root => ?_⟩
  rw [kept scoping before found tail rest name absent root, if_pos nested]

def hyphenSelector : List Char := ":scope-x".toList

/-- A name that goes on with a hyphen is taken for the placeholder, and is not kept. -/
theorem ofSelector_hyphenSelector :
    (∀ before found after, ScopeName hyphenSelector before found after →
      ∃ c rest, after = c :: rest ∧ continuesName c = true) ∧
    (∀ before found after,
      Placeholder.scope.Occurrence .plain hyphenSelector before found after →
        ScopeName hyphenSelector before found after) ∧
    Scoping.ofSelector hyphenSelector = .substitute .scope ∧
    selectorUnder ".r".toList hyphenSelector = ".r-x".toList := by
  exact ⟨exists_cons_of_behindNames (by decide),
    fun before found after occurs => occurs.scopeName (by decide), by decide, by decide⟩

end ScopeLowering.Stylesheet
