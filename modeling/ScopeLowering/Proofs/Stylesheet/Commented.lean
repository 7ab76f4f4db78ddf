import ScopeLowering.Proofs.Stylesheet.Comment

/-!
# Texts and their comments

A text is in one way only a row of comments with stretches between them, and removing the comments
leaves the stretches.
-/

namespace ScopeLowering.Text

/-! ## Marks of two characters -/

section

variable {α : Type} {a b : α}

/-- The first occurrence of a mark of two different characters. -/
theorem exists_first_mark {text : List α} (inside : [a, b] <:+: text) :
    ∃ before after, text = before ++ a :: b :: after ∧ ¬[a, b] <:+: before := by
  induction text with
  | nil => exact absurd inside (by simp)
  | cons c text ih =>
      by_cases here : [a, b] <+: c :: text
      · obtain ⟨after, same⟩ := here
        exact ⟨[], after, same.symm, by simp⟩
      · obtain ⟨before, after, rfl, earlier⟩ :=
          ih ((List.infix_cons_iff.mp inside).resolve_left here)
        refine ⟨c :: before, after, rfl, ?_⟩
        intro within
        rcases List.infix_cons_iff.mp within with start | within
        · exact here (start.trans (List.prefix_append (c :: before) _))
        · exact earlier within

/-- No mark of two different characters begins before another one and ends in it. -/
theorem prefix_append_mark (distinct : a ≠ b) {before after : List α}
    (start : [a, b] <+: before ++ a :: b :: after) : before = [] ∨ [a, b] <+: before := by
  rcases before with _ | ⟨c, _ | ⟨d, before⟩⟩
  · exact .inl rfl
  · simp only [List.cons_append, List.nil_append, List.cons_prefix_cons] at start
    exact absurd start.2.1.symm distinct
  · simp only [List.cons_append, List.cons_prefix_cons] at start
    obtain ⟨rfl, rfl, -⟩ := start
    exact .inr (List.prefix_append [a, b] before)

/-- What follows a mark follows the first one, too. -/
theorem suffix_of_first_mark (distinct : a ≠ b) {before after other rest : List α}
    (first : ¬[a, b] <:+: before) (same : before ++ a :: b :: after = other ++ a :: b :: rest) :
    rest <:+ after := by
  rcases List.append_eq_append_iff.mp same with ⟨between, rfl, tails⟩ | ⟨between, rfl, tails⟩
  · rcases between with _ | ⟨c, _ | ⟨d, between⟩⟩
    · obtain rfl : after = rest := by simpa using tails
      exact List.suffix_refl after
    · exact absurd (List.cons.inj (List.cons.inj tails).2).1.symm distinct
    · obtain ⟨-, tails⟩ := List.cons.inj (List.cons.inj tails).2
      exact ⟨between ++ [a, b], by simp [tails]⟩
  · rcases prefix_append_mark distinct ⟨rest, tails⟩ with rfl | within
    · obtain rfl : rest = after := by simpa using tails
      exact List.suffix_refl rest
    · exact absurd (within.isInfix.trans (List.suffix_append other between).isInfix) first

theorem first_mark_unique (distinct : a ≠ b) {before after other rest : List α}
    (first : ¬[a, b] <:+: before) (second : ¬[a, b] <:+: other)
    (same : before ++ a :: b :: after = other ++ a :: b :: rest) :
    before = other ∧ after = rest := by
  have one := suffix_of_first_mark distinct first same
  have two := suffix_of_first_mark distinct second same.symm
  obtain rfl := two.eq_of_length_le one.length_le
  exact ⟨List.append_cancel_right same, rfl⟩

end

end ScopeLowering.Text

namespace ScopeLowering.Stylesheet

open ScopeLowering.Text

/-! ## One comment -/

theorem commentEnd?_eq_none_iff {text : List Char} :
    commentEnd? text = none ↔ ¬['*', '/'] <:+: text := by
  induction text using commentEnd?.induct with
  | case1 text =>
      exact iff_of_false (Option.some_ne_none 2) fun outside =>
        outside (List.prefix_append ['*', '/'] text).isInfix
  | case2 c text unclosed ih =>
      have start : ¬['*', '/'] <+: c :: text := by
        rintro ⟨rest, whole⟩
        obtain ⟨rfl, rfl⟩ := List.cons.inj whole
        exact unclosed rest rfl rfl
      rw [commentEnd?.eq_2 c text unclosed, Option.map_eq_none_iff, ih, List.infix_cons_iff,
        or_iff_right start]
  | case3 => simp [commentEnd?]

/-- A comment ends with the first closing mark. -/
theorem commentEnd?_append {comment : List Char} (unclosed : ¬['*', '/'] <:+: comment)
    (after : List Char) :
    commentEnd? (comment ++ '*' :: '/' :: after) = some (comment.length + 2) := by
  induction comment with
  | nil => rfl
  | cons c comment ih =>
      have later : ∀ rest, c = '*' → comment ++ '*' :: '/' :: after = '/' :: rest → False := by
        rintro rest rfl tail
        have start : ['*', '/'] <+: ('*' :: comment) ++ '*' :: '/' :: after :=
          ⟨rest, congrArg ('*' :: ·) tail.symm⟩
        rcases prefix_append_mark (by decide) start with nothing | within
        · cases nothing
        · exact unclosed within.isInfix
      rw [List.cons_append, commentEnd?.eq_2 c _ later,
        ih fun inside => unclosed (List.infix_cons inside)]
      rfl

theorem withoutCommentsFrom_append (skipped text : List Char) :
    withoutCommentsFrom skipped.length (skipped ++ text) = withoutComments text := by
  induction skipped with
  | nil => rfl
  | cons c skipped ih => exact ih

/-- What stands before the first opening mark is kept. -/
theorem withoutComments_unopened {before : List Char} (unopened : ¬['/', '*'] <:+: before)
    (after : List Char) :
    withoutComments (before ++ '/' :: '*' :: after) =
      before ++ withoutComments ('/' :: '*' :: after) := by
  induction before with
  | nil => rfl
  | cons c before ih =>
      have start : ¬['/', '*'] <+: c :: (before ++ '/' :: '*' :: after) := by
        intro start
        have inside : ['/', '*'] <+: (c :: before) ++ '/' :: '*' :: after := start
        rcases prefix_append_mark (by decide) inside with nothing | within
        · cases nothing
        · exact unopened within.isInfix
      have later := ih fun inside => unopened (List.infix_cons inside)
      rw [withoutComments, List.cons_append, withoutCommentsFrom_cons start]
      exact congrArg (c :: ·) later

/-- The first comment is removed whatever its text is, opening marks included. -/
theorem withoutComments_comment {before comment : List Char}
    (unopened : ¬['/', '*'] <:+: before) (unclosed : ¬['*', '/'] <:+: comment)
    (after : List Char) :
    withoutComments (before ++ '/' :: '*' :: (comment ++ '*' :: '/' :: after)) =
      before ++ withoutComments after := by
  have skipped : comment.length + 2 = (comment ++ ['*', '/']).length := by simp
  have parts : comment ++ '*' :: '/' :: after = (comment ++ ['*', '/']) ++ after := by simp
  rw [withoutComments_unopened unopened, withoutComments, withoutCommentsFrom,
    commentEnd?_append unclosed]
  dsimp only
  rw [skipped, parts, withoutCommentsFrom_append]

/-- An opening mark that nothing closes is kept with all that follows it. -/
theorem withoutComments_endless {before after : List Char}
    (unopened : ¬['/', '*'] <:+: before) (unclosed : ¬['*', '/'] <:+: after) :
    withoutComments (before ++ '/' :: '*' :: after) = before ++ '/' :: '*' :: after := by
  rw [withoutComments_unopened unopened, withoutComments, withoutCommentsFrom,
    commentEnd?_eq_none_iff.mpr unclosed]

/-! ## All comments -/

/-- A text taken apart: its comments, each with the stretch before it, and the last stretch. -/
structure Commented where
  comments : List (List Char × List Char)
  last : List Char

namespace Commented

def spell (entry : List Char × List Char) : List Char :=
  entry.1 ++ '/' :: '*' :: (entry.2 ++ ['*', '/'])

def text (parts : Commented) : List Char := parts.comments.flatMap spell ++ parts.last

def stretches (parts : Commented) : List Char := parts.comments.flatMap Prod.fst ++ parts.last

/-- No comment holds a closing mark and no stretch before a comment an opening one; the last
stretch closes none of the marks it opens. -/
structure Exact (parts : Commented) : Prop where
  unopened : ∀ entry ∈ parts.comments, ¬['/', '*'] <:+: entry.1
  unclosed : ∀ entry ∈ parts.comments, ¬['*', '/'] <:+: entry.2
  endless : ∀ before after, parts.last = before ++ '/' :: '*' :: after → ¬['*', '/'] <:+: after

theorem text_cons (entry : List Char × List Char) (comments : List (List Char × List Char))
    (last : List Char) : text ⟨entry :: comments, last⟩ =
      entry.1 ++ '/' :: '*' :: (entry.2 ++ '*' :: '/' :: text ⟨comments, last⟩) := by
  simp [text, spell]

theorem exact_cons_iff {entry : List Char × List Char}
    {comments : List (List Char × List Char)} {last : List Char} :
    Exact ⟨entry :: comments, last⟩ ↔
      (¬['/', '*'] <:+: entry.1 ∧ ¬['*', '/'] <:+: entry.2) ∧ Exact ⟨comments, last⟩ := by
  constructor
  · intro exact
    obtain ⟨unopened, opened⟩ := List.forall_mem_cons.mp exact.unopened
    obtain ⟨unclosed, closed⟩ := List.forall_mem_cons.mp exact.unclosed
    exact ⟨⟨unopened, unclosed⟩, opened, closed, exact.endless⟩
  · rintro ⟨⟨unopened, unclosed⟩, rest⟩
    exact ⟨List.forall_mem_cons.mpr ⟨unopened, rest.unopened⟩,
      List.forall_mem_cons.mpr ⟨unclosed, rest.unclosed⟩, rest.endless⟩

/-- A text without a closed mark is its last stretch. -/
theorem exact_nil {last : List Char}
    (endless : ∀ before after, last = before ++ '/' :: '*' :: after → ¬['*', '/'] <:+: after) :
    Exact ⟨[], last⟩ :=
  ⟨by simp, by simp, endless⟩

theorem exists_exact (text : List Char) : ∃ parts : Commented, parts.Exact ∧ parts.text = text := by
  induction length : text.length using Nat.strongRecOn generalizing text with
  | _ size ih =>
      by_cases opened : ['/', '*'] <:+: text
      · obtain ⟨before, rest, rfl, unopened⟩ := exists_first_mark opened
        by_cases closed : ['*', '/'] <:+: rest
        · obtain ⟨comment, after, rfl, unclosed⟩ := exists_first_mark closed
          have shorter : after.length < size := by
            simp only [← length, List.length_append, List.length_cons]
            omega
          obtain ⟨⟨comments, last⟩, exact, rfl⟩ := ih after.length shorter after rfl
          exact ⟨⟨(before, comment) :: comments, last⟩,
            exact_cons_iff.mpr ⟨⟨unopened, unclosed⟩, exact⟩, text_cons _ _ _⟩
        · refine ⟨⟨[], before ++ '/' :: '*' :: rest⟩, exact_nil ?_, rfl⟩
          intro other after same inside
          exact closed (inside.trans (suffix_of_first_mark (by decide) unopened same).isInfix)
      · refine ⟨⟨[], text⟩, exact_nil ?_, rfl⟩
        rintro before after rfl
        exact absurd ⟨before, after, by simp⟩ opened

/-- Two ways to take a text apart are one. -/
theorem eq_of_text {first second : Commented} (left : first.Exact) (right : second.Exact)
    (same : first.text = second.text) : first = second := by
  obtain ⟨comments, last⟩ := first
  obtain ⟨others, rest⟩ := second
  have closed {comment after : List Char} : ['*', '/'] <:+: comment ++ '*' :: '/' :: after :=
    ⟨comment, after, by simp⟩
  induction comments generalizing others with
  | nil =>
      cases others with
      | nil => exact congrArg _ same
      | cons entry others =>
          rw [text_cons] at same
          exact absurd closed (left.endless _ _ same)
  | cons entry comments ih =>
      cases others with
      | nil =>
          rw [text_cons] at same
          exact absurd closed (right.endless _ _ same.symm)
      | cons other others =>
          obtain ⟨⟨unopened, unclosed⟩, left⟩ := exact_cons_iff.mp left
          obtain ⟨⟨opened, ended⟩, right⟩ := exact_cons_iff.mp right
          rw [text_cons, text_cons] at same
          obtain ⟨stretch, same⟩ := first_mark_unique (by decide) unopened opened same
          obtain ⟨comment, same⟩ := first_mark_unique (by decide) unclosed ended same
          obtain ⟨rfl, rfl⟩ := Commented.mk.inj (ih left others right same)
          rw [Prod.ext stretch comment]

theorem withoutComments_text {parts : Commented} (exact : parts.Exact) :
    withoutComments parts.text = parts.stretches := by
  obtain ⟨comments, last⟩ := parts
  induction comments with
  | nil =>
      change withoutComments last = last
      by_cases opened : ['/', '*'] <:+: last
      · obtain ⟨before, after, rfl, unopened⟩ := exists_first_mark opened
        exact withoutComments_endless unopened (exact.endless before after rfl)
      · exact withoutComments_of_unopened opened
  | cons entry comments ih =>
      obtain ⟨⟨unopened, unclosed⟩, exact⟩ := exact_cons_iff.mp exact
      rw [text_cons, withoutComments_comment unopened unclosed, ih exact]
      simp [stretches]

end Commented

/-- A text is in one way only a row of comments with stretches between them, and what is left
without the comments are the stretches. So opening marks inside a comment open no other one, and
an opening mark that nothing closes is kept with all that follows it. -/
theorem exists_commented (text : List Char) :
    (∃ parts : Commented, withoutComments text = parts.stretches ∧
      ∀ other : Commented, other.Exact ∧ other.text = text ↔ other = parts) ∧
    (∀ before comment after, ¬['/', '*'] <:+: before → ¬['*', '/'] <:+: comment →
      withoutComments (before ++ '/' :: '*' :: (comment ++ '*' :: '/' :: after)) =
        before ++ withoutComments after) ∧
    ∀ before after, ¬['/', '*'] <:+: before → ¬['*', '/'] <:+: after →
      withoutComments (before ++ '/' :: '*' :: after) = before ++ '/' :: '*' :: after := by
  refine ⟨?_, fun before comment after unopened unclosed =>
    withoutComments_comment unopened unclosed after,
    fun before after unopened unclosed => withoutComments_endless unopened unclosed⟩
  obtain ⟨parts, exact, rfl⟩ := Commented.exists_exact text
  refine ⟨parts, Commented.withoutComments_text exact, ?_⟩
  intro other
  constructor
  · rintro ⟨also, same⟩
    exact Commented.eq_of_text also exact same
  · rintro rfl
    exact ⟨exact, rfl⟩

example : withoutComments "/*/ a /* b */ c */ /* d".toList = " c */ /* d".toList := by decide

end ScopeLowering.Stylesheet
