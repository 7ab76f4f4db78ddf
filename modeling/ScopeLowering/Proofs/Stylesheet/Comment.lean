import ScopeLowering.Proofs.Text.Balance
import ScopeLowering.Stylesheet.Lowering

/-!
# Texts around comments

Removing comments keeps a text that opens none, whatever follows it, and a last character
that is part of no mark.
-/

namespace ScopeLowering.Stylesheet

open ScopeLowering.Text

theorem withoutCommentsFrom_cons {c : Char} {text : List Char}
    (unopened : ¬['/', '*'] <+: c :: text) :
    withoutCommentsFrom 0 (c :: text) = c :: withoutCommentsFrom 0 text := by
  refine withoutCommentsFrom.eq_3 c text fun rest slash star => unopened ?_
  subst slash star
  exact ⟨rest, rfl⟩

theorem withoutComments_of_unopened {text : List Char} (unopened : ¬['/', '*'] <:+: text) :
    withoutComments text = text := by
  unfold withoutComments
  induction text with
  | nil => rfl
  | cons c text ih =>
      rw [withoutCommentsFrom_cons fun opens => unopened opens.isInfix,
        ih fun inside => unopened (List.infix_cons inside)]

variable {separator : Char}

/-- A text without an opening mark is kept up to a character that is part of no mark. -/
theorem withoutComments_append (unmarked : separator ∉ ['/', '*']) {first : List Char}
    (unopened : ¬['/', '*'] <:+: first) (second : List Char) :
    withoutComments (first ++ separator :: second) =
      first ++ separator :: withoutComments second := by
  unfold withoutComments
  induction first with
  | nil =>
      refine withoutCommentsFrom_cons fun opens => ?_
      obtain ⟨rfl, -⟩ := List.cons_prefix_cons.mp opens
      exact unmarked (by simp)
  | cons c first ih =>
      have start : ¬['/', '*'] <+: c :: (first ++ separator :: second) := by
        rw [← List.cons_append, prefix_before_iff unmarked]
        exact fun opens => unopened opens.isInfix
      have later : ¬['/', '*'] <:+: first := fun inside =>
        unopened (List.infix_cons inside)
      rw [List.cons_append, withoutCommentsFrom_cons start, ih later, List.cons_append]

/-! ## A last character -/

theorem commentEnd?_le {text : List Char} {length : Nat} (ends : commentEnd? text = some length) :
    length ≤ text.length := by
  induction text using commentEnd?.induct generalizing length with
  | case1 text =>
      obtain rfl := Option.some.inj ends
      simp
  | case2 c text unclosed ih =>
      rw [commentEnd?.eq_2 c text unclosed] at ends
      obtain ⟨inner, found, rfl⟩ := Option.map_eq_some_iff.mp ends
      exact Nat.succ_le_succ (ih found)
  | case3 => cases ends

theorem commentEnd?_concat (unmarked : separator ∉ ['/', '*']) (text : List Char) :
    commentEnd? (text ++ [separator]) = commentEnd? text := by
  have slash : separator ≠ '/' := fun same => unmarked (by simp [same])
  induction text using commentEnd?.induct with
  | case1 text => rfl
  | case2 c text unclosed ih =>
      have still : ∀ rest, c = '*' → text ++ [separator] = '/' :: rest → False := by
        intro rest star whole
        cases text with
        | nil => exact slash (List.cons.inj whole).1
        | cons d text =>
            exact unclosed text star (by rw [(List.cons.inj whole).1])
      rw [List.cons_append, commentEnd?.eq_2 _ _ still, commentEnd?.eq_2 _ _ unclosed, ih]
  | case3 => rw [List.nil_append, commentEnd?.eq_2 _ _ (by simp)]; rfl

/-- A last character that is part of no mark belongs to no comment. -/
theorem withoutCommentsFrom_concat (unmarked : separator ∉ ['/', '*']) {skip : Nat}
    {text : List Char} (within : skip ≤ text.length) :
    withoutCommentsFrom skip (text ++ [separator]) =
      withoutCommentsFrom skip text ++ [separator] := by
  have alone : withoutCommentsFrom 0 [separator] = [separator] := by
    have unopened : ¬['/', '*'] <+: [separator] := by simp [List.cons_prefix_cons]
    rw [withoutCommentsFrom_cons unopened]
    rfl
  induction skip, text using withoutCommentsFrom.induct with
  | case1 skip c text ih => exact ih (Nat.le_of_succ_le_succ within)
  | case2 text length ends ih =>
      have same := commentEnd?_concat unmarked text
      rw [ends] at same
      rw [List.cons_append, List.cons_append]
      simp only [withoutCommentsFrom, same, ends]
      exact ih (commentEnd?_le ends)
  | case3 text endless =>
      have same := commentEnd?_concat unmarked text
      rw [endless] at same
      rw [List.cons_append, List.cons_append]
      simp only [withoutCommentsFrom, same, endless]
      rfl
  | case4 c text unopened ih =>
      have closed : ¬['/', '*'] <+: c :: text := by
        rintro ⟨rest, whole⟩
        obtain ⟨rfl, rfl⟩ := List.cons.inj whole
        exact unopened rest rfl rfl
      have still : ¬['/', '*'] <+: c :: (text ++ [separator]) := by
        rwa [← List.cons_append, prefix_before_iff unmarked]
      rw [List.cons_append, withoutCommentsFrom_cons still, withoutCommentsFrom_cons closed,
        ih (Nat.zero_le _), List.cons_append]
  | case5 skip =>
      obtain rfl := Nat.le_zero.mp within
      exact alone

end ScopeLowering.Stylesheet
