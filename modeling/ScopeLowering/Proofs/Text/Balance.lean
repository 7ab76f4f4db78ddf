import ScopeLowering.Proofs.Text.Skeleton
import ScopeLowering.Text.Scan

/-!
# Balanced delimiters

What a search for a delimiter finds, said without the search. A closing delimiter is the
one that balances the opening one before it exactly when the text between them is
enclosed: it ends outside strings, and its structural delimiters balance.
-/

namespace ScopeLowering.Text

/-- Every closer has its opener before it, where `depth` openers are open at the start, and
no opener is left open at the end. -/
structure Balanced (opener closer : Char) (depth : Nat) (characters : List Char) : Prop where
  covered : ∀ first, first <+: characters → first.count closer ≤ first.count opener + depth
  level : characters.count closer = characters.count opener + depth

/-- A text that may stand between an opening delimiter and the one that closes it. -/
structure Enclosed (opener closer : Char) (text : List Char) : Prop where
  plain : Mode.plain.after text = .plain
  balanced : Balanced opener closer 0 (Mode.plain.skeleton text)

/-- A prefix of a concatenation ends in the first part or goes on in the second. -/
theorem prefix_append_cases {α : Type} {start first second : List α}
    (within : start <+: first ++ second) :
    start <+: first ∨ ∃ more, more <+: second ∧ start = first ++ more := by
  obtain ⟨rest, whole⟩ := within
  rcases List.append_eq_append_iff.mp whole with ⟨left, inFirst, -⟩ | ⟨more, longer, inSecond⟩
  · exact Or.inl ⟨left, inFirst.symm⟩
  · exact Or.inr ⟨more, ⟨rest, inSecond.symm⟩, longer⟩

/-- A start that ends before some separator is a start of the text before it. -/
theorem prefix_before_iff {α : Type} {separator : α} {start first second : List α}
    (absent : separator ∉ start) :
    start <+: first ++ separator :: second ↔ start <+: first := by
  constructor
  · intro within
    rcases prefix_append_cases within with inFirst | ⟨more, inSecond, rfl⟩
    · exact inFirst
    · cases more with
      | nil => simp
      | cons c more =>
          obtain ⟨rfl, -⟩ := List.cons_prefix_cons.mp inSecond
          exact absurd (List.mem_append_right first List.mem_cons_self) absent
  · exact fun inFirst => inFirst.trans (List.prefix_append ..)

namespace Balanced

variable {opener closer : Char} {depth : Nat} {characters : List Char}

theorem nil : Balanced opener closer 0 [] where
  covered := by
    intro first within
    simp [List.prefix_nil.mp within]
  level := rfl

/-- The first character moves the depth at which the others must balance. -/
theorem cons_iff {c : Char} :
    Balanced opener closer depth (c :: characters) ↔
      ([c].count closer ≤ [c].count opener + depth) ∧
      ∀ inner, inner + [c].count closer = depth + [c].count opener →
        Balanced opener closer inner characters := by
  have count_cons (target : Char) (rest : List Char) :
      (c :: rest).count target = [c].count target + rest.count target := by
    rw [← List.count_append, List.singleton_append]
  constructor
  · rintro ⟨covered, level⟩
    have start := covered [c] (List.prefix_append [c] characters)
    refine ⟨start, fun inner change => ⟨fun first within => ?_, ?_⟩⟩
    · have whole := covered (c :: first) (List.cons_prefix_cons.mpr ⟨rfl, within⟩)
      rw [count_cons closer, count_cons opener] at whole
      omega
    · rw [count_cons closer, count_cons opener] at level
      omega
  · rintro ⟨start, balanced⟩
    obtain ⟨covered, level⟩ :=
      balanced (depth + [c].count opener - [c].count closer) (by omega)
    refine ⟨fun first within => ?_, ?_⟩
    · rcases List.prefix_cons_iff.mp within with rfl | ⟨rest, rfl, inside⟩
      · simp
      · have inner := covered rest inside
        rw [count_cons closer, count_cons opener]
        omega
    · rw [count_cons closer, count_cons opener]
      omega

theorem cons_opener (distinct : opener ≠ closer) :
    Balanced opener closer depth (opener :: characters) ↔
      Balanced opener closer (depth + 1) characters := by
  rw [cons_iff]
  simp [distinct]

theorem cons_closer (distinct : opener ≠ closer) :
    Balanced opener closer (depth + 1) (closer :: characters) ↔
      Balanced opener closer depth characters := by
  rw [cons_iff]
  simp [distinct.symm]

theorem not_zero_closer (distinct : opener ≠ closer) :
    ¬Balanced opener closer 0 (closer :: characters) := by
  rw [cons_iff]
  simp [distinct.symm]

theorem cons_other {c : Char} (notOpener : c ≠ opener) (notCloser : c ≠ closer) :
    Balanced opener closer depth (c :: characters) ↔
      Balanced opener closer depth characters := by
  rw [cons_iff]
  simp [notOpener, notCloser]

theorem append {first second : List Char} (left : Balanced opener closer depth first)
    (right : Balanced opener closer 0 second) :
    Balanced opener closer depth (first ++ second) where
  covered := by
    intro start within
    rcases prefix_append_cases within with inFirst | ⟨more, inSecond, rfl⟩
    · exact left.covered start inFirst
    · have := left.level
      have := right.covered more inSecond
      rw [List.count_append, List.count_append]
      omega
  level := by
    have := left.level
    have := right.level
    rw [List.count_append, List.count_append]
    omega

/-- Where a list balances with a balanced list behind it, it balances alone. -/
theorem of_append {first second : List Char}
    (whole : Balanced opener closer depth (first ++ second))
    (right : Balanced opener closer 0 second) : Balanced opener closer depth first where
  covered := fun start within => whole.covered start (within.trans (List.prefix_append ..))
  level := by
    have := whole.level
    have := right.level
    rw [List.count_append, List.count_append] at *
    omega

/-- Characters that are no delimiters balance. -/
theorem of_not_mem (noOpener : opener ∉ characters) (noCloser : closer ∉ characters) :
    Balanced opener closer 0 characters where
  covered := by
    intro first within
    rw [List.count_eq_zero.mpr fun member => noCloser (within.subset member)]
    exact Nat.zero_le _
  level := by
    rw [List.count_eq_zero.mpr noCloser, List.count_eq_zero.mpr noOpener]

/-- A balanced list stays balanced in delimiters of its own. -/
theorem wrap (distinct : opener ≠ closer) (inside : Balanced opener closer 0 characters) :
    Balanced opener closer 0 (opener :: (characters ++ [closer])) := by
  rw [cons_opener distinct]
  have closed : Balanced opener closer 1 [closer] :=
    (cons_closer distinct).mpr nil
  constructor
  · intro start within
    rcases prefix_append_cases within with inside' | ⟨more, last, rfl⟩
    · have := inside.covered start inside'
      omega
    · have := inside.level
      have := closed.covered more last
      rw [List.count_append, List.count_append]
      omega
  · have := inside.level
    have := closed.level
    rw [List.count_append, List.count_append]
    omega

end Balanced

namespace Enclosed

variable {opener closer : Char} {first second : List Char}

theorem append (left : Enclosed opener closer first) (right : Enclosed opener closer second) :
    Enclosed opener closer (first ++ second) where
  plain := by rw [Mode.after_append, left.plain, right.plain]
  balanced := by
    rw [Mode.skeleton_append, left.plain]
    exact left.balanced.append right.balanced

/-- Ordinary text without delimiters is enclosed. -/
theorem of_ordinary {text : List Char} (ordinary : ∀ c ∈ text, Mode.plain.structural c = true)
    (noOpener : opener ∉ text) (noCloser : closer ∉ text) : Enclosed opener closer text where
  plain := Mode.after_of_ordinary ordinary
  balanced := by
    rw [Mode.skeleton_of_ordinary ordinary]
    exact .of_not_mem noOpener noCloser

end Enclosed

/-! ## The searches -/

theorem keep_eq_some_iff {c : Char} {found : Option (List Char × List Char)}
    {first second : List Char} :
    keep c found = some (first, second) ↔
      ∃ inner, first = c :: inner ∧ found = some (inner, second) := by
  cases found with
  | none => simp [keep]
  | some cut =>
      obtain ⟨inner, rest⟩ := cut
      simp only [keep, Option.map_some, Option.some.injEq, Prod.mk.injEq]
      constructor
      · rintro ⟨rfl, rfl⟩
        exact ⟨inner, rfl, rfl, rfl⟩
      · rintro ⟨_, rfl, rfl, rfl⟩
        exact ⟨rfl, rfl⟩

/-- The first structural occurrence of a character has no other before it. -/
theorem cutAt?_eq_some_iff {target : Char} {mode : Mode} {text before rest : List Char} :
    cutAt? target mode text = some (before, rest) ↔
      text = before ++ target :: rest ∧ target ∉ mode.skeleton before ∧
        (mode.after before).structural target = true := by
  induction text generalizing mode before with
  | nil => simp [cutAt?]
  | cons c text ih =>
      by_cases here : mode.structural c = true ∧ c = target
      · obtain ⟨structural, rfl⟩ := here
        simp only [cutAt?, structural, beq_self_eq_true, Bool.and_self, if_true,
          Option.some.injEq, Prod.mk.injEq]
        constructor
        · rintro ⟨rfl, rfl⟩
          exact ⟨rfl, List.not_mem_nil, structural⟩
        · rintro ⟨shape, absent, -⟩
          cases before with
          | nil => exact ⟨rfl, (List.cons.inj shape).2⟩
          | cons first before =>
              obtain ⟨rfl, -⟩ := List.cons.inj shape
              exact absurd (Mode.mem_skeleton_cons.mpr (Or.inl ⟨structural, rfl⟩)) absent
      · have passed : (mode.structural c && c == target) = false := by
          simpa using here
        simp only [cutAt?, passed, Bool.false_eq_true, if_false, keep_eq_some_iff]
        constructor
        · rintro ⟨inner, rfl, cut⟩
          obtain ⟨rfl, absent, structural⟩ := ih.mp cut
          refine ⟨rfl, fun member => ?_, structural⟩
          rcases Mode.mem_skeleton_cons.mp member with ⟨first, same⟩ | inside
          · exact here ⟨first, same.symm⟩
          · exact absent inside
        · rintro ⟨shape, absent, structural⟩
          cases before with
          | nil =>
              obtain ⟨rfl, -⟩ := List.cons.inj shape
              exact absurd ⟨structural, rfl⟩ here
          | cons first before =>
              obtain ⟨rfl, rfl⟩ := List.cons.inj shape
              exact ⟨before, rfl, ih.mpr ⟨rfl,
                fun member => absent (Mode.mem_skeleton_cons.mpr (Or.inr member)), structural⟩⟩

/-- The delimiter found is the first structural one at which the depth falls below zero. -/
theorem closing?_eq_some_iff {opener closer : Char} (distinct : opener ≠ closer) {depth : Nat}
    {mode : Mode} {text inside rest : List Char} :
    closing? opener closer depth mode text = some (inside, rest) ↔
      text = inside ++ closer :: rest ∧ Balanced opener closer depth (mode.skeleton inside) ∧
        (mode.after inside).structural closer = true := by
  induction text generalizing depth mode inside with
  | nil => simp [closing?]
  | cons c text ih =>
      -- Where the search goes on past `c`, it does so at the depth that `c` leaves.
      have goesOn {inner : Nat}
          (moved : ∀ tail, Balanced opener closer depth (mode.skeleton (c :: tail)) ↔
            Balanced opener closer inner ((mode.next c).skeleton tail))
          (notLast : c = closer → mode.structural c = true → depth ≠ 0) :
          keep c (closing? opener closer inner (mode.next c) text) = some (inside, rest) ↔
            c :: text = inside ++ closer :: rest ∧
              Balanced opener closer depth (mode.skeleton inside) ∧
              (mode.after inside).structural closer = true := by
        rw [keep_eq_some_iff]
        constructor
        · rintro ⟨tail, rfl, found⟩
          obtain ⟨rfl, balanced, structural⟩ := ih.mp found
          exact ⟨rfl, (moved tail).mpr balanced, structural⟩
        · rintro ⟨shape, balanced, structural⟩
          cases inside with
          | nil =>
              obtain ⟨rfl, -⟩ := List.cons.inj shape
              have level : 0 = 0 + depth := balanced.level
              exact absurd (by omega) (notLast rfl structural)
          | cons first tail =>
              obtain ⟨rfl, rfl⟩ := List.cons.inj shape
              exact ⟨tail, rfl, ih.mpr ⟨rfl, (moved tail).mp balanced, structural⟩⟩
      unfold closing?
      by_cases structural : mode.structural c = true
      · have next := Mode.next_of_structural structural
        by_cases opens : c = opener
        · subst opens
          simp only [structural, beq_self_eq_true, Bool.and_self, if_true]
          refine goesOn (fun tail => ?_) fun closes => absurd closes distinct
          rw [Mode.skeleton_of_structural structural, Balanced.cons_opener distinct, next]
        · by_cases closes : c = closer
          · subst closes
            simp only [structural, beq_self_eq_true, Bool.and_self, if_true, beq_iff_eq, opens,
              Bool.true_and, if_false]
            cases depth with
            | zero =>
                simp only [Option.some.injEq, Prod.mk.injEq]
                constructor
                · rintro ⟨rfl, rfl⟩
                  exact ⟨rfl, Balanced.nil, structural⟩
                · rintro ⟨shape, balanced, -⟩
                  cases inside with
                  | nil => exact ⟨rfl, (List.cons.inj shape).2⟩
                  | cons first tail =>
                      obtain ⟨rfl, -⟩ := List.cons.inj shape
                      rw [Mode.skeleton_of_structural structural] at balanced
                      exact absurd balanced (Balanced.not_zero_closer distinct)
            | succ depth =>
                refine goesOn (fun tail => ?_) fun _ _ => Nat.succ_ne_zero depth
                rw [Mode.skeleton_of_structural structural, Balanced.cons_closer distinct, next]
          · simp only [structural, Bool.true_and, beq_iff_eq, opens, closes, if_false]
            refine goesOn (fun tail => ?_) fun same => absurd same closes
            rw [Mode.skeleton_of_structural structural, Balanced.cons_other opens closes, next]
      · simp only [structural, Bool.false_and, Bool.false_eq_true, if_false]
        refine goesOn (fun tail => ?_) fun _ found => absurd found structural
        rw [Mode.skeleton_of_not_structural structural]

/-- A fresh search for the closing delimiter cuts an enclosed text off. -/
theorem closing?_plain_eq_some_iff {opener closer : Char} (distinct : opener ≠ closer)
    (ordinary : Mode.plain.structural closer = true) {text inside rest : List Char} :
    closing? opener closer 0 .plain text = some (inside, rest) ↔
      text = inside ++ closer :: rest ∧ Enclosed opener closer inside := by
  rw [closing?_eq_some_iff distinct]
  constructor
  · rintro ⟨shape, balanced, structural⟩
    exact ⟨shape, Mode.eq_plain_of_structural structural, balanced⟩
  · rintro ⟨shape, plain, balanced⟩
    exact ⟨shape, balanced, by rwa [plain]⟩

theorem parenthesized?_eq_some_iff {text inside rest : List Char} :
    parenthesized? text = some (inside, rest) ↔
      text = inside ++ ')' :: rest ∧ Enclosed '(' ')' inside :=
  closing?_plain_eq_some_iff (by decide) (by decide)

theorem braced?_eq_some_iff {text inside rest : List Char} :
    braced? text = some (inside, rest) ↔
      text = inside ++ '}' :: rest ∧ Enclosed '{' '}' inside :=
  closing?_plain_eq_some_iff (by decide) (by decide)

end ScopeLowering.Text
