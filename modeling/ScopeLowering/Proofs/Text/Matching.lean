import ScopeLowering.Proofs.Text.Balance
import ScopeLowering.Proofs.Text.Slice

/-!
# Offsets of delimiters

What the searches for delimiters say of the text at the offsets they take and give. The search
for a closing delimiter gives the only one that balances, and looks at nothing before the opening
delimiter or behind the closing one.
-/

namespace ScopeLowering.Text

/-- The delimiter at `stop` closes the one at `start`: it is structural for a scan that begins
just behind the opening one, and the structural delimiters between the two balance. -/
def Closes (opener closer : Char) (text : List Char) (start stop : Nat) : Prop :=
  ∃ before inside after, text = before ++ opener :: (inside ++ closer :: after) ∧
    byteSize before = start ∧ byteSize (before ++ opener :: inside) = stop ∧
    (Mode.plain.after inside).structural closer = true ∧
    Balanced opener closer 0 (Mode.plain.skeleton inside)

/-- The search from an offset gives the first structural occurrence at or behind it. -/
theorem nextStructural?_eq_some_iff {text : List Char} {start stop : Nat} {target : Char} :
    nextStructural? text start target = some stop ↔
      ∃ before between after, text = before ++ (between ++ target :: after) ∧
        byteSize before = start ∧ byteSize (before ++ between) = stop ∧
        target ∉ Mode.plain.skeleton between ∧
        (Mode.plain.after between).structural target = true := by
  simp only [nextStructural?, Option.map_eq_some_iff, Option.bind_eq_some_iff, Prod.exists,
    fromOffset?_eq_some_iff, cutAt?_eq_some_iff]
  constructor
  · rintro ⟨between, after, ⟨_, ⟨before, rfl, rfl⟩, rfl, absent, structural⟩, rfl⟩
    exact ⟨before, between, after, rfl, rfl, byteSize_append .., absent, structural⟩
  · rintro ⟨before, between, after, rfl, rfl, rfl, absent, structural⟩
    exact ⟨between, after, ⟨_, ⟨before, rfl, rfl⟩, rfl, absent, structural⟩,
      (byteSize_append ..).symm⟩

theorem findsInside_nextStructural? (text : List Char) (target : Char) :
    FindsInside text fun start => nextStructural? text start target := by
  intro start stop found
  obtain ⟨before, between, after, rfl, -, rfl, -, -⟩ := nextStructural?_eq_some_iff.mp found
  rw [← List.append_assoc]
  exact inside_of_append (before ++ between) target after

theorem nextStructural?_byteSize (target : Char) (before rest : List Char) :
    nextStructural? (before ++ rest) (byteSize before) target =
      (cutAt? target .plain rest).map fun cut => byteSize (before ++ cut.1) := by
  have reached : fromOffset? (byteSize before) (before ++ rest) = some rest :=
    fromOffset?_eq_some_iff.mpr ⟨before, rfl, rfl⟩
  simp only [nextStructural?, reached, Option.bind_some, byteSize_append]

/-! ## The search for a closing delimiter -/

structure FindsClosing (opener closer : Char) (search : List Char → Nat → Option Nat) : Prop where
  found_iff : ∀ text start stop,
    search text start = some stop ↔ Closes opener closer text start stop
  unique : ∀ text start stop other, Closes opener closer text start stop →
    Closes opener closer text start other → stop = other
  none_iff : ∀ text start, search text start = none ↔ ∀ stop, ¬Closes opener closer text start stop
  shifted : ∀ lead text start,
    search (lead ++ text) (byteSize lead + start) = (search text start).map (byteSize lead + ·)
  extended : ∀ text more start stop, search text start = some stop →
    search (text ++ more) start = some stop
  /-- The answer rests on the text from the one delimiter through the other. -/
  confined : ∀ text start stop, search text start = some stop →
    ∃ before pair after, text = before ++ pair ++ after ∧ byteSize before = start ∧
      byteSize (before ++ pair) = stop + closer.utf8Size ∧
      ∀ before' after', search (before' ++ pair ++ after') (byteSize before') =
        some (byteSize before' + (stop - start))

/-- The search from an opening delimiter reads the text behind it. -/
theorem matchingDelimiter?_byteSize (opener closer : Char) (before rest : List Char) :
    matchingDelimiter? opener closer (before ++ opener :: rest) (byteSize before) =
      (closing? opener closer 0 .plain rest).map fun cut =>
        byteSize (before ++ opener :: cut.1) := by
  have reached : fromOffset? (byteSize before) (before ++ opener :: rest) =
      some (opener :: rest) := fromOffset?_eq_some_iff.mpr ⟨before, rfl, rfl⟩
  simp only [matchingDelimiter?, reached, if_true, byteSize_append, byteSize_cons, Nat.add_assoc]

section

variable {opener closer : Char} {text : List Char} {start stop : Nat}

theorem matchingDelimiter?_eq_some_iff (distinct : opener ≠ closer) :
    matchingDelimiter? opener closer text start = some stop ↔
      Closes opener closer text start stop := by
  constructor
  · intro found
    unfold matchingDelimiter? at found
    split at found
    · rename_i c rest reached
      obtain ⟨before, rfl, rfl⟩ := fromOffset?_eq_some_iff.mp reached
      split at found
      · rename_i opens
        subst opens
        obtain ⟨⟨inside, after⟩, closed, rfl⟩ := Option.map_eq_some_iff.mp found
        obtain ⟨rfl, balanced, structural⟩ := (closing?_eq_some_iff distinct).mp closed
        refine ⟨before, inside, after, rfl, rfl, ?_, structural, balanced⟩
        rw [byteSize_append, byteSize_cons, Nat.add_assoc]
      · cases found
    · cases found
  · rintro ⟨before, inside, after, rfl, rfl, rfl, structural, balanced⟩
    have closed : closing? opener closer 0 .plain (inside ++ closer :: after) =
        some (inside, after) := (closing?_eq_some_iff distinct).mpr ⟨rfl, balanced, structural⟩
    rw [matchingDelimiter?_byteSize, closed, Option.map_some]

theorem findsInside_matchingDelimiter? {opener closer : Char} (distinct : opener ≠ closer)
    (text : List Char) : FindsInside text (matchingDelimiter? opener closer text) := by
  intro start stop found
  obtain ⟨before, inside, after, rfl, -, rfl, -, -⟩ :=
    (matchingDelimiter?_eq_some_iff distinct).mp found
  rw [← List.cons_append, ← List.append_assoc]
  exact inside_of_append (before ++ opener :: inside) closer after

theorem matchingDelimiter?_append (opener closer : Char) (lead text : List Char) (start : Nat) :
    matchingDelimiter? opener closer (lead ++ text) (byteSize lead + start) =
      (matchingDelimiter? opener closer text start).map (byteSize lead + ·) := by
  simp only [matchingDelimiter?, fromOffset?_append]
  cases fromOffset? start text with
  | none => rfl
  | some rest =>
      cases rest with
      | nil => rfl
      | cons c rest =>
          by_cases opens : c = opener
          · simp [opens, Function.comp_def, Nat.add_assoc]
          · simp [opens]

/-- A pair of delimiters is one wherever the text between them stands. -/
theorem Closes.exists_pair (closes : Closes opener closer text start stop) :
    ∃ before pair after, text = before ++ pair ++ after ∧ byteSize before = start ∧
      byteSize (before ++ pair) = stop + closer.utf8Size ∧
      ∀ before' after', Closes opener closer (before' ++ pair ++ after') (byteSize before')
        (byteSize before' + (stop - start)) := by
  obtain ⟨before, inside, after, rfl, rfl, rfl, structural, balanced⟩ := closes
  refine ⟨before, opener :: (inside ++ [closer]), after, by simp, rfl, ?_, fun before' after' => ?_⟩
  · simp only [byteSize_append, byteSize_cons, byteSize_nil]
    omega
  · refine ⟨before', inside, after', by simp, rfl, ?_, structural, balanced⟩
    rw [byteSize_append, byteSize_append, Nat.add_sub_cancel_left]

end

theorem findsClosing_matchingDelimiter? {opener closer : Char} (distinct : opener ≠ closer) :
    FindsClosing opener closer (matchingDelimiter? opener closer) where
  found_iff _ _ _ := matchingDelimiter?_eq_some_iff distinct
  unique _ _ _ _ one two := by
    rw [← matchingDelimiter?_eq_some_iff distinct] at one two
    exact Option.some.inj (one.symm.trans two)
  none_iff _ _ := by
    simp only [Option.eq_none_iff_forall_ne_some, ne_eq, matchingDelimiter?_eq_some_iff distinct]
  shifted := matchingDelimiter?_append opener closer
  extended text more start stop found := by
    rw [matchingDelimiter?_eq_some_iff distinct] at found ⊢
    obtain ⟨before, inside, after, rfl, rfl, rfl, structural, balanced⟩ := found
    exact ⟨before, inside, after ++ more, by simp, rfl, rfl, structural, balanced⟩
  confined text start stop found := by
    rw [matchingDelimiter?_eq_some_iff distinct] at found
    obtain ⟨before, pair, after, whole, first, last, anywhere⟩ := found.exists_pair
    exact ⟨before, pair, after, whole, first, last, fun before' after' =>
      (matchingDelimiter?_eq_some_iff distinct).mpr (anywhere before' after')⟩

/-- The searches for a brace and for a parenthesis find the balancing delimiter and nothing else,
by the text from the one delimiter through the other. -/
theorem findsClosing_braces_and_parentheses :
    FindsClosing '{' '}' matchingBrace? ∧ FindsClosing '(' ')' matchingParenthesis? :=
  ⟨findsClosing_matchingDelimiter? (by decide), findsClosing_matchingDelimiter? (by decide)⟩

end ScopeLowering.Text
