import Mathlib.Data.List.Infix
import ScopeLowering.Text.Scan

/-!
# Scans by offsets

A byte offset that a text has is the size of what stands before it, so texts that are cut at
offsets are concatenations, and offsets in a rest are offsets in the whole text moved by the size
of what comes first.

A scan that works by byte offsets may miss: it may cut a text inside a character or outside the
text, take the greater of two offsets from the smaller one, or count beyond 32 bits. Such a scan
is written here as a computation that fails where it misses. A loop of it is a sequence of rounds,
each of which says where the next one resumes; where every round moves on, there is such a
sequence, and it ends.
-/

namespace ScopeLowering.Text

/-! ## Offsets and concatenation -/

theorem byteSize_eq_zero_iff {text : List Char} : byteSize text = 0 ↔ text = [] := by
  cases text with
  | nil => simp
  | cons c text =>
      have := c.utf8Size_pos
      simp only [byteSize_cons, reduceCtorEq, iff_false]
      omega

theorem byteSize_concat (before : List Char) (c : Char) :
    byteSize (before ++ [c]) = byteSize before + c.utf8Size := by
  rw [byteSize_append, byteSize_cons, byteSize_nil, Nat.add_zero]

theorem fromOffset?_append (lead rest : List Char) (offset : Nat) :
    fromOffset? (byteSize lead + offset) (lead ++ rest) = fromOffset? offset rest := by
  induction lead with
  | nil => rw [byteSize_nil, Nat.zero_add, List.nil_append]
  | cons c lead ih =>
      have := c.utf8Size_pos
      obtain ⟨size, whole⟩ : ∃ size, byteSize (c :: lead) + offset = size + 1 :=
        ⟨byteSize (c :: lead) + offset - 1, by rw [byteSize_cons]; omega⟩
      rw [whole, List.cons_append, fromOffset?]
      rw [byteSize_cons] at whole
      rw [if_pos (by omega), ← ih]
      congr 1
      omega

/-- An offset that a text has is the size of what stands before the rest. -/
theorem fromOffset?_eq_some_iff {offset : Nat} {text rest : List Char} :
    fromOffset? offset text = some rest ↔
      ∃ before, text = before ++ rest ∧ byteSize before = offset := by
  constructor
  · intro found
    fun_induction fromOffset? offset text with
    | case1 text =>
        obtain rfl := Option.some.inj found
        exact ⟨[], rfl, rfl⟩
    | case2 => cases found
    | case3 offset c text fits ih =>
        obtain ⟨before, rfl, size⟩ := ih found
        exact ⟨c :: before, rfl, by rw [byteSize_cons]; omega⟩
    | case4 => cases found
  · rintro ⟨before, rfl, rfl⟩
    have rest_zero : fromOffset? 0 rest = some rest := by rw [fromOffset?]
    rw [← rest_zero, ← fromOffset?_append before rest 0, Nat.add_zero]

/-- A cut that is not before the end of the first part leaves that part whole. -/
theorem exists_of_append_eq_append {lead rest before tail : List Char}
    (same : lead ++ rest = before ++ tail) (beyond : byteSize lead ≤ byteSize before) :
    ∃ more, before = lead ++ more ∧ rest = more ++ tail := by
  rcases List.append_eq_append_iff.mp same with ⟨more, longer, shape⟩ | ⟨more, longer, shape⟩
  · exact ⟨more, longer, shape⟩
  · rw [longer, byteSize_append] at beyond
    obtain rfl : more = [] := byteSize_eq_zero_iff.mp (by omega)
    exact ⟨[], by simpa using longer.symm, by simpa using shape.symm⟩

/-! ## Computations that may miss -/

inductive Miss where
  | slice (start stop : Nat)
  | difference (larger smaller : Nat)
  | counter (value : Int)
deriving DecidableEq, Repr

abbrev Checked := Except Miss

@[simp]
theorem checked_ok_bind {α β : Type} (value : α) (next : α → Checked β) :
    (Except.ok value >>= next) = next value := rfl

@[simp]
theorem checked_pure {α : Type} (value : α) : (pure value : Checked α) = .ok value := rfl

/-! ## Slices -/

def upToOffset? (offset : Nat) (text : List Char) : Option (List Char) :=
  (fromOffset? offset text).map fun rest => text.take (text.length - rest.length)

def slice (text : List Char) (start stop : Nat) : Checked (List Char) :=
  match (fromOffset? start text).bind (upToOffset? (stop - start)) with
  | some part => if start ≤ stop then .ok part else .error (.slice start stop)
  | none => .error (.slice start stop)

def sliceFrom (text : List Char) (start : Nat) : Checked (List Char) :=
  slice text start (byteSize text)

def difference (larger smaller : Nat) : Checked Nat :=
  if smaller ≤ larger then .ok (larger - smaller) else .error (.difference larger smaller)

/-- A value of a counter of 32 bits with a sign: one from -2 ^ 31 to 2 ^ 31 - 1. -/
def counted (value : Int) : Checked Int :=
  if -0x80000000 ≤ value ∧ value < 0x80000000 then .ok value else .error (.counter value)

theorem upToOffset?_eq_some_iff {offset : Nat} {text part : List Char} :
    upToOffset? offset text = some part ↔
      ∃ after, text = part ++ after ∧ byteSize part = offset := by
  simp only [upToOffset?, Option.map_eq_some_iff, fromOffset?_eq_some_iff]
  constructor
  · rintro ⟨after, ⟨before, rfl, rfl⟩, rfl⟩
    rw [List.length_append, Nat.add_sub_cancel, List.take_left]
    exact ⟨after, rfl, rfl⟩
  · rintro ⟨after, rfl, rfl⟩
    refine ⟨after, ⟨part, rfl, rfl⟩, ?_⟩
    rw [List.length_append, Nat.add_sub_cancel, List.take_left]

/-- A slice is what stands between its offsets, and nothing else can be sliced. -/
theorem slice_eq_ok_iff {text part : List Char} {start stop : Nat} :
    slice text start stop = .ok part ↔ ∃ before after, text = before ++ (part ++ after) ∧
      byteSize before = start ∧ byteSize (before ++ part) = stop := by
  constructor
  · intro sliced
    unfold slice at sliced
    split at sliced
    · rename_i cut found
      split at sliced
      · rename_i ordered
        obtain rfl := Except.ok.inj sliced
        obtain ⟨rest, reached, ends⟩ := Option.bind_eq_some_iff.mp found
        obtain ⟨before, rfl, rfl⟩ := fromOffset?_eq_some_iff.mp reached
        obtain ⟨after, rfl, size⟩ := upToOffset?_eq_some_iff.mp ends
        refine ⟨before, after, rfl, rfl, ?_⟩
        rw [byteSize_append, size, Nat.add_sub_cancel' ordered]
      · cases sliced
    · cases sliced
  · rintro ⟨before, after, rfl, rfl, rfl⟩
    have reached : fromOffset? (byteSize before) (before ++ (part ++ after)) =
        some (part ++ after) :=
      fromOffset?_eq_some_iff.mpr ⟨before, rfl, rfl⟩
    have ends : upToOffset? (byteSize (before ++ part) - byteSize before) (part ++ after) =
        some part := by
      rw [byteSize_append, Nat.add_sub_cancel_left]
      exact upToOffset?_eq_some_iff.mpr ⟨after, rfl, rfl⟩
    have found := Option.bind_eq_some_iff.mpr ⟨_, reached, ends⟩
    have ordered : byteSize before ≤ byteSize (before ++ part) := by
      rw [byteSize_append]
      exact Nat.le_add_right ..
    rw [slice, found]
    exact if_pos ordered

/-- An offset inside a character cuts nothing. -/
example : slice ['\u00E9', 'a'] 1 3 = .error (.slice 1 3) := rfl

theorem slice_append (before part after : List Char) :
    slice (before ++ (part ++ after)) (byteSize before) (byteSize (before ++ part)) = .ok part :=
  slice_eq_ok_iff.mpr ⟨before, after, rfl, rfl, rfl⟩

theorem sliceFrom_append (before rest : List Char) :
    sliceFrom (before ++ rest) (byteSize before) = .ok rest := by
  have whole := slice_append before rest []
  rwa [List.append_nil] at whole

theorem difference_append (before after : List Char) :
    difference (byteSize (before ++ after)) (byteSize after) = .ok (byteSize before) := by
  rw [byteSize_append, difference, if_pos (Nat.le_add_left ..), Nat.add_sub_cancel]

/-- A counter that moves by one for a character at most stays in range over a short text. -/
theorem counted_eq_ok {value : Int} (room : value.natAbs < 0x80000000) :
    counted value = .ok value :=
  if_pos ⟨by omega, by omega⟩

/-! Offsets next to a delimiter of one byte. -/

section

variable {c : Char} (narrow : c.utf8Size = 1) (before part rest : List Char)

include narrow

theorem sliceFrom_behind : sliceFrom (before ++ c :: rest) (byteSize before + 1) = .ok rest := by
  have sliced := sliceFrom_append (before ++ [c]) rest
  rwa [byteSize_append, byteSize_cons, byteSize_nil, narrow, List.append_assoc] at sliced

theorem slice_behind :
    slice (before ++ c :: (part ++ rest)) (byteSize before + 1) (byteSize (before ++ c :: part)) =
      .ok part := by
  have sliced := slice_append (before ++ [c]) part rest
  rwa [byteSize_append before [c], byteSize_cons, byteSize_nil, narrow, List.append_assoc,
    List.append_assoc] at sliced

theorem byteSize_behind : byteSize (before ++ c :: part) = byteSize before + 1 + byteSize part := by
  rw [byteSize_append, byteSize_cons, narrow, Nat.add_assoc]

end

/-! ## Boundaries -/

def IsBoundary (text : List Char) (offset : Nat) : Prop :=
  ∃ before after, text = before ++ after ∧ byteSize before = offset

theorem IsBoundary.le {text : List Char} {offset : Nat} (boundary : IsBoundary text offset) :
    offset ≤ byteSize text := by
  obtain ⟨before, after, rfl, rfl⟩ := boundary
  rw [byteSize_append]
  exact Nat.le_add_right ..

/-- A search that gives boundaries inside the text only, whatever offset it starts from. -/
def FindsInside (text : List Char) (search : Nat → Option Nat) : Prop :=
  ∀ start stop, search start = some stop → IsBoundary text stop ∧ stop < byteSize text

theorem inside_of_append (before : List Char) (c : Char) (after : List Char) :
    IsBoundary (before ++ c :: after) (byteSize before) ∧
      byteSize before < byteSize (before ++ c :: after) := by
  refine ⟨⟨before, c :: after, rfl, rfl⟩, ?_⟩
  have := c.utf8Size_pos
  rw [byteSize_append, byteSize_cons]
  omega

/-! ## Loops -/

inductive Round (α : Type) where
  | final
  | resume (position : Nat) (found : Option α)
deriving DecidableEq, Repr

inductive Rounds {α : Type} (round : Nat → Checked (Round α)) : Nat → List α → List Nat → Prop where
  | final {position : Nat} (ends : round position = .ok .final) : Rounds round position [] []
  | resume {position next : Nat} {found : Option α} {items : List α} {positions : List Nat}
      (goesOn : round position = .ok (.resume next found))
      (later : Rounds round next items positions) :
      Rounds round position (found.toList ++ items) (next :: positions)

/-- A loop over a text that never misses and ends: its rounds from the start of the text find the
items, and each of them resumes further on, at a boundary of the text. -/
def RunsThrough {α : Type} (text : List Char) (round : Nat → Checked (Round α)) (items : List α) :
    Prop :=
  ∃ positions, Rounds round 0 items positions ∧ (0 :: positions).Pairwise (· < ·) ∧
    ∀ position ∈ positions, IsBoundary text position ∧ position ≤ byteSize text

/-- A loop runs through where every round ends it or moves on: the items of the rest before the
round are what the round finds and then the items of the rest behind it. -/
theorem runsThrough_of_advances {α : Type} {text : List Char} {round : Nat → Checked (Round α)}
    {items : List Char → List α}
    (advances : ∀ before rest, text = before ++ rest →
      (round (byteSize before) = .ok .final ∧ items rest = []) ∨
      ∃ passed later found, rest = passed ++ later ∧ passed ≠ [] ∧
        round (byteSize before) = .ok (.resume (byteSize (before ++ passed)) found) ∧
        items rest = found.toList ++ items later) :
    RunsThrough text round (items text) := by
  suffices onwards : ∀ before rest, text = before ++ rest →
      ∃ positions, Rounds round (byteSize before) (items rest) positions ∧
        (byteSize before :: positions).Pairwise (· < ·) ∧
        ∀ position ∈ positions, IsBoundary text position ∧ position ≤ byteSize text from
    onwards [] text rfl
  intro before rest whole
  -- A round may pass over many characters, so the induction is on the length of the rest.
  induction size : rest.length using Nat.strong_induction_on generalizing before rest with
  | _ size ih =>
      subst size
      rcases advances before rest whole with ⟨ends, none⟩ |
        ⟨passed, later, found, rfl, moved, goesOn, split⟩
      · rw [none]
        exact ⟨[], .final ends, List.pairwise_singleton .., by simp⟩
      · have shorter : later.length < (passed ++ later).length := by
          have := List.length_pos_of_ne_nil moved
          rw [List.length_append]
          omega
        have further : byteSize before < byteSize (before ++ passed) := by
          have : byteSize passed ≠ 0 := fun zero => moved (byteSize_eq_zero_iff.mp zero)
          rw [byteSize_append]
          omega
        rw [← List.append_assoc] at whole
        obtain ⟨positions, rounds, ordered, bounded⟩ := ih _ shorter _ later whole rfl
        have here : IsBoundary text (byteSize (before ++ passed)) := ⟨_, later, whole, rfl⟩
        rw [split]
        refine ⟨_, .resume goesOn rounds, ?_, List.forall_mem_cons.mpr ⟨⟨here, here.le⟩, bounded⟩⟩
        refine List.pairwise_cons.mpr ⟨fun position member => ?_, ordered⟩
        rcases List.mem_cons.mp member with rfl | behind
        · exact further
        · exact further.trans (List.rel_of_pairwise_cons ordered behind)

end ScopeLowering.Text
