import ScopeLowering.Proofs.Stylesheet.CommaCuts
import ScopeLowering.Proofs.Stylesheet.Header
import ScopeLowering.Proofs.Text.Slice

/-!
# Scans that count brackets

The statements before a header and the selectors of a list, found in one pass that counts brackets
in 32 bits and cuts the text by offsets. A counter moves by one for a character at most, so over a
text of less than 2 ^ 31 bytes it stays in range, and the pass gives what the recursive readings
give.
-/

namespace ScopeLowering.Stylesheet

open ScopeLowering.Text

/-- The counter may still move by one for each byte of a text. -/
def HasRoom (counter : Int) (text : List Char) : Prop := counter.natAbs + byteSize text < 0x80000000

theorem hasRoom_zero {text : List Char} (short : byteSize text < 0x80000000) : HasRoom 0 text := by
  rwa [HasRoom, Int.natAbs_zero, Nat.zero_add]

/-- A character that moves the counter by one at most leaves room for the rest. -/
theorem HasRoom.move {counter moved : Int} {c : Char} {text : List Char}
    (room : HasRoom counter (c :: text)) (near : (moved - counter).natAbs ≤ 1) :
    HasRoom moved text := by
  have := c.utf8Size_pos
  unfold HasRoom at *
  rw [byteSize_cons] at room
  omega

theorem HasRoom.counted {counter : Int} {text : List Char} (room : HasRoom counter text) :
    counted counter = .ok counter :=
  counted_eq_ok (Nat.lt_of_le_of_lt (Nat.le_add_right ..) room)

/-! ## Statements -/

theorem natAbs_bracketDepth_sub_le (depth : Int) (c : Char) :
    (bracketDepth depth c - depth).natAbs ≤ 1 := by
  unfold bracketDepth
  split
  · omega
  · split <;> omega

structure StatementPass where
  mode : Mode
  depth : Int
  position : Nat
  start : Nat

def StatementPass.step (pass : StatementPass) (c : Char) : Checked StatementPass := do
  let mode := pass.mode.next c
  let position := pass.position + c.utf8Size
  if pass.mode.structural c then
    let depth ← counted (bracketDepth pass.depth c)
    return ⟨mode, depth, position,
      if c = ';' ∧ pass.depth ≤ 0 then pass.position + 1 else pass.start⟩
  else return ⟨mode, pass.depth, position, pass.start⟩

def cutStatements (text : List Char) : Checked (List Char) := do
  let pass ← text.foldlM StatementPass.step ⟨.plain, 0, 0, 0⟩
  sliceFrom text pass.start

/-- The pass ends with the offset of what the recursive reading keeps. -/
theorem foldlM_statementPass {depth : Int} {text : List Char} (room : HasRoom depth text)
    (mode : Mode) (position start : Nat) :
    text.foldlM StatementPass.step ⟨mode, depth, position, start⟩ =
      .ok ⟨mode.after text, depthAfter depth (mode.skeleton text), position + byteSize text,
        (afterStatements? depth mode text).elim start fun rest =>
          position + byteSize text - byteSize rest⟩ := by
  induction text generalizing mode depth position start with
  | nil => rfl
  | cons c text ih =>
      rw [List.foldlM_cons, StatementPass.step]
      by_cases structural : mode.structural c = true
      · have moved : HasRoom (bracketDepth depth c) text :=
          room.move (natAbs_bracketDepth_sub_le depth c)
        have next := Mode.next_of_structural structural
        simp only [structural, if_true, moved.counted, checked_ok_bind, checked_pure, ih moved]
        rw [Mode.skeleton_of_structural structural, depthAfter_cons, Mode.after_cons, byteSize_cons,
          afterStatements?, if_pos structural, next, Nat.add_assoc]
        cases afterStatements? (bracketDepth depth c) .plain text with
        | some rest => rfl
        | none =>
            by_cases ends : c = ';' ∧ depth ≤ 0
            · obtain ⟨rfl, -⟩ := id ends
              have size : position + (';'.utf8Size + byteSize text) - byteSize text =
                  position + 1 := by
                rw [← Nat.add_assoc, Nat.add_sub_cancel]
                rfl
              simp [ends, size, Option.orElse]
            · simp [ends, Option.orElse]
      · have literal : HasRoom depth text := room.move (by simp)
        simp only [structural, Bool.false_eq_true, if_false, checked_ok_bind, checked_pure,
          ih literal]
        rw [Mode.skeleton_of_not_structural structural, Mode.after_cons, byteSize_cons,
          afterStatements?, if_neg structural, Nat.add_assoc]

theorem cutStatements_eq {text : List Char} (short : byteSize text < 0x80000000) :
    cutStatements text = .ok (dropStatements text) := by
  rw [cutStatements, foldlM_statementPass (hasRoom_zero short), checked_ok_bind, dropStatements]
  cases found : afterStatements? 0 .plain text with
  | none => exact sliceFrom_append [] text
  | some rest =>
      obtain ⟨before, rfl, -⟩ := exists_of_afterStatements? found
      have whole : before ++ ';' :: rest = (before ++ [';']) ++ rest := by simp
      have start : 0 + byteSize (before ++ ';' :: rest) - byteSize rest =
          byteSize (before ++ [';']) := by
        rw [whole, byteSize_append _ rest, Nat.zero_add, Nat.add_sub_cancel]
      rw [Option.elim_some, start, Option.getD_some, whole]
      exact sliceFrom_append _ rest

/-! ## Selectors -/

theorem natAbs_parenthesisDepth_sub_le (depth : Int) (c : Char) :
    (parenthesisDepth depth c - depth).natAbs ≤ 1 := by
  unfold parenthesisDepth
  split
  · omega
  · split <;> omega

structure CommaPass where
  mode : Mode
  depth : Int
  current : List Char
  parts : List (List Char)

def CommaPass.step (pass : CommaPass) (c : Char) : Checked CommaPass := do
  let mode := pass.mode.next c
  if pass.mode.structural c then
    if c = ',' ∧ pass.depth = 0 then
      return ⟨mode, pass.depth, [], pass.parts ++ [pass.current]⟩
    else
      let depth ← counted (parenthesisDepth pass.depth c)
      return ⟨mode, depth, pass.current ++ [c], pass.parts⟩
  else return ⟨mode, pass.depth, pass.current ++ [c], pass.parts⟩

def cutSelectors (text : List Char) : Checked (List (List Char)) := do
  let pass ← text.foldlM CommaPass.step ⟨.plain, 0, [], []⟩
  return if pass.current = [] then pass.parts else pass.parts ++ [pass.current]

/-- The pass adds the parts of the text, the first of them behind the part that it was reading. -/
theorem exists_foldlM_commaPass {depth : Int} {text : List Char} (room : HasRoom depth text)
    (mode : Mode) (current : List Char) (parts : List (List Char)) :
    ∃ last, text.foldlM CommaPass.step ⟨mode, depth, current, parts⟩ = .ok last ∧
      last.parts ++ [last.current] =
        parts ++ current.foldr extendFirst (partsAtCommas depth mode text) := by
  induction text generalizing mode depth current parts with
  | nil =>
      refine ⟨_, rfl, ?_⟩
      rw [partsAtCommas, foldr_extendFirst_cons, List.append_nil]
  | cons c text ih =>
      rw [List.foldlM_cons, CommaPass.step, partsAtCommas]
      by_cases structural : mode.structural c = true
      · by_cases comma : c = ',' ∧ depth = 0
        · have same : HasRoom depth text := room.move (by simp)
          obtain ⟨last, passed, read⟩ := ih same (mode.next c) [] (parts ++ [current])
          refine ⟨last, ?_, ?_⟩
          · simpa only [structural, if_true, if_pos comma, checked_ok_bind, checked_pure]
              using passed
          · rw [read, if_pos structural, if_pos comma, foldr_extendFirst_cons, List.append_nil,
              List.foldr_nil, List.append_assoc]
            rfl
        · have moved : HasRoom (parenthesisDepth depth c) text :=
            room.move (natAbs_parenthesisDepth_sub_le depth c)
          obtain ⟨last, passed, read⟩ := ih moved (mode.next c) (current ++ [c]) parts
          refine ⟨last, ?_, ?_⟩
          · simpa only [structural, if_true, if_neg comma, moved.counted, checked_ok_bind,
              checked_pure] using passed
          · rw [read, if_pos structural, if_neg comma, List.foldr_append]
            rfl
      · have literal : HasRoom depth text := room.move (by simp)
        obtain ⟨last, passed, read⟩ := ih literal (mode.next c) (current ++ [c]) parts
        refine ⟨last, ?_, ?_⟩
        · simpa only [structural, Bool.false_eq_true, if_false, checked_ok_bind, checked_pure]
            using passed
        · rw [read, if_neg structural, List.foldr_append]
          rfl

theorem cutSelectors_eq {text : List Char} (short : byteSize text < 0x80000000) :
    cutSelectors text = .ok (splitSelectors text) := by
  obtain ⟨last, passed, read⟩ := exists_foldlM_commaPass (hasRoom_zero short) .plain [] []
  rw [List.nil_append, List.foldr_nil] at read
  rw [cutSelectors, passed, checked_ok_bind, checked_pure, splitSelectors, ← read,
    dropEmptyLast_concat]

end ScopeLowering.Stylesheet
