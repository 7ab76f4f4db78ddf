import ScopeLowering.Proofs.Stylesheet.Counting
import ScopeLowering.Proofs.Stylesheet.Segments
import ScopeLowering.Proofs.Stylesheet.Surroundings
import ScopeLowering.Proofs.Text.Matching

/-!
# The scans of a stylesheet by offsets

The searches for scope blocks and for constructs, as loops over offsets: each round finds the next
delimiters, takes the slices between them, and says where the next round resumes. No round misses,
every round moves on, and the loops find what the recursive readings find. Offsets behind a
delimiter are at a boundary because the delimiter takes one byte, and the offset behind blanks is
because what the blanks take is counted.
-/

namespace ScopeLowering.Stylesheet

open ScopeLowering.Text

/-! ## Scope blocks -/

def behindHead? : List Char → Option (List Char)
  | [] => none
  | c :: text => (afterHead? (c :: text)).orElse fun _ => behindHead? text

/-- The offsets of the braces of a body behind the closing parenthesis at an offset, or none
where a brace is missing. -/
def bodyOffsets (text : List Char) (closer : Nat) : Checked (Option (Nat × Nat)) := do
  let behindRoot ← sliceFrom text (closer + 1)
  let gap ← difference (byteSize behindRoot) (byteSize (trimStart behindRoot))
  let fromBody ← sliceFrom text (closer + 1 + gap)
  if fromBody.head? = some '{' then
    return (matchingBrace? text (closer + 1 + gap)).map fun stop => (closer + 1 + gap, stop)
  else return none

structure BlockOffsets where
  closer : Nat
  bodyOpener : Nat
  bodyCloser : Nat

def blockOffsets (text : List Char) (opener : Nat) : Checked (Option BlockOffsets) :=
  match matchingParenthesis? text opener with
  | none => return none
  | some closer => do
      let body ← bodyOffsets text closer
      return body.map fun braces => ⟨closer, braces.1, braces.2⟩

/-- What a round takes where all delimiters are there: a block with a blank root is left out. -/
def takeBlock (text : List Char) (opener : Nat) (offsets : BlockOffsets) :
    Checked (Round ScopeBlock) := do
  let root ← slice text (opener + 1) offsets.closer
  if (trim root).isEmpty then return .resume (offsets.bodyCloser + 1) none
  else
    let body ← slice text (offsets.bodyOpener + 1) offsets.bodyCloser
    return .resume (offsets.bodyCloser + 1) (some ⟨trim root, body⟩)

def blockRound (text : List Char) (position : Nat) : Checked (Round ScopeBlock) := do
  let rest ← sliceFrom text position
  match behindHead? rest with
  | none => return .final
  | some behind =>
      let headEnd ← difference (byteSize text) (byteSize behind)
      let opener ← difference headEnd 1
      match ← blockOffsets text opener with
      | none => return .resume headEnd none
      | some offsets => takeBlock text opener offsets

/-! What the search for a head gives. -/

theorem IsHead.exists_opened {head : List Char} (isHead : IsHead head) :
    ∃ inner, head = '@' :: (inner ++ ['(']) ∧ '@' ∉ inner := by
  obtain ⟨word, blanks, rfl, folded, blank⟩ := isHead
  have inWord : '@' ∉ word := by
    intro member
    have letter : fold '@' ∈ word.map fold := List.mem_map_of_mem member
    rw [folded] at letter
    exact absurd letter (by decide)
  have inBlanks : '@' ∉ blanks := fun member => absurd (blank '@' member) (by decide)
  exact ⟨word ++ blanks, rfl, by simp [inWord, inBlanks]⟩

theorem firstBlock?_of_afterHead? {text : List Char} (headless : afterHead? text = none) :
    firstBlock? text = none := by
  rw [firstBlock?, headless, Option.bind_none]

theorem scopeBlocks_of_behindHead? {text : List Char} (headless : behindHead? text = none) :
    scopeBlocks text = [] := by
  induction text with
  | nil => exact scopeBlocks_nil
  | cons c text ih =>
      cases here : afterHead? (c :: text) with
      | some rest =>
          rw [behindHead?, here] at headless
          cases headless
      | none =>
          rw [behindHead?, here] at headless
          rw [scopeBlocks_of_none (firstBlock?_of_afterHead? here), ih headless]

/-- No block starts before the first head. -/
theorem exists_of_behindHead? {text behind : List Char} (found : behindHead? text = some behind) :
    ∃ lead head, text = lead ++ (head ++ behind) ∧ IsHead head ∧
      scopeBlocks text = scopeBlocks (head ++ behind) := by
  induction text with
  | nil => cases found
  | cons c text ih =>
      rw [behindHead?] at found
      cases here : afterHead? (c :: text) with
      | some rest =>
          rw [here] at found
          obtain rfl := Option.some.inj found
          obtain ⟨head, shape, isHead⟩ := afterHead?_eq_some_iff.mp here
          exact ⟨[], head, shape, isHead, by rw [shape]⟩
      | none =>
          rw [here] at found
          obtain ⟨lead, head, rfl, isHead, same⟩ := ih found
          rw [scopeBlocks_of_none (firstBlock?_of_afterHead? here), same]
          exact ⟨c :: lead, head, rfl, isHead, rfl⟩

/-- A head without a block is passed over. -/
theorem IsHead.scopeBlocks_append {head behind : List Char} (isHead : IsHead head)
    (none : firstBlock? (head ++ behind) = none) :
    scopeBlocks (head ++ behind) = scopeBlocks behind := by
  obtain ⟨inner, rfl, absent⟩ := isHead.exists_opened
  rw [List.cons_append] at none ⊢
  rw [scopeBlocks_of_none none]
  exact scopeBlocks_append_of_not_mem (by simp [absent]) behind

/-- The search for a body counts the blanks that it passes over. -/
theorem bodyOffsets_eq (before : List Char) {gap behindRoot : List Char}
    (passed : behindRoot = gap ++ trimStart behindRoot) :
    bodyOffsets (before ++ ')' :: behindRoot) (byteSize before) =
      .ok (if (trimStart behindRoot).head? = some '{' then
        (matchingBrace? ((before ++ ')' :: gap) ++ trimStart behindRoot)
          (byteSize (before ++ ')' :: gap))).map fun stop => (byteSize (before ++ ')' :: gap), stop)
        else none) := by
  have whole : before ++ ')' :: behindRoot = (before ++ ')' :: gap) ++ trimStart behindRoot := by
    rw [List.append_assoc, List.cons_append, ← passed]
  have opener : byteSize before + 1 + byteSize gap = byteSize (before ++ ')' :: gap) :=
    (byteSize_behind rfl before gap).symm
  have taken := difference_append gap (trimStart behindRoot)
  rw [← passed] at taken
  rw [bodyOffsets, sliceFrom_behind rfl before behindRoot, checked_ok_bind, taken,
    checked_ok_bind, opener, whole, sliceFrom_append, checked_ok_bind]
  split <;> rfl

theorem bodyOffsets_brace (before : List Char) {gap : List Char} (blank : AllBlank gap)
    (inner : List Char) :
    bodyOffsets (before ++ ')' :: (gap ++ '{' :: inner)) (byteSize before) =
      .ok ((braced? inner).map fun cut => (byteSize (before ++ ')' :: gap),
        byteSize ((before ++ ')' :: gap) ++ '{' :: cut.1))) := by
  have visible : trimStart (gap ++ '{' :: inner) = '{' :: inner :=
    (trimStart_eq_cons_iff (by decide)).mpr ⟨gap, rfl, blank⟩
  have closes : matchingBrace? ((before ++ ')' :: gap) ++ '{' :: inner)
      (byteSize (before ++ ')' :: gap)) =
      (braced? inner).map fun cut => byteSize ((before ++ ')' :: gap) ++ '{' :: cut.1) :=
    matchingDelimiter?_byteSize ..
  rw [bodyOffsets_eq before (by rw [visible] : _ = gap ++ _), visible, List.head?_cons,
    if_pos rfl, closes, Option.map_map]
  rfl

theorem bodyOffsets_other (before : List Char) {behindRoot : List Char}
    (other : (trimStart behindRoot).head? ≠ some '{') :
    bodyOffsets (before ++ ')' :: behindRoot) (byteSize before) = .ok none := by
  obtain ⟨gap, -, passed⟩ := exists_trimStart behindRoot
  rw [bodyOffsets_eq before passed, if_neg other]

def CompleteHead.offsets (complete : CompleteHead) (through : List Char) : BlockOffsets where
  closer := byteSize (through ++ '(' :: complete.root)
  bodyOpener := byteSize ((through ++ '(' :: complete.root) ++ ')' :: complete.gap)
  bodyCloser :=
    byteSize (((through ++ '(' :: complete.root) ++ ')' :: complete.gap) ++ '{' :: complete.body)

/-- The offsets are found exactly if a block starts at the head. -/
theorem blockOffsets_cases {head : List Char} (isHead : IsHead head)
    (through behind : List Char) :
    (firstBlock? (head ++ behind) = none ∧
        blockOffsets (through ++ '(' :: behind) (byteSize through) = .ok none) ∨
      ∃ (complete : CompleteHead) (last : List Char), complete.head = head ∧
        behind = complete.root ++ ')' :: (complete.gap ++ '{' :: (complete.body ++ '}' :: last)) ∧
        blockOffsets (through ++ '(' :: behind) (byteSize through) =
          .ok (some (complete.offsets through)) := by
  have opened : matchingParenthesis? (through ++ '(' :: behind) (byteSize through) =
      (parenthesized? behind).map fun cut => byteSize (through ++ '(' :: cut.1) :=
    matchingDelimiter?_byteSize ..
  rw [firstBlock?, afterHead?_eq_some_iff.mpr ⟨head, rfl, isHead⟩, Option.bind_some, blockOffsets,
    opened]
  cases closed : parenthesized? behind with
  | none => exact .inl ⟨rfl, rfl⟩
  | some cut =>
      obtain ⟨root, behindRoot⟩ := cut
      obtain ⟨rfl, rootEnclosed⟩ := parenthesized?_eq_some_iff.mp closed
      have whole : through ++ '(' :: (root ++ ')' :: behindRoot) =
          (through ++ '(' :: root) ++ ')' :: behindRoot := by simp
      rw [Option.map_some, Option.bind_some, whole]
      by_cases brace : (trimStart behindRoot).head? = some '{'
      · obtain ⟨inner, visible⟩ := List.head?_eq_some_iff.mp brace
        obtain ⟨gap, rfl, blank⟩ := (trimStart_eq_cons_iff (by decide)).mp visible
        simp only [bodyOffsets_brace _ blank, visible, checked_ok_bind, checked_pure]
        cases matched : braced? inner with
        | none => exact .inl ⟨rfl, rfl⟩
        | some cut =>
            obtain ⟨body, last⟩ := cut
            obtain ⟨rfl, bodyEnclosed⟩ := braced?_eq_some_iff.mp matched
            exact .inr ⟨⟨head, root, gap, body, isHead, rootEnclosed, blank, bodyEnclosed⟩,
              last, rfl, rfl, rfl⟩
      · refine .inl ⟨?_, by simp only [bodyOffsets_other _ brace]; rfl⟩
        split
        · rename_i visible
          exact absurd (congrArg List.head? visible) brace
        · rfl

theorem takeBlock_eq (complete : CompleteHead) (through last : List Char) :
    takeBlock (through ++ '(' :: (complete.root ++ ')' :: (complete.gap ++
        '{' :: (complete.body ++ '}' :: last)))) (byteSize through) (complete.offsets through) =
      .ok (.resume (byteSize (through ++ '(' :: (complete.root ++ ')' :: (complete.gap ++
          '{' :: (complete.body ++ ['}'])))))
        (if complete.block.root.isEmpty then none else some complete.block)) := by
  have root := slice_behind (rfl : '('.utf8Size = 1) through complete.root
    (')' :: (complete.gap ++ '{' :: (complete.body ++ '}' :: last)))
  have body := slice_behind (rfl : '{'.utf8Size = 1)
    ((through ++ '(' :: complete.root) ++ ')' :: complete.gap) complete.body ('}' :: last)
  have resumes := byteSize_behind (rfl : '}'.utf8Size = 1)
    (((through ++ '(' :: complete.root) ++ ')' :: complete.gap) ++ '{' :: complete.body) []
  simp only [List.append_assoc, List.cons_append, byteSize_nil, Nat.add_zero] at body resumes
  simp only [takeBlock, CompleteHead.offsets, List.append_assoc, List.cons_append, root, body,
    resumes, checked_ok_bind, checked_pure]
  by_cases blank : (trim complete.root).isEmpty = true
  · have vanishes : complete.block.root.isEmpty = true := blank
    rw [if_pos blank, if_pos vanishes]
  · have stays : ¬complete.block.root.isEmpty = true := blank
    rw [if_neg blank, if_neg stays]
    rfl

/-- A round that comes to a head looks for the delimiters behind its parenthesis. -/
theorem blockRound_of_head {before lead head behind through : List Char}
    (found : behindHead? (lead ++ (head ++ behind)) = some behind)
    (opened : before ++ (lead ++ head) = through ++ ['(']) :
    blockRound (through ++ '(' :: behind) (byteSize before) = (do
      match ← blockOffsets (through ++ '(' :: behind) (byteSize through) with
      | none => return .resume (byteSize (before ++ (lead ++ head))) none
      | some offsets => takeBlock (through ++ '(' :: behind) (byteSize through) offsets) := by
  have whole : through ++ '(' :: behind = (before ++ (lead ++ head)) ++ behind := by
    rw [opened, List.append_assoc, List.singleton_append]
  have here : sliceFrom (through ++ '(' :: behind) (byteSize before) =
      .ok (lead ++ (head ++ behind)) := by
    rw [whole, List.append_assoc, List.append_assoc]
    exact sliceFrom_append before _
  have ends : difference (byteSize (through ++ '(' :: behind)) (byteSize behind) =
      .ok (byteSize (before ++ (lead ++ head))) := by
    rw [whole]
    exact difference_append _ behind
  have opens : difference (byteSize (before ++ (lead ++ head))) 1 = .ok (byteSize through) := by
    rw [opened]
    exact difference_append through ['(']
  simp only [blockRound, here, found, ends, opens, checked_ok_bind]

theorem blockRound_advances (before rest : List Char) :
    (blockRound (before ++ rest) (byteSize before) = .ok .final ∧ scopeBlocks rest = []) ∨
      ∃ passed later found, rest = passed ++ later ∧ passed ≠ [] ∧
        blockRound (before ++ rest) (byteSize before) =
          .ok (.resume (byteSize (before ++ passed)) found) ∧
        scopeBlocks rest = found.toList ++ scopeBlocks later := by
  cases found : behindHead? rest with
  | none =>
      refine .inl ⟨?_, scopeBlocks_of_behindHead? found⟩
      rw [blockRound, sliceFrom_append, checked_ok_bind, found, checked_pure]
  | some behind =>
      obtain ⟨lead, head, rfl, isHead, same⟩ := exists_of_behindHead? found
      obtain ⟨inner, spelled, -⟩ := isHead.exists_opened
      have opened : before ++ (lead ++ head) = (before ++ lead ++ '@' :: inner) ++ ['('] := by
        simp [spelled]
      have whole : before ++ (lead ++ (head ++ behind)) =
          (before ++ lead ++ '@' :: inner) ++ '(' :: behind := by simp [spelled]
      have round := blockRound_of_head found opened
      rw [← whole] at round
      rcases blockOffsets_cases isHead (before ++ lead ++ '@' :: inner) behind with
        ⟨blockless, missing⟩ | ⟨complete, last, rfl, rfl, offsets⟩
      · rw [← whole] at missing
        refine .inr ⟨lead ++ head, behind, none, by simp, by simp [spelled], ?_, ?_⟩
        · rw [round, missing, checked_ok_bind, checked_pure]
        · rw [same, isHead.scopeBlocks_append blockless]
          rfl
      · have start : firstBlock? (complete.head ++ (complete.root ++ ')' :: (complete.gap ++
            '{' :: (complete.body ++ '}' :: last)))) = some (complete.block, last) :=
          firstBlock?_eq_some_iff.mpr ⟨complete, by simp [CompleteHead.text], rfl⟩
        have through : before ++ (lead ++ complete.text) =
            (before ++ lead ++ '@' :: inner) ++ '(' :: (complete.root ++ ')' :: (complete.gap ++
              '{' :: (complete.body ++ ['}']))) := by simp [CompleteHead.text, spelled]
        refine .inr ⟨lead ++ complete.text, last,
          if complete.block.root.isEmpty then none else some complete.block,
          by simp [CompleteHead.text], by simp [CompleteHead.text, spelled], ?_, ?_⟩
        · rw [round, whole, offsets, checked_ok_bind, through]
          exact takeBlock_eq complete _ last
        · rw [same, scopeBlocks_of_some start]
          split <;> rfl

/-! ## Constructs -/

/-- A round of the search for constructs: it ends at a body that is not closed. -/
def constructRound (text : List Char) (position : Nat) : Checked (Round Construct) :=
  match nextStructural? text position '{' with
  | none => return .final
  | some opener =>
      match matchingBrace? text opener with
      | none => return .final
      | some closer => do
          let header ← slice text position opener
          let header ← cutStatements header
          let body ← slice text (opener + 1) closer
          return .resume (closer + 1) (some ⟨trim header, body⟩)

theorem matchingBrace?_behind (before header opened : List Char) :
    matchingBrace? (before ++ (header ++ '{' :: opened)) (byteSize (before ++ header)) =
      (braced? opened).map fun cut => byteSize (before ++ (header ++ '{' :: cut.1)) := by
  have closes := matchingDelimiter?_byteSize '{' '}' (before ++ header) opened
  simp only [List.append_assoc] at closes
  exact closes

theorem constructRound_of_none (before : List Char) {rest : List Char}
    (none : firstConstruct? rest = none) :
    constructRound (before ++ rest) (byteSize before) = .ok .final := by
  rw [constructRound, nextStructural?_byteSize]
  cases cut : cutAt? '{' .plain rest with
  | none => rfl
  | some parts =>
      obtain ⟨header, opened⟩ := parts
      obtain rfl := eq_of_cutAt? cut
      rw [firstConstruct?, cut, Option.bind_some, Option.map_eq_none_iff] at none
      simp only [Option.map_some, matchingBrace?_behind, none, Option.map_none, checked_pure]

/-- A round that finds a construct resumes behind its closing brace. -/
theorem constructRound_of_some {before rest later : List Char} {construct : Construct}
    (short : byteSize (before ++ rest) < 0x80000000)
    (first : firstConstruct? rest = some (construct, later)) :
    ∃ passed, rest = passed ++ later ∧ passed ≠ [] ∧
      constructRound (before ++ rest) (byteSize before) =
        .ok (.resume (byteSize (before ++ passed)) (some construct)) := by
  simp only [firstConstruct?, Option.bind_eq_some_iff, Option.map_eq_some_iff] at first
  obtain ⟨⟨header, opened⟩, cut, ⟨body, last⟩, matched, same⟩ := first
  obtain ⟨rfl, rfl⟩ := Prod.mk.inj same
  obtain rfl := eq_of_cutAt? cut
  have closes := matchingBrace?_behind before header opened
  obtain ⟨rfl, -⟩ := braced?_eq_some_iff.mp matched
  have within : byteSize header < 0x80000000 := by
    rw [byteSize_append, byteSize_append] at short
    omega
  have headerSlice := slice_append before header ('{' :: (body ++ '}' :: last))
  have bodySlice := slice_behind (rfl : '{'.utf8Size = 1) (before ++ header) body ('}' :: last)
  have resumes := byteSize_behind (rfl : '}'.utf8Size = 1) (before ++ (header ++ '{' :: body)) []
  simp only [List.append_assoc, List.cons_append, byteSize_nil, Nat.add_zero] at bodySlice resumes
  refine ⟨header ++ '{' :: (body ++ ['}']), by simp, by simp, ?_⟩
  simp only [constructRound, nextStructural?_byteSize, cut, closes, matched, Option.map_some,
    headerSlice, cutStatements_eq within, bodySlice, resumes, checked_ok_bind, checked_pure]

theorem constructRound_advances (before rest : List Char)
    (short : byteSize (before ++ rest) < 0x80000000) :
    (constructRound (before ++ rest) (byteSize before) = .ok .final ∧ constructs rest = []) ∨
      ∃ passed later found, rest = passed ++ later ∧ passed ≠ [] ∧
        constructRound (before ++ rest) (byteSize before) =
          .ok (.resume (byteSize (before ++ passed)) found) ∧
        constructs rest = found.toList ++ constructs later := by
  cases first : firstConstruct? rest with
  | none => exact .inl ⟨constructRound_of_none before first, constructs_of_none first⟩
  | some pair =>
      obtain ⟨construct, later⟩ := pair
      obtain ⟨passed, shape, moved, round⟩ := constructRound_of_some short first
      exact .inr ⟨passed, later, some construct, shape, moved, round, constructs_of_some first⟩

/-! ## All scans -/

/-- What it takes for the scans of a text to work by offsets: the searches give boundaries inside
the text, the loops run through, and no pass misses a slice, a difference or a counter. Each gives
what the recursive reading gives. -/
structure ScansInRange (text : List Char) : Prop where
  structural : ∀ target, FindsInside text fun start => nextStructural? text start target
  brace : FindsInside text (matchingBrace? text)
  parenthesis : FindsInside text (matchingParenthesis? text)
  blocks : RunsThrough text (blockRound text) (scopeBlocks text)
  constructs : RunsThrough text (constructRound text) (constructs text)
  statements : cutStatements text = .ok (dropStatements text)
  selectors : cutSelectors text = .ok (splitSelectors text)
  segments : ∃ segments, quoteSegments text = .ok segments ∧ Segmented .plain text segments
  rewriting : ∀ root, scopeSegments root text = .ok (selectorUnder root text)

/-- No scan of a text of less than 2 ^ 31 bytes misses, and every loop ends. -/
theorem scansInRange {text : List Char} (short : byteSize text < 0x80000000) :
    ScansInRange text where
  structural := findsInside_nextStructural? text
  brace := findsInside_matchingDelimiter? (by decide) text
  parenthesis := findsInside_matchingDelimiter? (by decide) text
  blocks := by
    refine runsThrough_of_advances fun before rest whole => ?_
    rw [whole]
    exact blockRound_advances before rest
  constructs := by
    refine runsThrough_of_advances fun before rest whole => ?_
    rw [whole] at short ⊢
    exact constructRound_advances before rest short
  statements := cutStatements_eq short
  selectors := cutSelectors_eq short
  segments := exists_quoteSegments text
  rewriting root := scopeSegments_eq root text

def wideStylesheet : List Char :=
  "@\u017Fcope\u2003(.a)\u3000\x7b p \x7b x \x7d \x7d p \x7b \x7d".toList

theorem scansInRange_wideStylesheet :
    byteSize wideStylesheet < 0x80000000 ∧
      blockRound wideStylesheet 0 =
        .ok (.resume 28 (some ⟨".a".toList, " p \x7b x \x7d ".toList⟩)) ∧
      ScansInRange wideStylesheet :=
  ⟨by decide, by decide +kernel, scansInRange (by decide)⟩

end ScopeLowering.Stylesheet
