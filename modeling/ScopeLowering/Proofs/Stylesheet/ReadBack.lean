import ScopeLowering.Proofs.Stylesheet.Enclosure
import ScopeLowering.Proofs.Stylesheet.Sequence

/-!
# Reading lowered rules back

Lowered rules are again a sequence of constructs, and reading them gives back what was
written for each construct of the block: nothing is lost, doubled, moved or merged. The
invariant is that every construct written is well formed, and that an enclosed block is
lowered to an enclosed text.
-/

namespace ScopeLowering.Stylesheet

open ScopeLowering.Text

/-! ## Printing constructs -/

def Construct.print (construct : Construct) : List Char :=
  braces construct.header construct.body

/-- A construct that was printed is read back. -/
theorem constructs_print {construct : Construct} (wellFormed : construct.WellFormed) :
    constructs construct.print = [construct] := by
  have settled := wellFormed.header.settled
  have first := firstConstruct?_braces settled wellFormed.header.unopened wellFormed.body []
  have guarded : Guarded 0 (Mode.plain.skeleton (construct.header ++ [' '])) := by
    rw [Mode.skeleton_append, guarded_append]
    refine ⟨wellFormed.header.guarded, guarded_of_not_mem fun member => ?_⟩
    simpa using Mode.mem_of_mem_skeleton member
  rw [List.append_nil, dropStatements_of_guarded guarded, trim_append_blank allBlank_space,
    trim_of_trimmed wellFormed.header.trimmed] at first
  rw [Construct.print, constructs_of_some first, constructs_nil]

/-- Reading printed constructs gives the same constructs. -/
theorem constructs_printed {list : List Construct}
    (wellFormed : ∀ construct ∈ list, construct.WellFormed) {lead tail : List Char}
    (blankLead : AllBlank lead) (blankTail : AllBlank tail) :
    constructs (lead ++ joinLines (list.map Construct.print) ++ tail) = list := by
  have finished : ∀ text ∈ list.map Construct.print, Finished text := by
    intro text member
    obtain ⟨construct, inList, rfl⟩ := List.mem_map.mp member
    obtain ⟨header, body⟩ := wellFormed construct inList
    exact finished_braces header.settled header.unopened body
  have each : list.flatMap (fun construct => constructs construct.print) = list := by
    rw [List.flatMap_congr fun construct member => constructs_print (wellFormed construct member),
      List.flatMap_singleton']
  rw [List.append_assoc, constructs_blank_append blankLead, constructs_joinLines finished,
    constructs_of_blank blankTail, List.append_nil, List.flatMap_map, each]

/-! ## What is written for a construct -/

def Construct.lowered? (root : List Char) (inner : Option (List Char → List Char))
    (construct : Construct) : Option Construct :=
  match construct.kind with
  | .definition => some construct
  | .grouping =>
      inner.map fun write => ⟨construct.header, '\n' :: write construct.body ++ ['\n']⟩
  | .plain =>
      let selectors := selectorsUnder root construct.header
      if selectors.isEmpty then none else some ⟨selectors, construct.body⟩

theorem Construct.lower?_eq (root : List Char) (inner : Option (List Char → List Char))
    (construct : Construct) :
    construct.lower? root inner = (construct.lowered? root inner).map Construct.print := by
  unfold lower? lowered?
  cases construct.kind with
  | definition => rfl
  | grouping => cases inner <;> rfl
  | plain =>
      simp only
      split <;> rfl

def loweredConstructs (root : List Char) (levels : Nat) (body : List Char) : List Construct :=
  (constructs body).filterMap (Construct.lowered? root (innerWriter root levels))

theorem lowerBlock_eq (root : List Char) (levels : Nat) (body : List Char) :
    lowerBlock root levels body =
      joinLines ((loweredConstructs root levels body).map Construct.print) := by
  rw [lowerBlock_eq_joinLines, loweredConstructs, List.map_filterMap]
  exact congrArg joinLines (List.filterMap_congr fun construct _ => construct.lower?_eq root _)

/-! ## The invariant -/

/-- What is written for a construct is well formed. -/
theorem Construct.WellFormed.of_lowered? {root : List Char} (closed : IsClosedRoot root)
    {inner : Option (List Char → List Char)} (keeps : KeepsEnclosed inner)
    {construct written : Construct} (wellFormed : construct.WellFormed)
    (found : construct.lowered? root inner = some written) : written.WellFormed := by
  unfold lowered? at found
  cases kind : construct.kind with
  | definition =>
      simp only [kind, Option.some.injEq] at found
      subst found
      exact wellFormed
  | grouping =>
      simp only [kind, Option.map_eq_some_iff] at found
      obtain ⟨write, given, rfl⟩ := found
      have line : Enclosed '{' '}' ['\n'] := enclosed_of_blank allBlank_line
      have inside := keeps write given construct.body wellFormed.body
      exact ⟨wellFormed.header, (line.append inside).append line⟩
  | plain =>
      simp only [kind, Option.ite_none_left_eq_some, Option.some.injEq] at found
      obtain ⟨-, rfl⟩ := found
      exact ⟨isHeader_selectorsUnder closed wellFormed.header, wellFormed.body⟩

theorem IsClosedRoot.enclosed {root : List Char} (closed : IsClosedRoot root) :
    Enclosed '{' '}' root where
  plain := closed.neutral
  balanced :=
    .of_not_mem (closed.unstructured '{' (by decide)) (closed.unstructured '}' (by decide))

theorem wellFormed_of_mem_loweredConstructs {root : List Char} (closed : IsClosedRoot root)
    {levels : Nat} {body : List Char} {written : Construct}
    (member : written ∈ loweredConstructs root levels body) : written.WellFormed := by
  obtain ⟨construct, source, found⟩ := List.mem_filterMap.mp member
  exact (wellFormed_of_mem_constructs source).of_lowered? closed
    (keepsEnclosed_innerWriter closed.enclosed levels) found

/-- Reading a lowered block gives the constructs that were written. -/
theorem constructs_around_lowerBlock {root : List Char} (closed : IsClosedRoot root)
    (levels : Nat) (body : List Char) {lead tail : List Char} (blankLead : AllBlank lead)
    (blankTail : AllBlank tail) :
    constructs (lead ++ lowerBlock root levels body ++ tail) =
      loweredConstructs root levels body := by
  rw [lowerBlock_eq]
  exact constructs_printed (fun _ => wellFormed_of_mem_loweredConstructs closed) blankLead blankTail

/-! ## The law -/

/-- The law by which the constructs of a block are read back after lowering, where `levels`
more grouping at-rules may be entered: a definition at-rule as it is, a style rule with its
selectors under the root or, where all of them are blank, not at all, and a grouping at-rule
with its header and a body for which the same law holds. -/
inductive ReadsBack (root : List Char) : Nat → List Construct → List Construct → Prop where
  | nil (levels : Nat) : ReadsBack root levels [] []
  | definition {levels : Nat} {construct : Construct} {source written : List Construct}
      (kind : construct.kind = .definition) (rest : ReadsBack root levels source written) :
      ReadsBack root levels (construct :: source) (construct :: written)
  | rule {levels : Nat} {construct : Construct} {source written : List Construct}
      (kind : construct.kind = .plain)
      (visible : ∃ selector ∈ splitSelectors construct.header, ¬AllBlank selector)
      (rest : ReadsBack root levels source written) :
      ReadsBack root levels (construct :: source)
        (⟨selectorsUnder root construct.header, construct.body⟩ :: written)
  | vanished {levels : Nat} {construct : Construct} {source written : List Construct}
      (kind : construct.kind = .plain)
      (blank : ∀ selector ∈ splitSelectors construct.header, AllBlank selector)
      (rest : ReadsBack root levels source written) :
      ReadsBack root levels (construct :: source) written
  | grouping {levels : Nat} {construct : Construct} {source written : List Construct}
      {body : List Char} (kind : construct.kind = .grouping)
      (inside : ReadsBack root levels (constructs construct.body) (constructs body))
      (rest : ReadsBack root (levels + 1) source written) :
      ReadsBack root (levels + 1) (construct :: source) (⟨construct.header, body⟩ :: written)
  | tooDeep {construct : Construct} {source written : List Construct}
      (kind : construct.kind = .grouping) (rest : ReadsBack root 0 source written) :
      ReadsBack root 0 (construct :: source) written

theorem readsBack_filterMap {root : List Char} (rooted : root ≠ []) {levels : Nat}
    (inside : ∀ inner, levels = inner + 1 → ∀ body,
      ReadsBack root inner (constructs body)
        (constructs ('\n' :: lowerBlock root inner body ++ ['\n'])))
    (source : List Construct) :
    ReadsBack root levels source
      (source.filterMap (Construct.lowered? root (innerWriter root levels))) := by
  induction source with
  | nil => exact .nil levels
  | cons construct source ih =>
      rw [List.filterMap_cons]
      cases kind : construct.kind with
      | definition =>
          simp only [Construct.lowered?, kind]
          exact .definition kind ih
      | plain =>
          simp only [Construct.lowered?, kind, List.isEmpty_iff]
          by_cases vanishes : selectorsUnder root construct.header = []
          · rw [if_pos vanishes]
            exact .vanished kind ((selectorsUnder_eq_nil_iff rooted).mp vanishes) ih
          · rw [if_neg vanishes]
            have visible : ∃ selector ∈ splitSelectors construct.header, ¬AllBlank selector := by
              simpa [selectorsUnder_eq_nil_iff rooted] using vanishes
            exact .rule kind visible ih
      | grouping =>
          cases levels with
          | zero =>
              simp only [Construct.lowered?, kind, innerWriter, Option.map_none]
              exact .tooDeep kind ih
          | succ levels =>
              simp only [Construct.lowered?, kind, innerWriter, Option.map_some]
              exact .grouping kind (inside levels rfl construct.body) ih

/-- Reading a lowered block back follows the law, at any number of levels. -/
theorem readsBack_lowerBlock {root : List Char} (closed : IsClosedRoot root) (levels : Nat)
    (body : List Char) {lead tail : List Char} (blankLead : AllBlank lead)
    (blankTail : AllBlank tail) :
    ReadsBack root levels (constructs body)
      (constructs (lead ++ lowerBlock root levels body ++ tail)) := by
  induction levels generalizing body lead tail with
  | zero =>
      rw [constructs_around_lowerBlock closed 0 body blankLead blankTail]
      exact readsBack_filterMap closed.nonempty (fun _ absurdity => by cases absurdity) _
  | succ levels ih =>
      rw [constructs_around_lowerBlock closed (levels + 1) body blankLead blankTail]
      refine readsBack_filterMap closed.nonempty (fun inner same inside => ?_) _
      obtain rfl := Nat.succ.inj same
      exact ih inside allBlank_line allBlank_line

/-- Lowering never changes structure: the rules written for a block under a closed root,
read back, are what the law says of the constructs of the block. -/
theorem lowerBlock_readsBack {root : List Char} (closed : IsClosedRoot root)
    (body : List Char) :
    ReadsBack root maxNesting (constructs body)
      (constructs (lowerBlock root maxNesting body)) := by
  have around := readsBack_lowerBlock closed maxNesting body allBlank_nil allBlank_nil
  rwa [List.nil_append, List.append_nil] at around

def bracedRoot : List Char := ":is(.a, [x=\"\x7d\"])".toList

/-- A block with a statement, a trimmed backslash, a rule of blank selectors, a semicolon in
parentheses, a brace that closes nothing, and a definition. -/
def crowdedBlock : List Char :=
  ("x: y; a\\ , :scope b \x7bc\x7d , \x7bd\x7d " ++
    "@media (e;f) \x7b&:hover \x7bg\x7d\x7d \x7d h \x7bi\x7d @font-face \x7bj\x7d").toList

theorem lowerBlock_readsBack_crowdedBlock :
    IsClosedRoot bracedRoot ∧
      ReadsBack bracedRoot maxNesting (constructs crowdedBlock)
        (constructs (lowerBlock bracedRoot maxNesting crowdedBlock)) := by
  have trimmed : trim bracedRoot = bracedRoot := by decide
  have unstructured : (['{', '}', ';'].all fun c =>
      !(Mode.plain.skeleton bracedRoot).contains c) = true := by decide
  have closed : IsClosedRoot bracedRoot :=
    ⟨by decide, trimmed ▸ trimmed_trim bracedRoot, by decide, by simpa using unstructured,
      by decide⟩
  exact ⟨closed, lowerBlock_readsBack closed crowdedBlock⟩

end ScopeLowering.Stylesheet
