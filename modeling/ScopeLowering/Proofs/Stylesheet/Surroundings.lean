import Mathlib.Data.List.Infix
import ScopeLowering.Proofs.Stylesheet.BlockSearch
import ScopeLowering.Proofs.Stylesheet.Comment
import ScopeLowering.Proofs.Stylesheet.Enclosure
import ScopeLowering.Proofs.Stylesheet.Sequence

/-!
# At-rules around scope blocks

The search for scope blocks looks at heads only, so it passes over an at-rule that stands
around them. What is written is what the blocks give by themselves: a rule stands inside an
at-rule of the surrounding header only if its block has such an at-rule inside.
-/

namespace ScopeLowering.Stylesheet

open ScopeLowering.Text

/-! ## Passing over text -/

theorem IsHead.not_mem_brace {head : List Char} (isHead : IsHead head) : '{' ∉ head := by
  obtain ⟨word, blanks, rfl, folded, blank⟩ := isHead
  have inWord : '{' ∉ word := by
    intro member
    have letter : fold '{' ∈ word.map fold := List.mem_map_of_mem member
    rw [folded] at letter
    exact absurd letter (by decide)
  have inBlanks : '{' ∉ blanks := fun member => absurd (blank '{' member) (by decide)
  simp [inWord, inBlanks]

/-- Nothing is found at a place where no head starts. -/
theorem firstBlock?_of_headless {text : List Char}
    (headless : ∀ head, IsHead head → ¬head <+: text) : firstBlock? text = none := by
  cases found : firstBlock? text with
  | none => rfl
  | some first =>
      obtain ⟨complete, shape, -⟩ := firstBlock?_eq_some_iff.mp found
      refine absurd ?_ (headless complete.head complete.isHead)
      rw [shape, CompleteHead.text, List.append_assoc]
      exact List.prefix_append ..

theorem firstBlock?_cons_of_ne {c : Char} (other : c ≠ '@') (text : List Char) :
    firstBlock? (c :: text) = none := by
  refine firstBlock?_of_headless ?_
  rintro head ⟨word, blanks, rfl, -⟩ starts
  obtain ⟨rfl, -⟩ := List.cons_prefix_cons.mp starts
  exact other rfl

def Headless (text : List Char) : Prop := ∀ head, IsHead head → ¬head <:+: text

theorem headless_iff {text : List Char} :
    Headless text ↔ (text.tails.all fun tail => (afterHead? tail).isNone) = true := by
  rw [List.all_eq_true]
  constructor
  · intro headless tail member
    rw [Option.isNone_iff_eq_none]
    cases found : afterHead? tail with
    | none => rfl
    | some rest =>
        obtain ⟨head, rfl, isHead⟩ := afterHead?_eq_some_iff.mp found
        have inside : head ++ rest <:+: text := ((List.mem_tails _ _).mp member).isInfix
        exact absurd ((List.prefix_append head rest).isInfix.trans inside) (headless head isHead)
  · rintro unstarted head isHead ⟨before, after, rfl⟩
    have member : head ++ after ∈ (before ++ head ++ after).tails := by
      rw [List.mem_tails, List.append_assoc]
      exact List.suffix_append ..
    have found : afterHead? (head ++ after) = some after :=
      afterHead?_eq_some_iff.mpr ⟨head, rfl, isHead⟩
    have none := unstarted _ member
    rw [found] at none
    cases none

instance (text : List Char) : Decidable (Headless text) := decidable_of_iff _ headless_iff.symm

/-- The search passes over a text without heads, up to a brace that ends it. -/
theorem scopeBlocks_headless_append {lead : List Char} (headless : Headless lead)
    (rest : List Char) : scopeBlocks (lead ++ '{' :: rest) = scopeBlocks rest := by
  induction lead with
  | nil => exact scopeBlocks_of_none (firstBlock?_cons_of_ne (by decide) rest)
  | cons c lead ih =>
      have none : firstBlock? (c :: (lead ++ '{' :: rest)) = none := by
        refine firstBlock?_of_headless fun head isHead starts => ?_
        rw [← List.cons_append, prefix_before_iff isHead.not_mem_brace] at starts
        exact headless head isHead starts.isInfix
      rw [List.cons_append, scopeBlocks_of_none none]
      exact ih fun head isHead inside => headless head isHead (List.infix_cons inside)

/-- The search passes over a text without the first character of a head. -/
theorem scopeBlocks_append_of_not_mem {lead : List Char} (absent : '@' ∉ lead)
    (rest : List Char) : scopeBlocks (lead ++ rest) = scopeBlocks rest := by
  induction lead with
  | nil => rfl
  | cons c lead ih =>
      rw [List.mem_cons, not_or] at absent
      rw [List.cons_append, scopeBlocks_of_none (firstBlock?_cons_of_ne (Ne.symm absent.1) _)]
      exact ih absent.2

theorem scopeBlocks_blank_append {lead : List Char} (blank : AllBlank lead) (rest : List Char) :
    scopeBlocks (lead ++ rest) = scopeBlocks rest :=
  scopeBlocks_append_of_not_mem (fun member => absurd (blank '@' member) (by decide)) rest

inductive OnlyBlocks : List Char → Prop where
  | blank {gap : List Char} (blank : AllBlank gap) : OnlyBlocks gap
  | block {gap rest : List Char} (blank : AllBlank gap) (complete : CompleteHead)
      (later : OnlyBlocks rest) : OnlyBlocks (gap ++ (complete.text ++ rest))

/-- A text of complete heads is searched to its end, whatever follows it. -/
theorem OnlyBlocks.scopeBlocks_append {text : List Char} (only : OnlyBlocks text)
    (rest : List Char) : scopeBlocks (text ++ rest) = scopeBlocks text ++ scopeBlocks rest := by
  induction only with
  | blank blank =>
      have alone := scopeBlocks_blank_append blank []
      rw [List.append_nil] at alone
      rw [scopeBlocks_blank_append blank, alone, scopeBlocks_nil, List.nil_append]
  | block blank complete later ih =>
      have found (tail : List Char) :=
        scopeBlocks_of_some (firstBlock?_eq_some_iff.mpr ⟨complete, rfl, rfl⟩ :
          firstBlock? (complete.text ++ tail) = some (complete.block, tail))
      rw [List.append_assoc, List.append_assoc, scopeBlocks_blank_append blank,
        scopeBlocks_blank_append blank, found, found, ih]
      split
      · rfl
      · rw [List.cons_append]

theorem OnlyBlocks.of_firstBlock? {gap text rest : List Char} {block : ScopeBlock}
    (blank : AllBlank gap) (found : firstBlock? text = some (block, rest))
    (later : OnlyBlocks rest) : OnlyBlocks (gap ++ text) := by
  obtain ⟨complete, rfl, -⟩ := firstBlock?_eq_some_iff.mp found
  exact .block blank complete later

/-! ## Rules outside an at-rule -/

/-- A rule that a text has outside the grouping at-rules of some header. -/
inductive Exposed (header : List Char) (rule : Construct) : List Char → Prop where
  | here {text : List Char} (member : rule ∈ constructs text) (kind : rule.kind = .plain) :
      Exposed header rule text
  | inside {text : List Char} {group : Construct} (member : group ∈ constructs text)
      (kind : group.kind = .grouping) (other : group.header ≠ header)
      (exposed : Exposed header rule group.body) : Exposed header rule text

/-- Texts that are read one by one have the rules of each of them. -/
theorem exposed_iff_of_flatMap {header text : List Char} {rule : Construct}
    {texts : List (List Char)} (read : constructs text = texts.flatMap constructs) :
    Exposed header rule text ↔ ∃ part ∈ texts, Exposed header rule part := by
  constructor
  · intro exposed
    cases exposed with
    | here member kind =>
        rw [read] at member
        obtain ⟨part, inTexts, member⟩ := List.mem_flatMap.mp member
        exact ⟨part, inTexts, .here member kind⟩
    | inside member kind other exposed =>
        rw [read] at member
        obtain ⟨part, inTexts, member⟩ := List.mem_flatMap.mp member
        exact ⟨part, inTexts, .inside member kind other exposed⟩
  · rintro ⟨part, inTexts, exposed⟩
    have within {construct : Construct} (member : construct ∈ constructs part) :
        construct ∈ constructs text := by
      rw [read]
      exact List.mem_flatMap.mpr ⟨part, inTexts, member⟩
    cases exposed with
    | here member kind => exact .here (within member) kind
    | inside member kind other exposed => exact .inside (within member) kind other exposed

/-! ## Roots without braces -/

def AddsNoBrace (source written : List Char) : Prop := '{' ∉ source → '{' ∉ written

theorem imitation_addsNoBrace : Imitation AddsNoBrace where
  refl := fun _ absent => absent
  append := by
    intro source source' written written' left right absent
    rw [List.mem_append, not_or] at absent ⊢
    exact ⟨left absent.1, right absent.2⟩
  of_light := fun _ light _ member => light '{' member (by decide)

structure IsUnbraced (root : List Char) : Prop where
  plain : Mode.plain.after root = .plain
  unbraced : ∀ brace ∈ ['{', '}'], brace ∉ Mode.plain.skeleton root

theorem IsUnbraced.enclosed {root : List Char} (unbraced : IsUnbraced root) :
    Enclosed '{' '}' root :=
  ⟨unbraced.plain, balanced_of_unbraced unbraced.unbraced⟩

theorem IsUnbraced.fits {root : List Char} (unbraced : IsUnbraced root) : Fits AddsNoBrace root :=
  ⟨imitation_addsNoBrace, unbraced.plain, fun _ => unbraced.unbraced '{' (by decide)⟩

/-- What is written for a block under a root without braces is read to its end. -/
theorem finished_lowerBlock {root : List Char} (unbraced : IsUnbraced root) (levels : Nat)
    (body : List Char) : Finished (lowerBlock root levels body) := by
  rw [lowerBlock_eq_joinLines]
  refine finished_joinLines fun text member => ?_
  obtain ⟨construct, source, found⟩ := List.mem_filterMap.mp member
  have wellFormed := wellFormed_of_mem_constructs source
  obtain ⟨header, inside, rfl, stands, enclosed⟩ := wellFormed.exists_written unbraced.fits
    (keepsEnclosed_innerWriter unbraced.enclosed levels) found
  exact finished_braces (stands.settled wellFormed.header.settled)
    (stands.skeleton wellFormed.header.unopened) enclosed

/-! ## Stylesheets -/

/-- What is written for a stylesheet is read block by block. -/
theorem constructs_of_lower? {stylesheet css : List Char} (lowered : lower? stylesheet = some css)
    (unbraced : ∀ block ∈ scopeBlocks (withoutComments stylesheet), IsUnbraced block.root) :
    constructs css =
      ((scopeBlocks (withoutComments stylesheet)).map ScopeBlock.lower).flatMap constructs := by
  have finished : ∀ text ∈ (scopeBlocks (withoutComments stylesheet)).map ScopeBlock.lower,
      Finished text := by
    intro text member
    obtain ⟨block, found, rfl⟩ := List.mem_map.mp member
    exact finished_lowerBlock (unbraced block found) maxNesting block.body
  have read := constructs_joinLines finished []
  rwa [List.append_nil, constructs_nil, List.append_nil, ← eq_joinLines_of_lower? lowered] at read

def surround (prelude inside : List Char) : List Char := prelude ++ '{' :: (inside ++ ['}'])

variable {prelude inside : List Char}

theorem withoutComments_surround (uncommented : ¬['/', '*'] <:+: prelude)
    (kept : withoutComments inside = inside) :
    withoutComments (surround prelude inside) = surround prelude inside := by
  have last : withoutComments (inside ++ ['}']) = withoutComments inside ++ ['}'] :=
    withoutCommentsFrom_concat (by decide) (Nat.zero_le _)
  rw [surround, withoutComments_append (by decide) uncommented, last, kept]

theorem scopeBlocks_surround (headless : Headless prelude) (only : OnlyBlocks inside) :
    scopeBlocks (surround prelude inside) = scopeBlocks inside := by
  have brace : scopeBlocks ['}'] = [] := by
    rw [scopeBlocks_of_none (firstBlock?_cons_of_ne (by decide) []), scopeBlocks_nil]
  rw [surround, scopeBlocks_headless_append headless, only.scopeBlocks_append, brace,
    List.append_nil]

/-- An at-rule around scope blocks leaves no trace: the stylesheet is lowered as without it,
and the rules that stand outside its header are those that the blocks have outside of it by
themselves. -/
theorem lower?_surround (headless : Headless prelude) (uncommented : ¬['/', '*'] <:+: prelude)
    (kept : withoutComments inside = inside) (only : OnlyBlocks inside)
    (unbraced : ∀ block ∈ scopeBlocks inside, IsUnbraced block.root) :
    lower? (surround prelude inside) = lower? inside ∧
      ∀ css ∈ lower? (surround prelude inside), ∀ rule,
        Exposed (trim prelude) rule css ↔
          ∃ block ∈ scopeBlocks inside, Exposed (trim prelude) rule block.lower := by
  have same : lower? (surround prelude inside) = lower? inside := by
    unfold lower?
    rw [withoutComments_surround uncommented kept, scopeBlocks_surround headless only, kept]
  refine ⟨same, fun css lowered rule => ?_⟩
  have alone : lower? inside = some css := same.symm.trans lowered
  rw [← kept] at unbraced
  have read := constructs_of_lower? alone unbraced
  rw [kept] at read
  rw [exposed_iff_of_flatMap read]
  simp only [List.mem_map, exists_exists_and_eq_and]

def widePrelude : List Char := "@media (width > 9px) ".toList

/-- A block that has an at-rule with the same header inside, and a root with a brace in a
string. -/
def guardedBlock : List Char :=
  "@scope ([x=\"\x7d\"]) \x7b @media (width > 9px) \x7b p \x7b x \x7d \x7d \x7d".toList

def emptyBlock : List Char := "@scope (.b) \x7b \x7d".toList

def guardedBlocks : List Char := guardedBlock ++ ' ' :: emptyBlock

theorem lower?_surround_guardedBlocks :
    Headless widePrelude ∧ ¬['/', '*'] <:+: widePrelude ∧
      withoutComments guardedBlocks = guardedBlocks ∧ OnlyBlocks guardedBlocks ∧
      (∀ block ∈ scopeBlocks guardedBlocks, IsUnbraced block.root) ∧
      ∃ css, lower? (surround widePrelude guardedBlocks) = some css ∧
        ∀ rule, ¬Exposed (trim widePrelude) rule css := by
  have headless : Headless widePrelude := by decide
  have uncommented : ¬['/', '*'] <:+: widePrelude := by decide
  have kept : withoutComments guardedBlocks = guardedBlocks := by decide
  have first : firstBlock? guardedBlocks =
      some (⟨"[x=\"\x7d\"]".toList, " @media (width > 9px) \x7b p \x7b x \x7d \x7d ".toList⟩,
        ' ' :: emptyBlock) := by decide
  have second : firstBlock? emptyBlock = some (⟨".b".toList, [' ']⟩, []) := by decide
  have only : OnlyBlocks ([] ++ guardedBlocks) :=
    .of_firstBlock? allBlank_nil first
      (.of_firstBlock? allBlank_space second (.blank allBlank_nil))
  have blocks : scopeBlocks guardedBlocks =
      [⟨"[x=\"\x7d\"]".toList, " @media (width > 9px) \x7b p \x7b x \x7d \x7d ".toList⟩,
        ⟨".b".toList, [' ']⟩] := by decide +kernel
  have unbraced : ∀ block ∈ scopeBlocks guardedBlocks, IsUnbraced block.root := by
    rw [blocks, List.forall_mem_cons, List.forall_mem_singleton]
    exact ⟨⟨by decide, unbraced_iff.mpr (by decide)⟩, ⟨by decide, unbraced_iff.mpr (by decide)⟩⟩
  obtain ⟨same, exposed⟩ := lower?_surround headless uncommented kept only unbraced
  have lowered : lower? guardedBlocks =
      some "@media (width > 9px) \x7b\n[x=\"\x7d\"] p \x7b x \x7d\n\x7d\n".toList := by
    decide +kernel
  have read : (scopeBlocks guardedBlocks).map (fun block => constructs block.lower) =
      [[⟨trim widePrelude, "\n[x=\"\x7d\"] p \x7b x \x7d\n".toList⟩], []] := by
    rw [blocks]
    decide +kernel
  -- All that is read of either block is an at-rule of the header.
  have guarded : ∀ block ∈ scopeBlocks guardedBlocks, ∀ construct ∈ constructs block.lower,
      construct.kind = .grouping ∧ construct.header = trim widePrelude := by
    intro block member construct inBlock
    have either : constructs block.lower ∈
        (scopeBlocks guardedBlocks).map fun block => constructs block.lower :=
      List.mem_map.mpr ⟨block, member, rfl⟩
    rw [read] at either
    rcases List.mem_cons.mp either with filled | empty
    · rw [filled, List.mem_singleton] at inBlock
      subst inBlock
      exact ⟨by decide, rfl⟩
    · rw [List.mem_singleton.mp empty] at inBlock
      cases inBlock
  refine ⟨headless, uncommented, kept, only, unbraced, _, same.trans lowered,
    fun rule outside => ?_⟩
  obtain ⟨block, member, within⟩ := (exposed _ (same.trans lowered) rule).mp outside
  cases within with
  | here inBlock kind =>
      rw [(guarded block member rule inBlock).1] at kind
      cases kind
  | inside inBlock _ other _ => exact other (guarded block member _ inBlock).2

def printPrelude : List Char := "@media print ".toList

def bareBlock : List Char := "@scope (.a) \x7b p \x7b x \x7d \x7d ".toList

/-- The rule of a block is written without the at-rule around the block. -/
theorem exists_exposed_in_surround :
    (['@', 'm', 'e', 'd', 'i', 'a'] <+: printPrelude ∧
      (∀ c ∈ printPrelude, c ∉ ['"', '\'', '\\', '{', '}', ';']) ∧
      Headless printPrelude ∧ ¬['/', '*'] <:+: printPrelude) ∧
    (withoutComments (' ' :: bareBlock) = ' ' :: bareBlock ∧ OnlyBlocks (' ' :: bareBlock) ∧
      ∀ block ∈ scopeBlocks (' ' :: bareBlock), block.root ≠ [] ∧ IsUnbraced block.root) ∧
    ∃ css, lower? (surround printPrelude (' ' :: bareBlock)) = some css ∧
      ∃ rule, Exposed (trim printPrelude) rule css := by
  have free : ∀ c ∈ printPrelude, (!(['"', '\'', '\\', '{', '}', ';'].contains c)) = true :=
    List.all_eq_true.mp (by decide)
  have first : firstBlock? bareBlock =
      some (⟨".a".toList, " p \x7b x \x7d ".toList⟩, [' ']) := by decide
  have blocks : scopeBlocks (' ' :: bareBlock) = [⟨".a".toList, " p \x7b x \x7d ".toList⟩] := by
    decide +kernel
  have lowered : lower? (surround printPrelude (' ' :: bareBlock)) =
      some ".a p \x7b x \x7d".toList := by decide +kernel
  have read : constructs ".a p \x7b x \x7d".toList = [⟨".a p".toList, " x ".toList⟩] := by
    decide +kernel
  refine ⟨⟨by decide, fun c member => ?_, by decide, by decide⟩, ⟨by decide, ?_, ?_⟩, _, lowered,
    ⟨".a p".toList, " x ".toList⟩, .here ?_ (by decide)⟩
  · simpa using free c member
  · exact .of_firstBlock? allBlank_space first (.blank allBlank_space)
  · rw [blocks, List.forall_mem_singleton]
    exact ⟨by decide, by decide, unbraced_iff.mpr (by decide)⟩
  · rw [read]
    exact List.mem_singleton_self _

end ScopeLowering.Stylesheet
