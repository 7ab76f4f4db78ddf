import ScopeLowering.Proofs.Text.Balance
import ScopeLowering.Proofs.Text.Keyword
import ScopeLowering.Stylesheet.Lowering

/-!
# Headers and bodies

What every construct of a block has in common, whatever the block: the header ends outside
strings, opens no brace and keeps no statement before it, and the body is enclosed. In an
enclosed block no header closes a brace either.

The statements before a header end behind the last semicolon at which no bracket is open. Brackets
count from the start of the text, and they may close more often than they open. So what is kept
starts at a depth of zero or less, and counted from there no semicolon is less deep.
-/

namespace ScopeLowering.Stylesheet

open ScopeLowering.Text

/-! ## Statements -/

def depthAfter (depth : Int) (characters : List Char) : Int := characters.foldl bracketDepth depth

def Guarded : Int → List Char → Prop
  | _, [] => True
  | depth, c :: characters => (c = ';' → 0 < depth) ∧ Guarded (bracketDepth depth c) characters

@[simp]
theorem depthAfter_nil (depth : Int) : depthAfter depth [] = depth := rfl

theorem depthAfter_cons (depth : Int) (c : Char) (characters : List Char) :
    depthAfter depth (c :: characters) = depthAfter (bracketDepth depth c) characters := rfl

theorem depthAfter_append (depth : Int) (first second : List Char) :
    depthAfter depth (first ++ second) = depthAfter (depthAfter depth first) second :=
  List.foldl_append

/-- The depth counts opening brackets less closing ones. -/
theorem depthAfter_eq (depth : Int) (characters : List Char) :
    depthAfter depth characters = depth + (characters.count '(' + characters.count '[') -
      (characters.count ')' + characters.count ']') := by
  induction characters generalizing depth with
  | nil => simp
  | cons c characters ih =>
      rw [depthAfter_cons, ih, bracketDepth]
      simp only [List.count_cons, beq_iff_eq]
      split
      · rename_i opens
        rcases opens with rfl | rfl <;> simp <;> omega
      · rename_i other
        rw [not_or] at other
        split
        · rename_i closes
          rcases closes with rfl | rfl <;> simp <;> omega
        · rename_i still
          rw [not_or] at still
          simp [other, still]

theorem bracketDepth_add (depth more : Int) (c : Char) :
    bracketDepth (depth + more) c = bracketDepth depth c + more := by
  unfold bracketDepth
  split
  · omega
  · split <;> omega

theorem guarded_append {depth : Int} {first second : List Char} :
    Guarded depth (first ++ second) ↔
      Guarded depth first ∧ Guarded (depthAfter depth first) second := by
  induction first generalizing depth with
  | nil => simp [Guarded]
  | cons c first ih => simp only [List.cons_append, Guarded, ih, depthAfter_cons, and_assoc]

/-- What is guarded stays so at a greater depth. -/
theorem Guarded.deeper {depth more : Int} {characters : List Char}
    (guarded : Guarded depth characters) (nonneg : 0 ≤ more) :
    Guarded (depth + more) characters := by
  induction characters generalizing depth with
  | nil => trivial
  | cons c characters ih =>
      refine ⟨fun semicolon => ?_, ?_⟩
      · have := guarded.1 semicolon
        omega
      · rw [bracketDepth_add]
        exact ih guarded.2

/-- The characters that decide how constructs are read. -/
def weights : List Char := ['(', ')', '[', ']', '{', '}', ';']

theorem light_of_not_mem_marks {c : Char} (unmarked : c ∉ marks) : c ∉ weights := by
  have within : ∀ weight ∈ weights, weight ∈ marks := by simp [weights, marks]
  exact fun member => unmarked (within c member)

theorem AllBlank.light {text : List Char} (blank : AllBlank text) : ∀ c ∈ text, c ∉ weights :=
  fun c member => light_of_not_mem_marks (not_mem_marks_of_isBlank (blank c member))

theorem depthAfter_of_light {depth : Int} {characters : List Char}
    (light : ∀ c ∈ characters, c ∉ weights) : depthAfter depth characters = depth := by
  induction characters with
  | nil => rfl
  | cons c characters ih =>
      have bracket : bracketDepth depth c = depth := by
        have := light c List.mem_cons_self
        simp only [weights, List.mem_cons, List.not_mem_nil, or_false, not_or] at this
        simp [bracketDepth, this]
      rw [depthAfter_cons, bracket]
      exact ih fun other member => light other (List.mem_cons_of_mem _ member)

theorem guarded_of_not_mem {depth : Int} {characters : List Char} (absent : ';' ∉ characters) :
    Guarded depth characters := by
  induction characters generalizing depth with
  | nil => trivial
  | cons c characters ih =>
      rw [List.mem_cons, not_or] at absent
      exact ⟨fun semicolon => absurd semicolon.symm absent.1, ih absent.2⟩

/-- Nothing is dropped exactly where every semicolon is guarded. -/
theorem afterStatements?_eq_none_iff {depth : Int} {mode : Mode} {text : List Char} :
    afterStatements? depth mode text = none ↔ Guarded depth (mode.skeleton text) := by
  induction text generalizing depth mode with
  | nil => simp [afterStatements?, Guarded]
  | cons c text ih =>
      by_cases structural : mode.structural c = true
      · rw [Mode.skeleton_of_structural structural, Guarded,
          ← Mode.next_of_structural structural, ← ih, afterStatements?, if_pos structural]
        have unguarded : (c = ';' → 0 < depth) ↔ ¬(c = ';' ∧ depth ≤ 0) := by
          rw [not_and, Int.not_le]
        rw [unguarded]
        cases afterStatements? (bracketDepth depth c) (mode.next c) text with
        | none => simp [Option.orElse]
        | some kept => simp [Option.orElse]
      · rw [Mode.skeleton_of_not_structural structural, afterStatements?, if_neg structural, ih]

/-- What is kept follows a semicolon of depth zero or less, and is guarded from that depth on. -/
theorem exists_of_afterStatements? {depth : Int} {mode : Mode} {text rest : List Char}
    (found : afterStatements? depth mode text = some rest) :
    ∃ before, text = before ++ ';' :: rest ∧ (mode.after before).structural ';' = true ∧
      depthAfter depth (mode.skeleton before) ≤ 0 ∧
      Guarded (depthAfter depth (mode.skeleton before)) (Mode.plain.skeleton rest) := by
  induction text generalizing depth mode with
  | nil => simp [afterStatements?] at found
  | cons c text ih =>
      have goesOn {inner : Int}
          (moved : ∀ tail, depthAfter depth (mode.skeleton (c :: tail)) =
            depthAfter inner ((mode.next c).skeleton tail))
          (later : afterStatements? inner (mode.next c) text = some rest) :
          ∃ before, c :: text = before ++ ';' :: rest ∧
            (mode.after before).structural ';' = true ∧
            depthAfter depth (mode.skeleton before) ≤ 0 ∧
            Guarded (depthAfter depth (mode.skeleton before)) (Mode.plain.skeleton rest) := by
        obtain ⟨before, rfl, structural, shallow, guarded⟩ := ih later
        refine ⟨c :: before, rfl, structural, ?_, ?_⟩
        · rwa [moved]
        · rwa [moved]
      by_cases structural : mode.structural c = true
      · rw [afterStatements?, if_pos structural] at found
        cases later : afterStatements? (bracketDepth depth c) (mode.next c) text with
        | some kept =>
            rw [later] at found
            obtain rfl := Option.some.inj found
            refine goesOn (fun tail => ?_) later
            rw [Mode.skeleton_of_structural structural, depthAfter_cons,
              Mode.next_of_structural structural]
        | none =>
            rw [later, Option.orElse] at found
            split at found
            · rename_i ends
              obtain rfl := Option.some.inj found
              obtain ⟨rfl, shallow⟩ := ends
              have guarded := afterStatements?_eq_none_iff.mp later
              rw [Mode.next_of_structural structural] at guarded
              exact ⟨[], rfl, structural, shallow, guarded⟩
            · cases found
      · rw [afterStatements?, if_neg structural] at found
        refine goesOn (fun tail => ?_) found
        rw [Mode.skeleton_of_not_structural structural]

theorem dropStatements_of_guarded {text : List Char}
    (guarded : Guarded 0 (Mode.plain.skeleton text)) : dropStatements text = text := by
  rw [dropStatements, afterStatements?_eq_none_iff.mpr guarded, Option.getD_none]

/-- The statements dropped end outside strings, and what is kept drops none again. -/
theorem exists_dropped (text : List Char) :
    ∃ dropped, text = dropped ++ dropStatements text ∧ Mode.plain.after dropped = .plain ∧
      Guarded 0 (Mode.plain.skeleton (dropStatements text)) := by
  cases found : afterStatements? 0 .plain text with
  | none =>
      have guarded := afterStatements?_eq_none_iff.mp found
      rw [dropStatements_of_guarded guarded]
      exact ⟨[], rfl, rfl, guarded⟩
  | some rest =>
      obtain ⟨before, shape, structural, shallow, guarded⟩ := exists_of_afterStatements? found
      have kept : dropStatements text = rest := by rw [dropStatements, found, Option.getD_some]
      rw [kept]
      refine ⟨before ++ [';'], by simp [shape], ?_, ?_⟩
      · rw [Mode.after_append, Mode.after_cons, Mode.next_of_structural structural, Mode.after_nil]
      · have deeper := guarded.deeper (Int.neg_nonneg_of_nonpos shallow)
        rwa [Int.add_right_neg] at deeper

/-- A text behind which a semicolon ends a statement: it ends outside strings, no backslash
waits, and at most as many brackets open in it as close. -/
structure EndsStatement (before : List Char) : Prop where
  plain : Mode.plain.after before = .plain
  shallow : (Mode.plain.skeleton before).count '(' + (Mode.plain.skeleton before).count '[' ≤
    (Mode.plain.skeleton before).count ')' + (Mode.plain.skeleton before).count ']'

theorem endsStatement_iff {before : List Char} :
    EndsStatement before ↔
      Mode.plain.after before = .plain ∧ depthAfter 0 (Mode.plain.skeleton before) ≤ 0 := by
  rw [depthAfter_eq]
  constructor
  · rintro ⟨plain, shallow⟩
    exact ⟨plain, by omega⟩
  · rintro ⟨plain, shallow⟩
    exact ⟨plain, by omega⟩

/-- A guarded text has no semicolon outside strings at depth zero or less. -/
theorem Guarded.depth_pos {depth : Int} {before after : List Char}
    (guarded : Guarded depth (Mode.plain.skeleton (before ++ ';' :: after)))
    (plain : Mode.plain.after before = .plain) :
    0 < depthAfter depth (Mode.plain.skeleton before) := by
  rw [Mode.skeleton_append, plain, Mode.skeleton_of_structural rfl, guarded_append] at guarded
  exact guarded.2.1 rfl

/-- The statements before a header are cut off once and for all: the cut is behind the last
semicolon that ends a statement, and in what is kept no semicolon ends one, neither with the
brackets before the cut nor without them. -/
theorem dropStatements_final (text : List Char) :
    ∃ dropped, text = dropped ++ dropStatements text ∧
      (dropped = [] ∨ ∃ statements, dropped = statements ++ [';'] ∧ EndsStatement statements) ∧
      (∀ before after, dropStatements text = before ++ ';' :: after →
        ¬EndsStatement (dropped ++ before) ∧ ¬EndsStatement before) ∧
      dropStatements (dropStatements text) = dropStatements text := by
  obtain ⟨-, -, -, fresh⟩ := exists_dropped text
  have later {before after : List Char} (whole : dropStatements text = before ++ ';' :: after) :
      ¬EndsStatement before := by
    intro ends
    obtain ⟨plain, shallow⟩ := endsStatement_iff.mp ends
    rw [whole] at fresh
    exact absurd (fresh.depth_pos plain) (Int.not_lt.mpr shallow)
  cases found : afterStatements? 0 .plain text with
  | none =>
      have kept : dropStatements text = text :=
        dropStatements_of_guarded (afterStatements?_eq_none_iff.mp found)
      exact ⟨[], kept.symm, .inl rfl, fun _ _ whole => ⟨later whole, later whole⟩,
        dropStatements_of_guarded fresh⟩
  | some rest =>
      obtain ⟨statements, shape, structural, shallow, guarded⟩ := exists_of_afterStatements? found
      have plain := Mode.eq_plain_of_structural structural
      have kept : dropStatements text = rest := by rw [dropStatements, found, Option.getD_some]
      refine ⟨statements ++ [';'], ?_,
        .inr ⟨statements, rfl, endsStatement_iff.mpr ⟨plain, shallow⟩⟩,
        fun before after whole => ⟨fun ends => ?_, later whole⟩, dropStatements_of_guarded fresh⟩
      · rw [kept, List.append_assoc]
        exact shape
      · obtain ⟨inside, outside⟩ := endsStatement_iff.mp ends
        rw [List.append_assoc, List.singleton_append, Mode.after_append, plain,
          Mode.after_cons] at inside
        rw [List.append_assoc, List.singleton_append, Mode.skeleton_append, plain,
          Mode.skeleton_of_structural rfl, depthAfter_append, depthAfter_cons] at outside
        rw [← kept, whole] at guarded
        exact absurd (guarded.depth_pos inside) (Int.not_lt.mpr outside)

example : dropStatements "@import 'a;';x);(;y;[;]b;\\;p".toList = "\\;p".toList := by decide

/-! ## Constructs -/

/-- A header that can be read back: with a blank and an opening brace behind it, a fresh
scan comes to that brace first and keeps the whole header. -/
structure IsHeader (header : List Char) : Prop where
  settled : (Mode.plain.after header).Settled
  unopened : '{' ∉ Mode.plain.skeleton header
  guarded : Guarded 0 (Mode.plain.skeleton header)
  trimmed : Trimmed header

structure Construct.WellFormed (construct : Construct) : Prop where
  header : IsHeader construct.header
  body : Enclosed '{' '}' construct.body

theorem mem_skeleton_trim {text : List Char} {c : Char}
    (member : c ∈ Mode.plain.skeleton (trim text)) : c ∈ Mode.plain.skeleton text := by
  obtain ⟨lead, tail, -, -, shape⟩ := exists_skeleton_trim text
  rw [shape]
  exact List.mem_append_left _ (List.mem_append_right _ member)

theorem mem_skeleton_dropStatements {text : List Char} {c : Char}
    (member : c ∈ Mode.plain.skeleton (dropStatements text)) : c ∈ Mode.plain.skeleton text := by
  obtain ⟨dropped, shape, plain, -⟩ := exists_dropped text
  rw [shape, Mode.skeleton_append, plain]
  exact List.mem_append_right _ member

theorem guarded_trim {text : List Char} (guarded : Guarded 0 (Mode.plain.skeleton text)) :
    Guarded 0 (Mode.plain.skeleton (trim text)) := by
  obtain ⟨lead, tail, blankLead, -, shape⟩ := exists_skeleton_trim text
  rw [shape, guarded_append, guarded_append,
    depthAfter_of_light (AllBlank.light blankLead)] at guarded
  exact guarded.1.2

/-- The text before an opening brace gives a header. -/
theorem isHeader_of_cut {before : List Char} (unopened : '{' ∉ Mode.plain.skeleton before)
    (plain : Mode.plain.after before = .plain) : IsHeader (trim (dropStatements before)) := by
  obtain ⟨dropped, shape, droppedPlain, guarded⟩ := exists_dropped before
  refine ⟨settled_trim ?_, fun member => ?_, guarded_trim guarded, trimmed_trim _⟩
  · rw [shape, Mode.after_append, droppedPlain] at plain
    exact Or.inl plain
  · exact unopened (mem_skeleton_dropStatements (mem_skeleton_trim member))

/-- Where the first construct of a block stands. -/
theorem firstConstruct?_eq_some_iff {text rest : List Char} {construct : Construct} :
    firstConstruct? text = some (construct, rest) ↔
      ∃ before, text = before ++ '{' :: (construct.body ++ '}' :: rest) ∧
        '{' ∉ Mode.plain.skeleton before ∧ Mode.plain.after before = .plain ∧
        Enclosed '{' '}' construct.body ∧ construct.header = trim (dropStatements before) := by
  simp only [firstConstruct?, Option.bind_eq_some_iff, Option.map_eq_some_iff, Prod.exists,
    Prod.mk.injEq]
  constructor
  · rintro ⟨before, opened, cut, inside, closed, matched, rfl, rfl⟩
    obtain ⟨rfl, unopened, structural⟩ := cutAt?_eq_some_iff.mp cut
    obtain ⟨rfl, enclosed⟩ := braced?_eq_some_iff.mp matched
    exact ⟨before, rfl, unopened, Mode.eq_plain_of_structural structural, enclosed, rfl⟩
  · rintro ⟨before, rfl, unopened, plain, enclosed, header⟩
    refine ⟨before, construct.body ++ '}' :: rest,
      cutAt?_eq_some_iff.mpr ⟨rfl, unopened, by rw [plain]; rfl⟩, construct.body, rest,
      braced?_eq_some_iff.mpr ⟨rfl, enclosed⟩, ?_, rfl⟩
    rw [← header]

theorem constructs_of_some {text rest : List Char} {construct : Construct}
    (first : firstConstruct? text = some (construct, rest)) :
    constructs text = construct :: constructs rest := by
  rw [constructs]
  split
  · rename_i found
    rw [first] at found
    obtain ⟨rfl, rfl⟩ := Prod.mk.inj (Option.some.inj found)
    rfl
  · rename_i found
    rw [first] at found
    cases found

theorem constructs_of_none {text : List Char} (none : firstConstruct? text = none) :
    constructs text = [] := by
  rw [constructs]
  split
  · rename_i found
    rw [none] at found
    cases found
  · rfl

/-- Every construct that is read is well formed. -/
theorem wellFormed_of_mem_constructs {text : List Char} {construct : Construct}
    (member : construct ∈ constructs text) : construct.WellFormed := by
  induction text using constructs.induct with
  | case1 text first rest found ih =>
      rw [constructs_of_some found, List.mem_cons] at member
      rcases member with rfl | later
      · obtain ⟨before, -, unopened, plain, enclosed, header⟩ :=
          firstConstruct?_eq_some_iff.mp found
        refine ⟨?_, enclosed⟩
        rw [header]
        exact isHeader_of_cut unopened plain
      · exact ih later
  | case2 text none =>
      rw [constructs_of_none none] at member
      cases member

/-- Where no brace closes before it opens, no header closes one. -/
theorem unclosed_of_mem_constructs {text : List Char} {construct : Construct}
    (covered : ∀ first, first <+: Mode.plain.skeleton text → first.count '}' ≤ first.count '{')
    (member : construct ∈ constructs text) : '}' ∉ Mode.plain.skeleton construct.header := by
  induction text using constructs.induct with
  | case1 text first rest found ih =>
      obtain ⟨before, shape, unopened, plain, enclosed, header⟩ :=
        firstConstruct?_eq_some_iff.mp found
      have skeleton : Mode.plain.skeleton text =
          Mode.plain.skeleton before ++
            ('{' :: (Mode.plain.skeleton first.body ++ '}' :: Mode.plain.skeleton rest)) := by
        rw [shape, Mode.skeleton_append, plain, Mode.skeleton_of_structural rfl,
          Mode.skeleton_append, enclosed.plain, Mode.skeleton_of_structural rfl]
      have noOpener : (Mode.plain.skeleton before).count '{' = 0 := List.count_eq_zero.mpr unopened
      have noCloser : (Mode.plain.skeleton before).count '}' = 0 := by
        have := covered _ (skeleton ▸ List.prefix_append _ _)
        omega
      rw [constructs_of_some found, List.mem_cons] at member
      rcases member with rfl | later
      · rw [header]
        exact fun inside => List.count_eq_zero.mp noCloser
          (mem_skeleton_dropStatements (mem_skeleton_trim inside))
      · refine ih (fun start within => ?_) later
        obtain ⟨more, whole⟩ := within
        have bound := covered (Mode.plain.skeleton before ++
          ('{' :: (Mode.plain.skeleton first.body ++ '}' :: start)))
            ⟨more, by rw [skeleton, ← whole]; simp⟩
        have level := enclosed.balanced.level
        rw [List.count_append, List.count_append, noOpener, noCloser, List.count_cons,
          List.count_cons, List.count_append, List.count_append, List.count_cons, List.count_cons]
          at bound
        simp only [beq_iff_eq, Char.reduceEq, if_true, if_false] at bound
        omega
  | case2 text none =>
      rw [constructs_of_none none] at member
      cases member

end ScopeLowering.Stylesheet
