import Mathlib.Data.List.DropRight
import ScopeLowering.Proofs.Text.Skeleton
import ScopeLowering.Text.Characters

/-!
# Trimming

A text is blanks, its trimmed part, and blanks again. Blanks are structural characters
that stand for no structure, so trimming leaves a scan where it was, but for a backslash
whose blank is taken away.
-/

namespace ScopeLowering.Text

def AllBlank (text : List Char) : Prop := ∀ c ∈ text, isBlank c = true

/-- The blanks, one by one. There are few of them, so what holds for each can be decided. -/
def blankCharacters : List Char :=
  blankRanges.flatMap fun range => (List.range' range.1 (range.2 + 1 - range.1)).map Char.ofNat

theorem mem_blankCharacters {c : Char} (blank : isBlank c = true) : c ∈ blankCharacters := by
  obtain ⟨range, member, within⟩ := List.any_eq_true.mp blank
  simp only [Bool.and_eq_true, decide_eq_true_eq] at within
  refine List.mem_flatMap.mpr ⟨range, member, List.mem_map.mpr ⟨c.toNat, ?_, Char.ofNat_toNat c⟩⟩
  rw [List.mem_range'_1]
  omega

structure Trimmed (text : List Char) : Prop where
  first : ∀ c ∈ text.head?, isBlank c = false
  last : ∀ c ∈ text.getLast?, isBlank c = false

theorem allBlank_nil : AllBlank [] := fun _ member => absurd member List.not_mem_nil

theorem allBlank_space : AllBlank [' '] := List.all_eq_true.mp (by decide)

theorem allBlank_line : AllBlank ['\n'] := List.all_eq_true.mp (by decide)

theorem allBlank_append {first second : List Char} :
    AllBlank (first ++ second) ↔ AllBlank first ∧ AllBlank second :=
  List.forall_mem_append

theorem trimmed_nil : Trimmed [] where
  first := fun _ member => absurd member (by simp)
  last := fun _ member => absurd member (by simp)

theorem dropTrailing_eq_rdropWhile {α : Type} (holds : α → Bool) (values : List α) :
    dropTrailing holds values = values.rdropWhile holds := rfl

theorem exists_trimStart (text : List Char) : ∃ gap, AllBlank gap ∧ text = gap ++ trimStart text :=
  ⟨text.takeWhile isBlank, fun _ member => List.mem_takeWhile_imp member,
    (List.takeWhile_append_dropWhile).symm⟩

/-- Trimming takes blanks away at both ends. -/
theorem exists_trim_parts (text : List Char) :
    ∃ lead tail, AllBlank lead ∧ AllBlank tail ∧ text = lead ++ trim text ++ tail := by
  refine ⟨text.takeWhile isBlank, (trimStart text).rtakeWhile isBlank, fun c member => ?_,
    fun c member => List.mem_rtakeWhile_imp member, ?_⟩
  · exact List.mem_takeWhile_imp member
  · rw [trim, trimEnd, dropTrailing_eq_rdropWhile, List.append_assoc,
      List.rdropWhile_append_rtakeWhile, trimStart, List.takeWhile_append_dropWhile]

theorem trimmed_trim (text : List Char) : Trimmed (trim text) where
  first := by
    intro c member
    have nonempty : trimStart text ≠ [] := by
      intro empty
      simp [trim, empty, trimEnd] at member
    have same : c ∈ (trimStart text).head? := by
      obtain ⟨rest, whole⟩ := List.rdropWhile_prefix isBlank (trimStart text)
      rw [← whole, List.head?_append]
      rw [trim, trimEnd, dropTrailing_eq_rdropWhile] at member
      rw [Option.mem_def.mp member]
      rfl
    rw [List.head?_eq_some_head nonempty, Option.mem_some] at same
    subst same
    exact List.head_dropWhile_not isBlank nonempty
  last := by
    intro c member
    have nonempty : trim text ≠ [] := by
      intro empty
      simp [empty] at member
    rw [List.getLast?_eq_some_getLast nonempty, Option.mem_some] at member
    subst member
    exact Bool.eq_false_iff.mpr (List.rdropWhile_last_not isBlank (trimStart text) nonempty)

theorem trim_of_trimmed {text : List Char} (trimmed : Trimmed text) : trim text = text := by
  have start : trimStart text = text := by
    cases text with
    | nil => rfl
    | cons c text =>
        rw [trimStart, List.dropWhile_cons_of_neg]
        simp [trimmed.first c rfl]
  rw [trim, start, trimEnd, dropTrailing_eq_rdropWhile, List.rdropWhile_eq_self_iff]
  intro nonempty
  simp [trimmed.last _ (List.getLast?_eq_some_getLast nonempty)]

theorem trim_blank_append {lead : List Char} (blank : AllBlank lead) (text : List Char) :
    trim (lead ++ text) = trim text := by
  rw [trim, trimStart, List.dropWhile_append_of_pos blank, ← trimStart, ← trim]

theorem trimEnd_append_blank {tail : List Char} (blank : AllBlank tail) (text : List Char) :
    trimEnd (text ++ tail) = trimEnd text := by
  rw [trimEnd, dropTrailing, List.reverse_append, List.dropWhile_append_of_pos, ← dropTrailing,
    ← trimEnd]
  exact fun c member => blank c (List.mem_reverse.mp member)

theorem trim_eq_nil_iff {text : List Char} : trim text = [] ↔ AllBlank text := by
  constructor
  · intro empty
    obtain ⟨lead, tail, blankLead, blankTail, shape⟩ := exists_trim_parts text
    rw [shape, empty, List.append_nil]
    exact allBlank_append.mpr ⟨blankLead, blankTail⟩
  · intro blank
    rw [← List.append_nil text, trim_blank_append blank, trim_nil]

theorem trim_append_blank {tail : List Char} (blank : AllBlank tail) (text : List Char) :
    trim (text ++ tail) = trim text := by
  by_cases start : trimStart text = []
  · have blankText : AllBlank text := List.dropWhile_eq_nil_iff.mp start
    rw [trim_eq_nil_iff.mpr blankText, trim_eq_nil_iff.mpr (allBlank_append.mpr ⟨blankText, blank⟩)]
  · have kept : trimStart (text ++ tail) = trimStart text ++ tail := by
      rw [trimStart, List.dropWhile_append, ← trimStart, if_neg (by simpa using start)]
    rw [trim, kept, trimEnd_append_blank blank, ← trim]

/-! ## Scanning blanks -/

/-- No blank is a quotation mark or a backslash. -/
theorem ordinary_of_isBlank {c : Char} (blank : isBlank c = true) :
    Mode.plain.structural c = true := by
  have visible : ∀ mark ∈ ['\\', '\'', '"'], (!isBlank mark) = true :=
    List.all_eq_true.mp (by decide)
  refine Mode.structural_plain_iff.mpr fun mark => ?_
  simpa [blank] using visible c mark

theorem AllBlank.ordinary {text : List Char} (blank : AllBlank text) :
    ∀ c ∈ text, Mode.plain.structural c = true :=
  fun c member => ordinary_of_isBlank (blank c member)

/-- Trimming leaves a scan outside strings where it ended there. -/
theorem settled_trim {text : List Char} (settled : (Mode.plain.after text).Settled) :
    (Mode.plain.after (trim text)).Settled := by
  obtain ⟨lead, tail, blankLead, blankTail, shape⟩ := exists_trim_parts text
  rw [shape, Mode.after_append, Mode.settled_after_iff blankTail.ordinary, Mode.after_append,
    Mode.after_of_ordinary blankLead.ordinary] at settled
  exact settled

/-- The skeleton of a text is that of its trimmed part with blanks around it. -/
theorem exists_skeleton_trim (text : List Char) :
    ∃ lead tail, AllBlank lead ∧ AllBlank tail ∧
      Mode.plain.skeleton text = lead ++ Mode.plain.skeleton (trim text) ++ tail := by
  obtain ⟨lead, tail, blankLead, blankTail, shape⟩ := exists_trim_parts text
  refine ⟨lead, (Mode.plain.after (lead ++ trim text)).skeleton tail, blankLead,
    fun c member => blankTail c (Mode.mem_of_mem_skeleton member), ?_⟩
  conv_lhs => rw [shape]
  rw [Mode.skeleton_append, Mode.skeleton_append, Mode.skeleton_of_ordinary blankLead.ordinary,
    Mode.after_of_ordinary blankLead.ordinary]

end ScopeLowering.Text
