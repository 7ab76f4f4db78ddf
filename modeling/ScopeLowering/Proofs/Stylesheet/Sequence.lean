import ScopeLowering.Proofs.Stylesheet.Header
import ScopeLowering.Stylesheet.Lowering

/-!
# Texts in a row

Blanks between constructs do not count, and a header with a body in braces is read to its
closing brace. So texts that are made of these are read one by one when they stand in a row.
-/

namespace ScopeLowering.Stylesheet

open ScopeLowering.Text

/-! ## Blanks -/

theorem trim_dropStatements_blank_cons {c : Char} (blank : isBlank c = true) (text : List Char) :
    trim (dropStatements (c :: text)) = trim (dropStatements text) := by
  have blankCons : AllBlank [c] := by
    rintro other member
    rwa [List.mem_singleton.mp member]
  have light : c ∉ weights := AllBlank.light blankCons c List.mem_cons_self
  have depth : bracketDepth 0 c = 0 :=
    depthAfter_of_light (AllBlank.light blankCons)
  have semicolon : c ≠ ';' := by
    rintro rfl
    exact light (by decide)
  have same : afterStatements? 0 .plain (c :: text) = afterStatements? 0 .plain text := by
    have structural := ordinary_of_isBlank blank
    rw [afterStatements?, if_pos structural, depth, Mode.next_of_structural structural]
    cases afterStatements? 0 .plain text <;> simp [semicolon]
  rw [dropStatements, dropStatements, same]
  cases afterStatements? 0 .plain text with
  | none => exact trim_blank_append blankCons text
  | some rest => rfl

theorem firstConstruct?_blank_cons {c : Char} (blank : isBlank c = true) (text : List Char) :
    firstConstruct? (c :: text) = firstConstruct? text := by
  have structural := ordinary_of_isBlank blank
  have brace : c ≠ '{' := by
    rintro rfl
    exact absurd blank (by decide)
  have cut : cutAt? '{' .plain (c :: text) = keep c (cutAt? '{' .plain text) := by
    rw [cutAt?, if_neg (by simp [brace]), Mode.next_of_structural structural]
  rw [firstConstruct?, firstConstruct?, cut]
  cases cutAt? '{' .plain text with
  | none => rfl
  | some opened =>
      simp only [keep, Option.map_some, Option.bind_some]
      rw [trim_dropStatements_blank_cons blank]

theorem constructs_blank_append {lead : List Char} (blank : AllBlank lead) (text : List Char) :
    constructs (lead ++ text) = constructs text := by
  induction lead with
  | nil => rfl
  | cons c lead ih =>
      have first := firstConstruct?_blank_cons (blank c List.mem_cons_self) (lead ++ text)
      have later : AllBlank lead := fun other member => blank other (List.mem_cons_of_mem c member)
      rw [← ih later, List.cons_append]
      cases found : firstConstruct? (lead ++ text) with
      | none => rw [constructs_of_none found, constructs_of_none (first.trans found)]
      | some read => rw [constructs_of_some found, constructs_of_some (first.trans found)]

@[simp]
theorem constructs_nil : constructs [] = [] := constructs_of_none rfl

theorem constructs_of_blank {text : List Char} (blank : AllBlank text) : constructs text = [] := by
  rw [← List.append_nil text, constructs_blank_append blank, constructs_nil]

/-! ## Texts that are read to their end -/

/-- A text that is read to its end: what follows it is read as if it stood alone. -/
def Finished (text : List Char) : Prop :=
  ∀ rest, constructs (text ++ rest) = constructs text ++ constructs rest

/-- A header that opens no brace is read with the body in braces behind it. -/
theorem firstConstruct?_braces {header body : List Char}
    (settled : (Mode.plain.after header).Settled) (unopened : '{' ∉ Mode.plain.skeleton header)
    (inside : Enclosed '{' '}' body) (rest : List Char) :
    firstConstruct? (braces header body ++ rest) =
      some (⟨trim (dropStatements (header ++ [' '])), body⟩, rest) := by
  refine firstConstruct?_eq_some_iff.mpr ⟨header ++ [' '], ?_, ?_, ?_, inside, rfl⟩
  · simp [braces]
  · rw [Mode.skeleton_append, List.mem_append, not_or]
    refine ⟨unopened, fun member => ?_⟩
    simpa using Mode.mem_of_mem_skeleton member
  · rw [Mode.after_append, Mode.after_cons, settled.next_eq rfl, Mode.after_nil]

theorem finished_braces {header body : List Char} (settled : (Mode.plain.after header).Settled)
    (unopened : '{' ∉ Mode.plain.skeleton header) (inside : Enclosed '{' '}' body) :
    Finished (braces header body) := by
  have first := firstConstruct?_braces settled unopened inside
  intro rest
  have alone := first []
  rw [List.append_nil] at alone
  rw [constructs_of_some (first rest), constructs_of_some alone, constructs_nil,
    List.singleton_append]

/-- Finished texts on lines of their own are read one by one. -/
theorem constructs_joinLines {texts : List (List Char)}
    (finished : ∀ text ∈ texts, Finished text) (rest : List Char) :
    constructs (joinLines texts ++ rest) = texts.flatMap constructs ++ constructs rest := by
  induction texts with
  | nil => rfl
  | cons first texts ih =>
      have start := finished first List.mem_cons_self
      have others := ih fun text member => finished text (List.mem_cons_of_mem _ member)
      cases texts with
      | nil =>
          rw [joinLines, List.intercalate_singleton, start, List.flatMap_singleton]
      | cons second texts =>
          rw [List.flatMap_cons, joinLines, List.intercalate_cons_cons, ← joinLines,
            List.append_assoc, List.append_assoc, start, constructs_blank_append allBlank_line,
            others, List.append_assoc]

theorem finished_joinLines {texts : List (List Char)}
    (finished : ∀ text ∈ texts, Finished text) : Finished (joinLines texts) := by
  intro rest
  have alone := constructs_joinLines finished []
  rw [List.append_nil, constructs_nil, List.append_nil] at alone
  rw [constructs_joinLines finished, alone]

end ScopeLowering.Stylesheet
