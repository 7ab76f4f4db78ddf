import Mathlib.Algebra.GroupWithZero.Nat
import ScopeLowering.Stylesheet.Lowering

/-!
# Templates

Texts with gaps for a root. What is written with the help of a template depends on the root
in one way only: the root stands in the gaps, and the text around them is the same for all
roots.
-/

namespace ScopeLowering.Stylesheet

/-- A text with gaps: a character, or nothing where the root goes. -/
abbrev Template := List (Option Char)

namespace Template

def fill (root : List Char) (template : Template) : List Char :=
  template.flatMap fun piece => piece.elim root fun c => [c]

def gaps (template : Template) : Nat := template.count none

def ofText (text : List Char) : Template := text.map some

def braces (header body : Template) : Template :=
  header ++ some ' ' :: some '{' :: (body ++ [some '}'])

def join (separator : List Char) (templates : List Template) : Template :=
  (ofText separator).intercalate templates

variable {root : List Char}

@[simp]
theorem fill_nil : fill root [] = [] := rfl

@[simp]
theorem fill_gap (template : Template) :
    fill root (none :: template) = root ++ fill root template :=
  rfl

@[simp]
theorem fill_char (c : Char) (template : Template) :
    fill root (some c :: template) = c :: fill root template := rfl

theorem fill_append (first second : Template) :
    fill root (first ++ second) = fill root first ++ fill root second :=
  List.flatMap_append

@[simp]
theorem fill_ofText (text : List Char) : fill root (ofText text) = text := by
  induction text with
  | nil => rfl
  | cons c text ih =>
      change c :: fill root (ofText text) = c :: text
      rw [ih]

theorem fill_braces (header body : Template) :
    fill root (braces header body) = Stylesheet.braces (fill root header) (fill root body) := by
  simp [braces, Stylesheet.braces, fill_append]

theorem fill_join (separator : List Char) (templates : List Template) :
    fill root (join separator templates) = separator.intercalate (templates.map (fill root)) := by
  induction templates with
  | nil => rfl
  | cons first templates ih =>
      cases templates with
      | nil => simp [join]
      | cons second templates =>
          rw [join, List.intercalate_cons_cons, ← join, fill_append, fill_append, fill_ofText, ih]
          simp [List.intercalate_cons_cons]

/-- Under a root that is not empty, a template fills to nothing only where it is nothing. -/
theorem fill_eq_nil_iff (rooted : root ≠ []) {template : Template} :
    fill root template = [] ↔ template = [] := by
  cases template with
  | nil => simp
  | cons piece template => cases piece <;> simp [rooted]

@[simp]
theorem gaps_nil : gaps [] = 0 := rfl

theorem gaps_append (first second : Template) : (first ++ second).gaps = first.gaps + second.gaps :=
  List.count_append

@[simp]
theorem gaps_gap (template : Template) : gaps (none :: template) = template.gaps + 1 :=
  List.count_cons_self

@[simp]
theorem gaps_char (c : Char) (template : Template) : gaps (some c :: template) = template.gaps :=
  List.count_cons_of_ne (by simp)

@[simp]
theorem gaps_ofText (text : List Char) : (ofText text).gaps = 0 := by
  induction text with
  | nil => rfl
  | cons c text ih => rwa [ofText, List.map_cons, gaps_char]

theorem gaps_braces (header body : Template) :
    (braces header body).gaps = header.gaps + body.gaps := by
  simp [braces, gaps_append]

theorem gaps_join (separator : List Char) (templates : List Template) :
    (join separator templates).gaps = (templates.map gaps).sum := by
  induction templates with
  | nil => rfl
  | cons first templates ih =>
      cases templates with
      | nil => simp [join]
      | cons second templates =>
          rw [join, List.intercalate_cons_cons, ← join, gaps_append, gaps_append, gaps_ofText, ih]
          simp

/-- A template is the text before its first gap and the texts after each gap. -/
theorem exists_pieces (template : Template) :
    ∃ (first : List Char) (others : List (List Char)), others.length = template.gaps ∧
      ∀ root, fill root template = first ++ others.flatMap (root ++ ·) := by
  induction template with
  | nil => exact ⟨[], [], rfl, fun _ => rfl⟩
  | cons piece template ih =>
      obtain ⟨first, others, length, filled⟩ := ih
      cases piece with
      | none =>
          refine ⟨[], first :: others, by simp [length], fun root => ?_⟩
          simp [filled root]
      | some c =>
          refine ⟨c :: first, others, by simp [length], fun root => ?_⟩
          simp [filled root]

end Template

end ScopeLowering.Stylesheet
