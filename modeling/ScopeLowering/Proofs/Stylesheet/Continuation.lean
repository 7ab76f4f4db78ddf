import ScopeLowering.Proofs.Stylesheet.Enclosure

/-!
# Blocks that go on

A construct is complete at the brace that closes it. So the text behind a block adds constructs
and changes none of those that are there, wherever the block is cut off: in a string, behind a
backslash, in a header or in a body that is still open.
-/

namespace ScopeLowering.Stylesheet

open ScopeLowering.Text

theorem firstConstruct?_append {text rest : List Char} {construct : Construct}
    (found : firstConstruct? text = some (construct, rest)) (more : List Char) :
    firstConstruct? (text ++ more) = some (construct, rest ++ more) := by
  obtain ⟨before, rfl, unopened, plain, enclosed, header⟩ :=
    firstConstruct?_eq_some_iff.mp found
  exact firstConstruct?_eq_some_iff.mpr
    ⟨before, by simp, unopened, plain, enclosed, header⟩

/-- What no construct of a block takes up is read again with the text behind the block. -/
theorem exists_constructs_append (text : List Char) :
    ∃ rest, rest <:+ text ∧
      ∀ more, constructs (text ++ more) = constructs text ++ constructs (rest ++ more) := by
  induction text using constructs.induct with
  | case1 text construct behind found ih =>
      obtain ⟨rest, inside, goesOn⟩ := ih
      obtain ⟨before, shape, -⟩ := firstConstruct?_eq_some_iff.mp found
      have ends : behind <:+ text := ⟨before ++ '{' :: (construct.body ++ ['}']), by simp [shape]⟩
      refine ⟨rest, inside.trans ends, fun more => ?_⟩
      rw [constructs_of_some (firstConstruct?_append found more), constructs_of_some found,
        goesOn, List.cons_append]
  | case2 text none =>
      refine ⟨text, List.suffix_rfl, fun more => ?_⟩
      rw [constructs_of_none none, List.nil_append]

theorem joinLines_cons (first : List Char) (texts : List (List Char)) :
    joinLines (first :: texts) = first ++ texts.flatMap fun text => '\n' :: text := by
  induction texts generalizing first with
  | nil => simp [joinLines]
  | cons second texts ih =>
      rw [joinLines, List.intercalate_cons_cons, ← joinLines, ih, List.flatMap_cons]
      simp

theorem joinLines_prefix {texts texts' : List (List Char)} (within : texts <+: texts') :
    joinLines texts <+: joinLines texts' := by
  obtain ⟨more, rfl⟩ := within
  cases texts with
  | nil => exact List.nil_prefix
  | cons first texts =>
      rw [List.cons_append, joinLines_cons, joinLines_cons, List.flatMap_append,
        ← List.append_assoc]
      exact List.prefix_append ..

/-- Text behind a block changes nothing that is read of the block or written for it. -/
theorem lowerBlock_append_prefix (first second : List Char) :
    constructs first <+: constructs (first ++ second) ∧
      ∀ root levels, lowerBlock root levels first <+: lowerBlock root levels (first ++ second) := by
  obtain ⟨rest, -, goesOn⟩ := exists_constructs_append first
  have read : constructs first <+: constructs (first ++ second) :=
    ⟨constructs (rest ++ second), (goesOn second).symm⟩
  refine ⟨read, fun root levels => ?_⟩
  rw [lowerBlock_eq_joinLines, lowerBlock_eq_joinLines]
  exact joinLines_prefix (read.filterMap _)

end ScopeLowering.Stylesheet
