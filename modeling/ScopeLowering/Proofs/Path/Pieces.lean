import ScopeLowering.Path

/-!
# Pieces of paths

Joining two paths joins their pieces. The components of a path that is not empty and starts
without a slash are those of its pieces that are steps, after a leading dot if it has one.
-/

namespace ScopeLowering.Path

theorem pieces_ne_nil (path : String) : pieces path ≠ [] := by
  simp [pieces, List.splitOn_ne_nil]

theorem pieces_append_slash (first second : String) :
    pieces (first ++ "/" ++ second) = pieces first ++ pieces second := by
  have spelled : (first ++ "/" ++ second).toList = first.toList ++ '/' :: second.toList := by
    simp [String.toList_append]
  rw [pieces, spelled, List.splitOn, List.splitOnP_append_cons _ _ (by simp), List.map_append]
  rfl

theorem pieces_of_no_slash {name : String} (plain : '/' ∉ name.toList) : pieces name = [name] := by
  rw [pieces, List.splitOn_eq_singleton plain, List.map_singleton, String.ofList_toList]

theorem slash_not_mem_of_mem_splitOn {text part : List Char} (member : part ∈ text.splitOn '/') :
    '/' ∉ part := by
  induction text generalizing part with
  | nil =>
      rw [List.splitOn_nil, List.mem_singleton] at member
      rw [member]
      exact List.not_mem_nil
  | cons c text ih =>
      rw [List.splitOn_cons_eq_if_modifyHead] at member
      split at member
      · rcases List.mem_cons.mp member with rfl | member
        · exact List.not_mem_nil
        · exact ih member
      · rename_i ordinary
        obtain ⟨first, rest, split⟩ := List.exists_cons_of_ne_nil (List.splitOn_ne_nil '/' text)
        rw [split, List.modifyHead_cons] at member
        rw [split] at ih
        rcases List.mem_cons.mp member with rfl | member
        · rw [List.mem_cons, not_or]
          exact ⟨fun slash => ordinary (beq_iff_eq.mpr slash.symm), ih List.mem_cons_self⟩
        · exact ih (List.mem_cons_of_mem _ member)

theorem slash_not_mem_of_mem_pieces {path piece : String} (member : piece ∈ pieces path) :
    '/' ∉ piece.toList := by
  obtain ⟨part, inside, rfl⟩ := List.mem_map.mp member
  rw [String.toList_ofList]
  exact slash_not_mem_of_mem_splitOn inside

/-- A path with a slash at its end is another path and that slash. -/
theorem exists_of_hasFinalSlash {path : String} (slashed : hasFinalSlash path = true) :
    ∃ bare, path = bare ++ "/" := by
  have last : path.toList.getLast? = some '/' := by simpa [hasFinalSlash] using slashed
  obtain ⟨before, spelled⟩ := List.getLast?_eq_some_iff.mp last
  refine ⟨String.ofList before, String.toList_inj.mp ?_⟩
  rw [spelled, String.toList_append, String.toList_ofList]
  rfl

/-- The pieces of a joined path, where one slash at the end of the directory is not doubled. -/
theorem pieces_join {directory path : String} (named : directory ≠ "")
    (relative : isAbsolute path = false) :
    ∃ front, pieces (join directory path) = front ++ pieces path ∧
      (pieces directory = front ∨ pieces directory = front ++ [""]) := by
  unfold join
  rw [if_neg (by simp [relative])]
  by_cases slashed : hasFinalSlash directory = true
  · obtain ⟨bare, rfl⟩ := exists_of_hasFinalSlash slashed
    rw [if_pos (by simp [slashed]), pieces_append_slash]
    refine ⟨pieces bare, rfl, .inr ?_⟩
    have ended := pieces_append_slash bare ""
    rw [String.append_empty] at ended
    exact ended
  · rw [if_neg (by simp [named, slashed]), pieces_append_slash]
    exact ⟨pieces directory, rfl, .inl rfl⟩

theorem isAbsolute_append {first : String} (named : first ≠ "") (second : String) :
    isAbsolute (first ++ second) = isAbsolute first := by
  have spelled : first.toList ≠ [] := by simpa using named
  obtain ⟨c, text, same⟩ := List.exists_cons_of_ne_nil spelled
  simp [isAbsolute, String.toList_append, same]

theorem relative_of_join {directory path : String} (named : directory ≠ "")
    (relative : isAbsolute (join directory path) = false) :
    isAbsolute directory = false ∧ isAbsolute path = false := by
  unfold join at relative
  split at relative
  · rename_i absolute
    rw [absolute] at relative
    cases relative
  · rename_i inner
    rw [Bool.not_eq_true] at inner
    refine ⟨?_, inner⟩
    split at relative
    · rwa [isAbsolute_append named] at relative
    · have slashed : directory ++ "/" ≠ "" := by simp
      rwa [isAbsolute_append slashed, isAbsolute_append named] at relative

theorem isAbsolute_join {directory path : String} (named : directory ≠ "")
    (outer : isAbsolute directory = false) (inner : isAbsolute path = false) :
    isAbsolute (join directory path) = false := by
  unfold join
  rw [if_neg (by simp [inner])]
  split
  · rwa [isAbsolute_append named]
  · have slashed : directory ++ "/" ≠ "" := by simp
    rwa [isAbsolute_append slashed, isAbsolute_append named]

theorem join_ne_empty {directory path : String} (named : directory ≠ "") :
    join directory path ≠ "" := by
  unfold join
  split
  · rename_i absolute
    rintro rfl
    cases absolute
  · split <;> simp [named]

/-- The first piece of a path is empty only where the path starts with a slash. -/
theorem exists_pieces_cons {path : String} (named : path ≠ "")
    (relative : isAbsolute path = false) :
    ∃ first rest, pieces path = first :: rest ∧ first ≠ "" := by
  have spelled : path.toList ≠ [] := by simpa using named
  obtain ⟨c, text, same⟩ := List.exists_cons_of_ne_nil spelled
  have ordinary : c ≠ '/' := by simpa [isAbsolute, same] using relative
  obtain ⟨first, rest, split⟩ := List.exists_cons_of_ne_nil (List.splitOn_ne_nil '/' text)
  refine ⟨String.ofList (c :: first), rest.map String.ofList, ?_, by simp⟩
  rw [pieces, same, List.splitOn_cons_eq_if_modifyHead, split]
  simp [ordinary]

/-! ## Components -/

def Component.name? : Component → Option String
  | .name text => some text
  | _ => none

def names (path : String) : List String := (components path).filterMap Component.name?

theorem innerComponent?_eq (piece : String) :
    innerComponent? piece = none ∧ isIdle piece = true ∨
      innerComponent? piece = some .up ∧ piece = ".." ∧ isIdle piece = false ∨
      innerComponent? piece = some (.name piece) ∧ piece ≠ ".." ∧ isIdle piece = false := by
  unfold innerComponent?
  split
  · rename_i idle
    exact .inl ⟨rfl, idle⟩
  · rename_i busy
    rw [Bool.not_eq_true] at busy
    split
    · rename_i dots
      exact .inr (.inl ⟨rfl, dots, busy⟩)
    · rename_i named
      exact .inr (.inr ⟨rfl, named, busy⟩)

theorem components_eq {path : String} (named : path ≠ "") (relative : isAbsolute path = false) :
    components path = (if (pieces path).head? = some "." then [.here] else []) ++
      (pieces path).filterMap innerComponent? := by
  obtain ⟨first, rest, split, nonempty⟩ := exists_pieces_cons named relative
  rw [components, split]
  dsimp only
  by_cases dot : first = "."
  · simp [dot, innerComponent?, isIdle]
  · simp only [nonempty, dot, if_false, List.head?_cons, Option.some.injEq, List.nil_append]
    rw [List.filterMap_cons]
    cases innerComponent? first <;> rfl

theorem up_not_mem_pieces {path : String} (named : path ≠ "")
    (relative : isAbsolute path = false) (level : .up ∉ components path) :
    ".." ∉ pieces path := by
  intro member
  rw [components_eq named relative] at level
  exact level (List.mem_append_right _ (List.mem_filterMap.mpr ⟨"..", member, rfl⟩))

/-- Without steps up, a path is its names, after a leading dot if it has one. -/
theorem components_eq_names {path : String} (named : path ≠ "")
    (relative : isAbsolute path = false) (level : .up ∉ components path) :
    names path = (pieces path).filter (fun piece => !isIdle piece) ∧
      components path = (if .here ∈ components path then [.here] else []) ++
        (names path).map .name := by
  have spelled := components_eq named relative
  have steps : (pieces path).filterMap innerComponent? =
      ((pieces path).filter fun piece => !isIdle piece).map .name := by
    have inner : .up ∉ (pieces path).filterMap innerComponent? := by
      rw [spelled, List.mem_append, not_or] at level
      exact level.2
    generalize pieces path = parts at inner
    induction parts with
    | nil => rfl
    | cons piece parts ih =>
        rw [List.filterMap_cons] at inner ⊢
        rcases innerComponent?_eq piece with ⟨step, idle⟩ | ⟨step, -, -⟩ | ⟨step, -, busy⟩
        · rw [step] at inner ⊢
          simp [idle, ih inner]
        · rw [step] at inner
          exact absurd List.mem_cons_self inner
        · rw [step] at inner ⊢
          simp [busy, ih fun up => inner (List.mem_cons_of_mem _ up)]
  have unnamed : ∀ parts : List String, (parts.map Component.name).filterMap Component.name? =
      parts := by
    intro parts
    rw [List.filterMap_map]
    exact List.filterMap_some
  have listed : names path = (pieces path).filter (fun piece => !isIdle piece) := by
    rw [names, spelled, steps, List.filterMap_append, unnamed]
    split <;> rfl
  have dotted : .here ∈ components path ↔ (pieces path).head? = some "." := by
    rw [spelled, steps]
    split <;> simp [*]
  refine ⟨listed, ?_⟩
  rw [listed, ← steps]
  simp only [dotted]
  exact spelled

/-- Paths without steps up that spell the same names are the same path, unless just one of
them starts with a dot. -/
theorem components_eq_of_names_eq {first second : String}
    (named : first ≠ "" ∧ second ≠ "")
    (relative : isAbsolute first = false ∧ isAbsolute second = false)
    (level : .up ∉ components first ∧ .up ∉ components second)
    (dots : .here ∈ components first ↔ .here ∈ components second)
    (same : names first = names second) : components first = components second := by
  rw [(components_eq_names named.1 relative.1 level.1).2,
    (components_eq_names named.2 relative.2 level.2).2, same]
  simp only [dots]

end ScopeLowering.Path
