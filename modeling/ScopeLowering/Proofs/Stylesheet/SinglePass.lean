import ScopeLowering.Proofs.Stylesheet.Header

/-!
# One pass over a block

Reading a block starts a new scan at each header and at each body. A single pass with one
scan and one depth of braces, from the first character of the block to the last, reads the
same constructs, as every new scan starts where the single one is outside strings.
-/

namespace ScopeLowering.Stylesheet

open ScopeLowering.Text

/-- What a single pass remembers: the mode of its scan and the depth of braces, the header
and the body that it is reading, and the constructs that it has read. -/
structure Pass where
  mode : Mode
  depth : Nat
  header : List Char
  body : List Char
  read : List Construct

namespace Pass

def between (read : List Construct) : Pass := ⟨.plain, 0, [], [], read⟩

/-- A character that is no structural brace belongs to the header at depth zero, and to the
body at any other depth. -/
def keep (pass : Pass) (c : Char) : Pass :=
  match pass.depth with
  | 0 => { pass with header := pass.header ++ [c] }
  | _ + 1 => { pass with body := pass.body ++ [c] }

def opening (pass : Pass) : Pass :=
  match pass.depth with
  | 0 => { pass with depth := 1 }
  | depth + 1 => { pass with depth := depth + 2, body := pass.body ++ ['{'] }

/-- A closing brace at depth zero is text of the header; the one that brings the depth back
to zero ends the construct. -/
def closing (pass : Pass) : Pass :=
  match pass.depth with
  | 0 => { pass with header := pass.header ++ ['}'] }
  | 1 =>
      { pass with
        depth := 0
        header := []
        body := []
        read := pass.read ++ [⟨trim (dropStatements pass.header), pass.body⟩] }
  | depth + 2 => { pass with depth := depth + 1, body := pass.body ++ ['}'] }

def step (pass : Pass) (c : Char) : Pass :=
  let moved :=
    if pass.mode.structural c && c == '{' then pass.opening
    else if pass.mode.structural c && c == '}' then pass.closing
    else pass.keep c
  { moved with mode := pass.mode.next c }

def run (text : List Char) : Pass := text.foldl step (between [])

variable {mode : Mode} {depth : Nat} {header body text : List Char} {read : List Construct}

/-- The pass reads a header up to the brace that a search for one finds. -/
theorem read_foldl_header :
    (text.foldl step ⟨mode, 0, header, [], read⟩).read =
      (cutAt? '{' mode text).elim read fun cut =>
        (cut.2.foldl step ⟨.plain, 1, header ++ cut.1, [], read⟩).read := by
  induction text generalizing mode header with
  | nil => rfl
  | cons c text ih =>
      rw [List.foldl_cons, cutAt?]
      by_cases opens : (mode.structural c && c == '{') = true
      · obtain ⟨structural, rfl⟩ : mode.structural c = true ∧ c = '{' := by simpa using opens
        simp [step, opening, structural, Mode.next_of_structural structural]
      · have goesOn : step ⟨mode, 0, header, [], read⟩ c =
            ⟨mode.next c, 0, header ++ [c], [], read⟩ := by
          by_cases closes : (mode.structural c && c == '}') = true
          · obtain ⟨structural, rfl⟩ : mode.structural c = true ∧ c = '}' := by simpa using closes
            simp [step, closing, structural]
          · simp [step, keep, opens, closes]
        rw [goesOn, ih, if_neg opens]
        cases cutAt? '{' (mode.next c) text with
        | none => rfl
        | some cut => simp [Text.keep]

/-- The pass reads a body up to the brace that a search for the closing one finds. -/
theorem read_foldl_body :
    (text.foldl step ⟨mode, depth + 1, header, body, read⟩).read =
      (closing? '{' '}' depth mode text).elim read fun closed =>
        (closed.2.foldl step
          (between (read ++ [⟨trim (dropStatements header), body ++ closed.1⟩]))).read := by
  induction text generalizing mode depth body with
  | nil => rfl
  | cons c text ih =>
      have passed {found : Option (List Char × List Char)} :
          (Text.keep c found).elim read (fun closed =>
            (closed.2.foldl step
              (between (read ++ [⟨trim (dropStatements header), body ++ closed.1⟩]))).read) =
          found.elim read fun closed =>
            (closed.2.foldl step
              (between
                (read ++ [⟨trim (dropStatements header), body ++ [c] ++ closed.1⟩]))).read := by
        cases found with
        | none => rfl
        | some closed => simp [Text.keep]
      rw [List.foldl_cons]
      unfold closing?
      by_cases opens : (mode.structural c && c == '{') = true
      · obtain ⟨structural, rfl⟩ : mode.structural c = true ∧ c = '{' := by simpa using opens
        have deeper : step ⟨mode, depth + 1, header, body, read⟩ '{' =
            ⟨mode.next '{', depth + 2, header, body ++ ['{'], read⟩ := by
          simp [step, opening, structural]
        rw [deeper, ih, if_pos opens, passed]
      · rw [if_neg opens]
        by_cases closes : (mode.structural c && c == '}') = true
        · rw [if_pos closes]
          obtain ⟨structural, rfl⟩ : mode.structural c = true ∧ c = '}' := by simpa using closes
          have next : mode.next '}' = .plain := Mode.next_of_structural structural
          cases depth with
          | zero =>
              have ended : step ⟨mode, 0 + 1, header, body, read⟩ '}' =
                  between (read ++ [⟨trim (dropStatements header), body⟩]) := by
                simp [step, closing, structural, next, between]
              simp [ended]
          | succ depth =>
              have shallower : step ⟨mode, depth + 1 + 1, header, body, read⟩ '}' =
                  ⟨mode.next '}', depth + 1, header, body ++ ['}'], read⟩ := by
                simp [step, closing, structural]
              rw [shallower, ih, passed]
        · have goesOn : step ⟨mode, depth + 1, header, body, read⟩ c =
              ⟨mode.next c, depth + 1, header, body ++ [c], read⟩ := by
            simp [step, keep, opens, closes]
          rw [goesOn, ih, if_neg closes, passed]

/-- The pass reads the first construct of a block and then the text after it; it reads
nothing more where there is no first one. -/
theorem read_foldl_between :
    (text.foldl step (between read)).read =
      (firstConstruct? text).elim read fun first =>
        (first.2.foldl step (between (read ++ [first.1]))).read := by
  rw [between, read_foldl_header, firstConstruct?]
  cases cutAt? '{' .plain text with
  | none => rfl
  | some opened =>
      simp only [Option.elim_some, Option.bind_some, List.nil_append]
      rw [read_foldl_body, ← braced?]
      cases braced? opened.2 with
      | none => rfl
      | some closed => rfl

/-- From any constructs on, the pass adds those of the text. -/
theorem read_foldl_constructs :
    (text.foldl step (between read)).read = read ++ constructs text := by
  induction text using constructs.induct generalizing read with
  | case1 text first rest found ih =>
      rw [read_foldl_between, found, Option.elim_some, ih, constructs_of_some found,
        List.append_assoc, List.singleton_append]
  | case2 text none =>
      rw [read_foldl_between, none, Option.elim_none, constructs_of_none none, List.append_nil]

end Pass

/-- Reading with a new scan for every header and body is one pass over the whole block. -/
theorem constructs_eq_read_run (text : List Char) : constructs text = (Pass.run text).read := by
  rw [Pass.run, Pass.read_foldl_constructs, List.nil_append]

end ScopeLowering.Stylesheet
