import ScopeLowering.Proofs.Files.Above
import ScopeLowering.Proofs.Files.Growth

/-!
# Making directories again

Directories that were made are there when they are made again. A directory that could not be made
cannot be made later, whatever the tree has grown by in between: what stood in the way stays, and
a directory above it that was missing could not be made either.
-/

namespace ScopeLowering.Files.Tree

variable {tree later made : Tree} {key : Key} {node : Node} {front rest before above : List String}
  {path parent last : String} {fault : Fault}

/-! ## Paths that go on -/

/-- A path that goes on from where another one leads. -/
theorem follow_append : tree.follow key node (front ++ rest) =
    match tree.follow key node front with
    | .ok (.occupied next child) => tree.follow next child rest
    | .ok (.vacant target) =>
        if rest.all (· = "") then .ok (.vacant target) else .error .notFound
    | .error fault => .error fault := by
  induction front generalizing key node with
  | nil => rfl
  | cons piece front ih =>
      rw [List.cons_append, follow.eq_def, follow.eq_def tree key node (piece :: front)]
      dsimp only
      split
      · rfl
      · split
        · exact ih
        · split
          · rfl
          · split
            · exact ih
            · split
              · split
                · exact ih
                · rfl
              · split
                · exact ih
                · rw [List.all_append]
                  cases front.all (· = "") <;> simp

/-- A path that is not found although all before its last piece is there ends with a step up from
the top. -/
theorem step_up_of_notFound (idle : ∀ piece ∈ before, Path.isIdle piece = true)
    (failed : tree.follow key node (before ++ [last]) = .error .notFound) :
    last = ".." ∧ (key = [] ∨ tree.nodes.get? key.dropLast = none) := by
  induction before with
  | nil =>
      rw [List.nil_append, follow.eq_def] at failed
      dsimp only at failed
      split at failed
      · cases failed
      · split at failed
        · cases failed
        · split at failed
          · cases failed
          · split at failed
            · cases failed
            · split at failed
              · rename_i dots
                refine ⟨dots, ?_⟩
                cases parent : tree.nodes.get? key.dropLast with
                | none => exact .inr rfl
                | some outer =>
                    cases key with
                    | nil => exact .inl rfl
                    | cons first others =>
                        rw [parent] at failed
                        cases failed
              · split at failed
                · cases failed
                · cases failed
  | cons piece before ih =>
      have onward := ih fun other member => idle other (List.mem_cons_of_mem piece member)
      rw [List.cons_append, follow.eq_def] at failed
      dsimp only at failed
      split at failed
      · cases failed
      · split at failed
        · exact onward failed
        · rename_i named
          split at failed
          · cases failed
          · have dot : piece = "." := by
              simpa [Path.isIdle, named] using idle piece List.mem_cons_self
            rw [if_pos dot] at failed
            exact onward failed

/-- Only the top of the tree has nothing above it. -/
theorem eq_nil_of_absent_above {top : Node} (here : tree.nodes.get? [] = some top)
    (arrived : tree.follow [] top front = .ok (.occupied key node))
    (level : key = [] ∨ tree.nodes.get? key.dropLast = none) : key = [] := by
  rcases level with nothing | absent
  · exact nothing
  · rcases List.eq_nil_or_concat key with nothing | ⟨outer, name, rfl⟩
    · exact nothing
    · rw [List.concat_eq_append] at arrived absent
      rw [List.dropLast_concat] at absent
      obtain ⟨directory, there, -⟩ := hasDirectory_of_follow here
        (fun other before shorter => absurd (List.prefix_nil.mp before) shorter) arrived outer
        (List.prefix_append outer [name]) (by simp)
      rw [absent] at there
      cases there

/-- No step goes up from the top. -/
theorem exists_fault_of_step_up (idle : ∀ piece ∈ before, Path.isIdle piece = true) :
    ∃ fault, tree.follow [] node (before ++ [".."]) = .error fault := by
  cases found : tree.follow [] node (before ++ [".."]) with
  | error fault => exact ⟨fault, rfl⟩
  | ok place =>
      exfalso
      rw [follow_append] at found
      split at found
      · rename_i next child arrived
        obtain ⟨rfl, rfl⟩ := eq_of_follow_idle idle arrived
        obtain ⟨-, ⟨wrong, -⟩ | ⟨-, wrong, -⟩ | ⟨⟨-, -, wrong⟩, -⟩⟩ := follow_cons_ok found
        · exact absurd wrong (by decide)
        · exact wrong rfl
        · exact wrong rfl
      · cases found
      · cases found

/-- A path that ends with a dot leads to a directory, if anywhere. -/
theorem directory_of_final_dot {pieces : List String} {place : Place}
    (ended : pieces.getLast? = some ".") (found : tree.follow key node pieces = .ok place) :
    ∃ target last, place = .occupied target last ∧ last.isDirectory = true := by
  obtain ⟨front, rfl⟩ := List.getLast?_eq_some_iff.mp ended
  rw [follow_append] at found
  split at found
  · rename_i next child _
    obtain ⟨directory, ⟨-, stays⟩ | ⟨wrong, -⟩ | ⟨⟨-, wrong, -⟩, -⟩⟩ := follow_cons_ok found
    · exact ⟨next, child, (Except.ok.inj stays).symm, directory⟩
    · exact absurd wrong (by decide)
    · exact absurd rfl wrong
  · cases found
  · cases found

/-- The directory of a free name is there. -/
theorem exists_above_of_follow_vacant {pieces : List String} {target : Key}
    (here : tree.nodes.get? key = some node)
    (found : tree.follow key node pieces = .ok (.vacant target)) :
    ∃ outer, tree.nodes.get? target.dropLast = some outer := by
  induction pieces generalizing key node with
  | nil => simp [follow] at found
  | cons piece rest ih =>
      obtain ⟨-, ⟨-, onward⟩ | ⟨-, -, parent, there, onward⟩ |
        ⟨-, ⟨child, there, onward⟩ | ⟨-, -, vacant⟩⟩⟩ := follow_cons_ok found
      · exact ih here onward
      · exact ih there onward
      · exact ih there onward
      · obtain rfl := Place.vacant.inj vacant
        exact ⟨node, by rw [List.dropLast_concat]; exact here⟩

theorem exists_above_of_locate_vacant (found : tree.locate path = .ok (.vacant key)) :
    ∃ outer, tree.nodes.get? key.dropLast = some outer := by
  unfold locate at found
  split at found
  · rename_i top here
    split at found
    · cases found
    · exact exists_above_of_follow_vacant here found
  · cases found

/-- The entry at the parent of a path that leads somewhere is a directory. -/
def Ready (tree : Tree) (path : String) : Prop := path = "" ∨ tree.isDirectory path = true

theorem Grows.ready (grows : tree.Grows later) (ready : tree.Ready path) : later.Ready path :=
  ready.imp_right grows.isDirectory

theorem usual_of_locate {place : Place} (found : tree.locate path = .ok place) :
    path ≠ "" ∧ Path.isAbsolute path = false ∧ ∃ top, tree.nodes.get? [] = some top ∧
      tree.follow [] top (Path.pieces path) = .ok place := by
  unfold locate at found
  split at found
  · rename_i top here
    split at found
    · cases found
    · rename_i usual
      rw [Bool.or_eq_true, decide_eq_true_eq, not_or, Bool.not_eq_true] at usual
      exact ⟨usual.1, usual.2, top, here, found⟩
  · cases found

/-- A path that leads somewhere has a directory above. -/
theorem ready_of_locate {place : Place} (above : Path.parent? path = some parent)
    (found : tree.locate path = .ok place) : tree.Ready parent := by
  obtain ⟨named, relative, top, here, followed⟩ := usual_of_locate found
  rcases Path.single_or_hasParent named relative with ⟨first, after, single⟩ |
    ⟨outer, before, last, after, has⟩
  · exact .inl (Option.some.inj (above.symm.trans single.parent?))
  · obtain rfl := Option.some.inj (above.symm.trans has.parent?)
    rw [has.split, follow_append] at followed
    have busy : ¬ (before ++ last :: after).all (· = "") = true := by
      intro blank
      have empty : last = "" := by
        simpa using List.all_eq_true.mp blank last (by simp)
      have loud := has.step
      rw [empty] at loud
      cases loud
    split at followed
    · rename_i key node there
      refine .inr (isDirectory_iff.mpr ⟨key, node,
        locate_eq_occupied_iff.mpr ⟨has.named, has.relative, top, here, there⟩, ?_⟩)
      obtain ⟨first, others, split⟩ := List.exists_cons_of_ne_nil
        (show before ++ last :: after ≠ [] by simp)
      rw [split] at followed
      exact (follow_cons_ok followed).1
    · rw [if_neg busy] at followed
      cases followed
    · cases followed

/-! ## What fails again -/

/-- A path without an idle end that is not found in its directory is never found. -/
theorem Grows.exists_fault_of_notFound (grows : tree.Grows later) (tidy : Path.Tidy path)
    (ready : ∀ parent, Path.parent? path = some parent → tree.Ready parent)
    (failed : tree.locate path = .error .notFound) : ∃ fault, later.locate path = .error fault := by
  cases found : later.locate path with
  | error fault => exact ⟨fault, rfl⟩
  | ok place =>
      exfalso
      obtain ⟨named, relative, kept, there, followed⟩ := usual_of_locate found
      obtain ⟨top, here⟩ : ∃ top, tree.nodes.get? [] = some top := by
        cases top : tree.nodes.get? [] with
        | some node => exact ⟨node, rfl⟩
        | none => exact absurd rfl (grows.grown [] kept top there).1
      have missing : tree.follow [] top (Path.pieces path) = .error .notFound := by
        simpa [locate, here, named, relative] using failed
      rcases Path.single_or_hasParent named relative with ⟨first, after, single⟩ |
        ⟨parent, before, last, after, has⟩
      · rw [single.split, single.after_eq_nil tidy, ← List.nil_append [first]] at missing followed
        obtain ⟨rfl, -⟩ := step_up_of_notFound (by simp) missing
        have stuck : ∃ fault, later.follow [] kept ([] ++ [".."]) = .error fault :=
          exists_fault_of_step_up (by simp)
        obtain ⟨fault, stuck⟩ := stuck
        rw [stuck] at followed
        cases followed
      · rcases ready parent has.parent? with none | directory
        · exact has.named none
        · obtain ⟨outer, node, located, -⟩ := isDirectory_iff.mp directory
          obtain ⟨-, -, root, again, arrived⟩ := locate_eq_occupied_iff.mp located
          obtain rfl := Option.some.inj (here.symm.trans again)
          have becomes := grows.becomes_locate parent
          rw [located] at becomes
          generalize now : later.locate parent = result at becomes
          cases becomes with
          | occupied kept alike =>
              obtain ⟨-, -, root, again, onward⟩ := locate_eq_occupied_iff.mp now
              obtain rfl := Option.some.inj (there.symm.trans again)
              rw [has.split, has.after_eq_nil tidy] at missing followed
              rw [follow_append_of_ok arrived] at missing
              rw [follow_append_of_ok onward] at followed
              obtain ⟨rfl, level⟩ := step_up_of_notFound has.idle.1 missing
              obtain rfl := eq_nil_of_absent_above here arrived level
              obtain ⟨fault, stuck⟩ := exists_fault_of_step_up has.idle.1
              rw [stuck] at followed
              cases followed

theorem create_of_closed {outer : Node} (above : tree.nodes.get? key.dropLast = some outer)
    (closed : ¬ outer.isOpen) (entry : Entry) : tree.create key entry = .error .denied := by
  rw [create, above]
  split
  · rename_i same
    obtain rfl := Option.some.inj same
    exact absurd ⟨rfl, rfl⟩ closed
  · rfl
  · rename_i none
    cases none

/-- A name that cannot be taken stays free. -/
theorem Grows.free_of_closed (grows : tree.Grows later)
    (vacant : tree.locate path = .ok (.vacant key)) {entry : Entry}
    (failed : tree.create key entry = .error fault) :
    later.locate path = .ok (.vacant key) ∧ ∀ entry, later.create key entry = .error .denied := by
  obtain ⟨outer, above⟩ := exists_above_of_locate_vacant vacant
  have closed : ¬ outer.isOpen := by
    intro allows
    rw [create_of_open above allows] at failed
    cases failed
  obtain ⟨kept, still, alike⟩ := grows.stays _ outer above
  have shut : ¬ kept.isOpen := by
    rintro ⟨directory, writable⟩
    exact closed ⟨alike.isDirectory.symm.trans directory, alike.access.symm.trans writable⟩
  have free : later.nodes.get? key = none := by
    cases taken : later.nodes.get? key with
    | none => rfl
    | some node =>
        obtain ⟨-, other, there, allows⟩ :=
          grows.grown key node (absent_of_locate_vacant vacant) taken
        obtain rfl := Option.some.inj (still.symm.trans there)
        exact absurd allows shut
  refine ⟨?_, create_of_closed still shut⟩
  have becomes := grows.becomes_locate path
  rw [vacant] at becomes
  generalize later.locate path = result at becomes
  cases becomes with
  | vacant absent => rfl
  | taken there =>
      rw [free] at there
      cases there
  | behind there file slash =>
      rw [free] at there
      cases there

theorem isDirectory_of_error (failed : tree.locate path = .error fault) :
    tree.isDirectory path = false := by
  simp [isDirectory, stat, failed]

theorem locate_of_makeDirectory (failed : tree.makeDirectory path = .error .notFound) :
    tree.locate path = .error .notFound := by
  unfold makeDirectory at failed
  split at failed
  · rename_i fault located
    rw [located, Except.error.inj failed]
  · cases failed
  · rename_i key vacant
    obtain ⟨outer, above⟩ := exists_above_of_locate_vacant vacant
    by_cases allows : outer.isOpen
    · rw [create_of_open above allows] at failed
      cases failed
    · rw [create_of_closed above allows] at failed
      cases failed

/-- What stands in the way of a directory stays there. -/
theorem Grows.exists_fault_of_makeDirectory (grows : tree.Grows later)
    (failed : tree.makeDirectory path = .error fault) (other : tree.isDirectory path = false)
    (missing : fault = .notFound → ∃ fault, later.locate path = .error fault) :
    later.isDirectory path = false ∧ ∃ again, later.makeDirectory path = .error again ∧
      (again = .notFound → fault = .notFound) := by
  have becomes := grows.becomes_locate path
  unfold makeDirectory at failed
  split at failed
  · rename_i first located
    obtain rfl := Except.error.inj failed
    by_cases absent : first = .notFound
    · obtain ⟨again, gone⟩ := missing absent
      exact ⟨isDirectory_of_error gone, again, by rw [makeDirectory, gone], fun _ => absent⟩
    · rw [located] at becomes
      generalize now : later.locate path = result at becomes
      cases becomes with
      | failed => exact ⟨isDirectory_of_error now, first, by rw [makeDirectory, now], id⟩
      | missing result => exact absurd rfl absent
  · rename_i key node located
    have file : node.isDirectory = false := by
      rw [← Bool.not_eq_true]
      intro directory
      rw [isDirectory_of_locate located directory] at other
      cases other
    rw [located] at becomes
    generalize now : later.locate path = result at becomes
    cases becomes with
    | occupied there alike =>
        refine ⟨?_, .alreadyExists, by rw [makeDirectory, now], by simp⟩
        simp [Tree.isDirectory, stat, now, alike.isDirectory, file]
  · rename_i key located
    obtain ⟨free, denied⟩ := grows.free_of_closed located failed
    refine ⟨by simp [Tree.isDirectory, stat, free], .denied, ?_, by simp⟩
    simp [makeDirectory, free, denied]

/-! ## Chains of directories -/

theorem makeChain_of_isDirectory (directory : tree.isDirectory path = true) :
    tree.makeChain (path :: above) = (tree, none) := by
  obtain ⟨key, node, located, -⟩ := isDirectory_iff.mp directory
  simp [makeChain, makeDirectory, located, makeChain.settle, directory]

theorem isDirectory_of_makeDirectory (done : tree.makeDirectory path = .ok made) :
    made.isDirectory path = true := by
  have grows := grows_makeDirectory done
  unfold makeDirectory at done
  split at done
  · cases done
  · cases done
  · rename_i key vacant
    have taken : made.nodes.get? key = some ⟨.directory, .writable⟩ := by
      rw [create_eq_ok done]
      exact Table.get?_insert_self ..
    have becomes := grows.becomes_locate path
    rw [vacant] at becomes
    generalize now : made.locate path = result at becomes
    cases becomes with
    | vacant absent =>
        rw [absent] at taken
        cases taken
    | taken there =>
        obtain rfl := Option.some.inj (there.symm.trans taken)
        exact isDirectory_of_locate now rfl
    | behind there file slash =>
        obtain rfl := Option.some.inj (there.symm.trans taken)
        cases file

/-- A chain without its first directory ends with a failure that leaves the tree as the chain
above leaves it. -/
theorem exists_fault_of_makeChain (other : tree.isDirectory path = false)
    (failed : tree.makeDirectory path = .error fault)
    (stays : fault = .notFound → (tree.makeChain above).1 = tree) :
    ∃ again, tree.makeChain (path :: above) = (tree, some again) := by
  rw [makeChain, failed]
  by_cases absent : fault = .notFound
  · subst absent
    have same := stays rfl
    generalize chained : tree.makeChain above = result at same
    obtain ⟨ready, outcome⟩ := result
    obtain rfl : ready = tree := same
    cases outcome with
    | some stopped => exact ⟨stopped, rfl⟩
    | none => exact ⟨.notFound, by simp [failed, makeChain.settle, other]⟩
  · refine ⟨fault, ?_⟩
    split
    · rename_i wrong
      cases wrong
    · rename_i wrong
      exact absurd (Except.error.inj wrong) absent
    · rename_i same
      obtain rfl := Except.error.inj same
      simp [makeChain.settle, other]

/-- A chain of directories comes to the same end in every tree that has grown out of the one that
it leaves. -/
structure Lasting (paths : List String) (path : String) : Prop where
  ready : ∀ tree made : Tree, tree.makeChain paths = (made, none) → made.Ready path
  idle : ∀ tree : Tree, tree.Ready path → tree.makeChain paths = (tree, none)
  fails : ∀ (tree made later : Tree) fault, tree.makeChain paths = (made, some fault) →
    made.Grows later → ∃ again, later.makeChain paths = (later, some again)

theorem lasting_nil : Lasting [] "" where
  ready := fun _ _ _ => .inl rfl
  idle := fun _ _ => rfl
  fails := by
    intro tree made later fault failed
    cases failed

/-- All that a chain can do with its first directory. The directories above it are made only if
it is not found. -/
inductive Chains (tree : Tree) (path : String) (above : List String) : Tree × Option Fault → Prop
  | stuck {ready : Tree} {fault : Fault} (inner : tree.makeChain above = (ready, some fault)) :
      Chains tree path above (ready, some fault)
  | made {ready made : Tree} (done : ready.makeDirectory path = .ok made) :
      Chains tree path above (made, none)
  | present {ready : Tree} (directory : ready.isDirectory path = true) :
      Chains tree path above (ready, none)
  | barred {ready : Tree} {fault : Fault}
      (reached : fault ≠ .notFound ∨ tree.makeChain above = (ready, none))
      (failed : ready.makeDirectory path = .error fault) (other : ready.isDirectory path = false) :
      Chains tree path above (ready, some fault)

theorem chains_settle {ready : Tree} {result : Except Fault Tree}
    (settled : ready.makeDirectory path = result)
    (reached : ∀ fault, result = .error fault →
      fault ≠ .notFound ∨ tree.makeChain above = (ready, none)) :
    Chains tree path above (makeChain.settle ready path result) := by
  cases result with
  | ok made => exact .made settled
  | error fault =>
      rw [makeChain.settle]
      split
      · exact .present ‹_›
      · rename_i other
        exact .barred (reached fault rfl) settled (by simpa using other)

theorem chains (tree : Tree) (path : String) (above : List String) :
    Chains tree path above (tree.makeChain (path :: above)) := by
  rw [makeChain]
  split
  · exact .made ‹_›
  · split
    · exact .stuck ‹_›
    · exact chains_settle rfl fun _ _ => .inr ‹_›
  · rename_i fault other failed
    refine chains_settle failed ?_
    intro again same
    obtain rfl := Except.error.inj same
    exact .inl other

/-- A chain lasts with one more directory, if that is found only where the chain above leads to,
and is missing there for good. -/
theorem Lasting.cons (lasting : Lasting above parent) (named : path ≠ "")
    (passes : ∀ (tree : Tree) place, tree.locate path = .ok place → tree.Ready parent)
    (missing : ∀ tree later : Tree, tree.Ready parent → tree.Grows later →
      tree.locate path = .error .notFound → ∃ fault, later.locate path = .error fault) :
    Lasting (path :: above) path where
  idle := by
    rintro tree (none | directory)
    · exact absurd none named
    · exact makeChain_of_isDirectory directory
  ready := by
    intro tree made chained
    have cases := chains tree path above
    rw [chained] at cases
    cases cases with
    | made done => exact .inr (isDirectory_of_makeDirectory done)
    | present directory => exact .inr directory
  fails := by
    intro tree made later fault chained grows
    have cases := chains tree path above
    rw [chained] at cases
    cases cases with
    | stuck inner =>
        obtain ⟨again, stuck⟩ := lasting.fails tree made later fault inner grows
        -- A path that leads somewhere would let the chain above succeed.
        cases found : later.locate path with
        | ok place =>
            rw [lasting.idle later (passes later place found)] at stuck
            cases stuck
        | error gone =>
            exact exists_fault_of_makeChain (isDirectory_of_error found)
              (by rw [makeDirectory, found]) fun _ => by rw [stuck]
    | barred reached failed other =>
        have inside (absent : fault = .notFound) : made.Ready parent := by
          rcases reached with present | inner
          · exact absurd absent present
          · exact lasting.ready tree made inner
        obtain ⟨others, again, stuck, kind⟩ := grows.exists_fault_of_makeDirectory failed other
          fun absent => missing made later (inside absent) grows
            (locate_of_makeDirectory (absent ▸ failed))
        refine exists_fault_of_makeChain others stuck ?_
        intro absent
        rw [lasting.idle later (grows.ready (inside (kind absent)))]

theorem locate_of_isAbsolute (absolute : Path.isAbsolute path = true) :
    tree.locate path = .error .notFound := by
  cases found : tree.locate path with
  | ok place =>
      obtain ⟨-, relative, -⟩ := usual_of_locate found
      rw [absolute] at relative
      cases relative
  | error fault =>
      unfold locate at found
      split at found
      · rw [absolute, Bool.or_true, if_pos rfl] at found
        exact found.symm
      · exact found.symm

theorem climb_empty (fuel : Nat) : Path.ancestors.climb fuel "" = [] := by
  cases fuel with
  | zero => rfl
  | succ fuel => simp [Path.ancestors.climb]

theorem climb_succ (named : path ≠ "") (fuel : Nat) : Path.ancestors.climb (fuel + 1) path =
    path :: Path.ancestors.climb fuel ((Path.parent? path).getD "") := by
  rw [Path.ancestors.climb, if_neg named]
  cases Path.parent? path with
  | none => rw [Option.getD_none, climb_empty]
  | some parent => rfl

theorem Lasting.cons_of_isAbsolute (lasting : Lasting above parent)
    (absolute : Path.isAbsolute path = true) : Lasting (path :: above) path := by
  apply lasting.cons (Path.ne_empty_of_isAbsolute absolute)
  · intro tree place found
    rw [locate_of_isAbsolute absolute] at found
    cases found
  · exact fun _ _ _ _ _ => ⟨_, locate_of_isAbsolute absolute⟩

/-- No directory is made outside the tree. -/
theorem lasting_of_isAbsolute (absolute : Path.isAbsolute path = true) (fuel : Nat) :
    Lasting (Path.ancestors.climb (fuel + 1) path) path := by
  induction fuel generalizing path with
  | zero =>
      rw [climb_succ (Path.ne_empty_of_isAbsolute absolute)]
      exact lasting_nil.cons_of_isAbsolute absolute
  | succ fuel ih =>
      rw [climb_succ (Path.ne_empty_of_isAbsolute absolute)]
      cases above : Path.parent? path with
      | none =>
          rw [Option.getD_none, climb_empty]
          exact lasting_nil.cons_of_isAbsolute absolute
      | some parent =>
          exact (ih (Path.isAbsolute_parent absolute above)).cons_of_isAbsolute absolute

/-- Making the directories above a path, and the one at the path, lasts. -/
theorem lasting_climb {fuel : Nat} (enough : path.length ≤ fuel)
    (regular : Path.Tidy path ∨ Path.isAbsolute path = true) :
    Lasting (Path.ancestors.climb fuel path) path := by
  induction fuel generalizing path with
  | zero =>
      obtain rfl : path = "" := by simpa using enough
      exact lasting_nil
  | succ fuel ih =>
      by_cases named : path = ""
      · subst named
        rw [climb_empty]
        exact lasting_nil
      · rcases regular with tidy | absolute
        · cases relative : Path.isAbsolute path with
          | true => exact lasting_of_isAbsolute relative fuel
          | false =>
              obtain ⟨parent, above, shorter, neat⟩ : ∃ parent, Path.parent? path = some parent ∧
                  parent.length ≤ fuel ∧ Path.Tidy parent := by
                rcases Path.single_or_hasParent named relative with ⟨first, after, single⟩ |
                  ⟨parent, before, last, after, has⟩
                · exact ⟨"", single.parent?, Nat.zero_le _, Path.tidy_empty⟩
                · have bound := has.length_lt
                  exact ⟨parent, has.parent?, by omega, has.tidy⟩
              rw [climb_succ named, above, Option.getD_some]
              apply (ih shorter (.inl neat)).cons named
              · exact fun tree place found => ready_of_locate above found
              · intro tree later ready grows absent
                apply grows.exists_fault_of_notFound tidy _ absent
                intro other same
                exact Option.some.inj (above.symm.trans same) ▸ ready
        · exact lasting_of_isAbsolute absolute fuel

theorem lasting_ancestors (path : String) :
    Lasting (Path.ancestors ((Path.parent? path).getD "")) ((Path.parent? path).getD "") :=
  lasting_climb le_rfl (Path.tidy_or_isAbsolute_parent path)

end ScopeLowering.Files.Tree
