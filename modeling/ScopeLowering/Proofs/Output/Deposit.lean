import ScopeLowering.Output
import ScopeLowering.Proofs.Files.Remaking

/-!
# Depositing files

A file is written after the directories above it were made. What was written can be written again
in every tree that has grown since, and what could not be written cannot be written there.
-/

namespace ScopeLowering.Files.Tree

variable {tree later written : Tree} {key : Key} {path : String} {content : Content} {fault : Fault}

def put (tree : Tree) (key : Key) (content : Content) : Tree :=
  { tree with nodes := tree.nodes.insert key ⟨.file content tree.clock, .writable⟩ }

theorem get?_put (tree : Tree) (key other : Key) (content : Content) :
    (tree.put key content).nodes.get? other =
      if key = other then some ⟨.file content tree.clock, .writable⟩
      else tree.nodes.get? other :=
  Table.get?_insert ..

theorem get?_put_self (tree : Tree) (key : Key) (content : Content) :
    (tree.put key content).nodes.get? key = some ⟨.file content tree.clock, .writable⟩ :=
  Table.get?_insert_self ..

/-! ## Writing again -/

/-- A path without a final slash is written where it leads to. -/
theorem write_eq (bare : Path.hasFinalSlash path = false) : tree.write path content =
    match tree.locate path with
    | .error fault => .error fault
    | .ok (.occupied _ ⟨.directory, _⟩) => .error .isADirectory
    | .ok (.occupied key ⟨.file _ _, .writable⟩) => .ok (tree.put key content)
    | .ok (.occupied _ _) => .error .denied
    | .ok (.vacant key) => tree.create key (.file content tree.clock) := by
  unfold write
  dsimp only
  rw [bare_eq bare, ite_self]
  cases tree.locate path with
  | error fault => rfl
  | ok place =>
      dsimp only
      rw [bare, if_neg Bool.false_ne_true]
      cases place with
      | vacant key => rfl
      | occupied key node =>
          obtain ⟨entry, access⟩ := node
          cases entry with
          | directory => rfl
          | file content modified =>
              cases access <;> rfl

/-- Nothing is written to a path that ends with a slash. -/
theorem exists_fault_of_slash (slashed : Path.hasFinalSlash path = true) :
    ∃ fault, tree.write path content = .error fault := by
  unfold write
  dsimp only
  split
  · exact ⟨_, rfl⟩
  · rw [if_pos slashed]
    exact ⟨_, rfl⟩

theorem bare_of_write (done : tree.write path content = .ok written) :
    Path.hasFinalSlash path = false := by
  rw [← Bool.not_eq_true]
  intro slashed
  obtain ⟨fault, failed⟩ : ∃ fault, tree.write path content = .error fault :=
    exists_fault_of_slash slashed
  rw [failed] at done
  cases done

/-- An open file at the end of a path is overwritten. -/
theorem write_of_locate {node : Node} (bare : Path.hasFinalSlash path = false)
    (located : tree.locate path = .ok (.occupied key node)) (file : node.isFile = true)
    (writable : node.access = .writable) :
    tree.write path content = .ok (tree.put key content) := by
  obtain ⟨entry, access⟩ := node
  obtain rfl : access = .writable := writable
  cases entry with
  | directory => cases file
  | file old modified => rw [write_eq bare, located]

/-- A file that was written is at the end of its path. -/
theorem exists_put_of_write (done : tree.write path content = .ok written) :
    ∃ key, written = tree.put key content ∧
      written.locate path = .ok (.occupied key ⟨.file content tree.clock, .writable⟩) := by
  have bare := bare_of_write done
  have becomes := (grows_write done).becomes_locate path
  obtain ⟨key, rfl, aims⟩ : ∃ key, written = tree.put key content ∧
      (tree.locate path = .ok (.vacant key) ∨
        ∃ node, tree.locate path = .ok (.occupied key node)) := by
    rw [write_eq bare] at done
    split at done
    · cases done
    · cases done
    · exact ⟨_, (Except.ok.inj done).symm, .inr ⟨_, ‹_›⟩⟩
    · cases done
    · exact ⟨_, create_eq_ok done, .inl ‹_›⟩
  refine ⟨key, rfl, ?_⟩
  have put := get?_put_self tree key content
  rcases aims with vacant | ⟨node, occupied⟩
  · rw [vacant] at becomes
    generalize (tree.put key content).locate path = result at becomes
    cases becomes with
    | vacant absent =>
        rw [put] at absent
        cases absent
    | taken there => rw [Option.some.inj (there.symm.trans put)]
    | behind there file slash =>
        rw [bare] at slash
        cases slash
  · rw [occupied] at becomes
    generalize (tree.put key content).locate path = result at becomes
    cases becomes with
    | occupied there alike => rw [Option.some.inj (there.symm.trans put)]

/-- What was written is written again at the same key. -/
theorem Grows.write_again (done : tree.write path content = .ok written)
    (located : written.locate path = .ok (.occupied key ⟨.file content tree.clock, .writable⟩))
    (grows : written.Grows later) : later.write path content = .ok (later.put key content) := by
  have becomes := grows.becomes_locate path
  rw [located] at becomes
  generalize now : later.locate path = result at becomes
  cases becomes with
  | occupied there alike =>
      exact write_of_locate (bare_of_write done) now alike.isFile alike.access

theorem exists_fault_of_occupied {node : Node} (bare : Path.hasFinalSlash path = false)
    (located : tree.locate path = .ok (.occupied key node))
    (closed : node.isFile = true → node.access ≠ .writable) :
    ∃ fault, tree.write path content = .error fault := by
  rw [write_eq bare, located]
  obtain ⟨entry, access⟩ := node
  cases entry with
  | directory => exact ⟨_, rfl⟩
  | file content modified =>
      cases access with
      | writable => exact absurd rfl (closed rfl)
      | readable => exact ⟨_, rfl⟩
      | locked => exact ⟨_, rfl⟩

/-- What could not be written in its directory cannot be written later. -/
theorem Grows.exists_fault_of_write (grows : tree.Grows later)
    (ready : ∀ parent, Path.parent? path = some parent → tree.Ready parent)
    (failed : tree.write path content = .error fault) :
    ∃ again, later.write path content = .error again := by
  cases bare : Path.hasFinalSlash path with
  | true => exact exists_fault_of_slash bare
  | false =>
      have becomes := grows.becomes_locate path
      cases located : tree.locate path with
      | error first =>
          rw [located] at becomes
          generalize now : later.locate path = result at becomes
          cases becomes with
          | failed => exact ⟨first, by rw [write_eq bare, now]⟩
          | missing =>
              cases result with
              | error again => exact ⟨again, by rw [write_eq bare, now]⟩
              | ok place =>
                  obtain ⟨named, relative, top, -, followed⟩ := usual_of_locate now
                  by_cases dotted : (Path.pieces path).getLast? = some "."
                  · obtain ⟨target, last, rfl, directory⟩ := directory_of_final_dot dotted followed
                    refine exists_fault_of_occupied bare now fun file => ?_
                    simp [Node.isFile, directory] at file
                  · have tidy : Path.Tidy path := by
                      intro front last split
                      have ended := Path.pieces_getLast?_ne named bare
                      rw [split, List.getLast?_concat] at ended dotted
                      right
                      simpa [Path.isIdle] using And.intro ended dotted
                    obtain ⟨again, gone⟩ := grows.exists_fault_of_notFound tidy ready located
                    rw [gone] at now
                    cases now
      | ok place =>
          cases place with
          | vacant key =>
              rw [write_eq bare, located] at failed
              obtain ⟨free, denied⟩ := grows.free_of_closed located failed
              exact ⟨.denied, by rw [write_eq bare, free]; exact denied _⟩
          | occupied key node =>
              have closed : node.isFile = true → node.access ≠ .writable := by
                intro file writable
                rw [write_of_locate bare located file writable] at failed
                cases failed
              rw [located] at becomes
              generalize now : later.locate path = result at becomes
              cases becomes with
              | occupied there alike =>
                  refine exists_fault_of_occupied bare now ?_
                  rw [alike.isFile, alike.access]
                  exact closed

/-! ## Depositing again -/

/-- Nothing but directories is added to a tree. -/
def Adds (before after : Tree) : Prop :=
  ∀ key, after.nodes.get? key = before.nodes.get? key ∨
    before.nodes.get? key = none ∧ after.HasDirectory key

theorem Adds.refl (tree : Tree) : tree.Adds tree := fun _ => .inl rfl

theorem adds_makeDirectories (tree : Tree) (path : String) :
    tree.Adds (tree.makeDirectories path).1 := by
  apply makeChain_induct
  · intro before path made adds done key
    have keeps := keeps_makeDirectory done
    rcases adds key with same | ⟨absent, directory⟩
    · unfold makeDirectory at done
      split at done
      · cases done
      · cases done
      · rename_i free vacant
        by_cases here : free = key
        · subst here
          refine .inr ⟨same.symm.trans (absent_of_locate_vacant vacant), ⟨.directory, .writable⟩,
            ?_, rfl⟩
          rw [create_eq_ok done]
          exact Table.get?_insert_self ..
        · left
          rw [create_eq_ok done, Table.get?_insert, if_neg here]
          exact same
    · exact .inr ⟨absent, keeps.hasDirectory directory⟩
  · exact .refl tree

/-- Writes a file after making the directories above it: the tree, and the failure if there is
one. -/
def deposit (tree : Tree) (path text : String) : Tree × Option Failure :=
  let parent := (Path.parent? path).getD ""
  match tree.makeDirectories parent with
  | (ready, some fault) => (ready, some (.file parent fault))
  | (ready, none) =>
      match ready.write path (.text text) with
      | .ok written => (written, none)
      | .error fault => (ready, some (.file path fault))

theorem adds_of_makeDirectories {ready : Tree} {result : Option Fault}
    (made : tree.makeDirectories path = (ready, result)) : tree.Adds ready ∧ tree.Grows ready := by
  have adds := tree.adds_makeDirectories path
  have grows : tree.Grows (tree.makeDirectories path).1 := grows_makeChain tree _
  rw [made] at adds grows
  exact ⟨adds, grows⟩

/-- A deposit that succeeds puts the file where its path leads to afterwards, and so it does in
every tree that has grown since. -/
theorem exists_put_of_deposit {text : String} (done : tree.deposit path text = (written, none)) :
    ∃ ready key, tree.Adds ready ∧ ready.clock = tree.clock ∧ tree.Grows written ∧
      written = ready.put key (.text text) ∧
      written.locate path = .ok (.occupied key ⟨.file (.text text) tree.clock, .writable⟩) ∧
      ∀ later, written.Grows later →
        later.deposit path text = (later.put key (.text text), none) := by
  have lasting := lasting_ancestors path
  unfold deposit at done
  dsimp only at done
  split at done
  · cases done
  · rename_i ready made
    obtain ⟨adds, grows⟩ := adds_of_makeDirectories made
    split at done
    · rename_i result wrote
      obtain ⟨rfl, -⟩ := Prod.mk.inj done
      obtain ⟨key, same, located⟩ := exists_put_of_write wrote
      rw [grows.clock] at located
      have onward := grows_write wrote
      refine ⟨ready, key, adds, grows.clock, grows.trans onward, same, located, ?_⟩
      intro later since
      have inside := (onward.trans since).ready (lasting.ready tree ready made)
      have idle : later.makeDirectories ((Path.parent? path).getD "") = (later, none) :=
        lasting.idle later inside
      have again := since.write_again wrote (grows.clock.symm ▸ located)
      simp only [deposit, idle, again]
    · cases done

/-- A deposit that fails adds directories at most, and fails in every tree that has grown since. -/
theorem adds_of_deposit {text : String} {failure : Failure}
    (failed : tree.deposit path text = (written, some failure)) :
    tree.Adds written ∧ tree.Grows written ∧ ∀ later, written.Grows later →
      ∃ again, later.deposit path text = (later, some again) := by
  have lasting := lasting_ancestors path
  unfold deposit at failed
  dsimp only at failed
  split at failed
  · rename_i ready fault made
    obtain ⟨rfl, -⟩ := Prod.mk.inj failed
    obtain ⟨adds, grows⟩ := adds_of_makeDirectories made
    refine ⟨adds, grows, ?_⟩
    intro later since
    obtain ⟨again, stuck⟩ := lasting.fails tree ready later fault made since
    exact ⟨_, by rw [deposit, makeDirectories, stuck]⟩
  · rename_i ready made
    obtain ⟨adds, grows⟩ := adds_of_makeDirectories made
    have inside := lasting.ready tree ready made
    split at failed
    · cases failed
    · rename_i fault stopped
      obtain ⟨rfl, -⟩ := Prod.mk.inj failed
      refine ⟨adds, grows, ?_⟩
      intro later since
      have idle : later.makeDirectories ((Path.parent? path).getD "") = (later, none) :=
        lasting.idle later (since.ready inside)
      have open_ : ∀ parent, Path.parent? path = some parent → ready.Ready parent := by
        intro parent above
        rw [above] at inside
        exact inside
      obtain ⟨again, stuck⟩ := since.exists_fault_of_write open_ stopped
      exact ⟨.file path again, by simp only [deposit, idle, stuck]⟩

theorem exists_located_of_deposit {text : String} (done : (tree.deposit path text).2 = none) :
    ∃ key, (tree.deposit path text).1.locate path =
      .ok (.occupied key ⟨.file (.text text) tree.clock, .writable⟩) := by
  generalize laid : tree.deposit path text = result at done
  obtain ⟨after, failure⟩ := result
  obtain rfl : failure = none := done
  obtain ⟨-, key, -, -, -, -, located, -⟩ := exists_put_of_deposit laid
  exact ⟨key, located⟩

theorem grows_deposit (tree : Tree) (path text : String) :
    tree.Grows (tree.deposit path text).1 := by
  generalize done : tree.deposit path text = result
  obtain ⟨after, failure⟩ := result
  cases failure with
  | none =>
      obtain ⟨-, -, -, -, grows, -⟩ := exists_put_of_deposit done
      exact grows
  | some failure => exact (adds_of_deposit done).2.1

/-- A deposit changes the file at its path, and makes directories. -/
theorem get?_deposit (tree : Tree) (path text : String) (key : Key) :
    (tree.deposit path text).1.nodes.get? key = tree.nodes.get? key ∨
      tree.nodes.get? key = none ∧ (tree.deposit path text).1.HasDirectory key ∨
      (tree.deposit path text).1.locate path =
        .ok (.occupied key ⟨.file (.text text) tree.clock, .writable⟩) := by
  generalize done : tree.deposit path text = result
  obtain ⟨after, failure⟩ := result
  cases failure with
  | some failure => exact ((adds_of_deposit done).1 key).imp_right .inl
  | none =>
      obtain ⟨ready, target, adds, -, -, rfl, located, -⟩ := exists_put_of_deposit done
      by_cases here : target = key
      · exact .inr (.inr (here ▸ located))
      · have apart : (ready.put target (.text text)).nodes.get? key = ready.nodes.get? key := by
          rw [get?_put, if_neg here]
        rcases adds key with same | ⟨absent, node, there, directory⟩
        · exact .inl (apart.trans same)
        · exact .inr (.inl ⟨absent, node, apart.trans there, directory⟩)

end ScopeLowering.Files.Tree

namespace ScopeLowering.Output.World

theorem writeFile_eq (world : World) (path text : String) : world.writeFile path text =
    ({ world with tree := (world.tree.deposit path text).1 },
      (world.tree.deposit path text).2) := by
  unfold writeFile Files.Tree.deposit
  dsimp only
  generalize world.tree.makeDirectories ((Path.parent? path).getD "") = made
  obtain ⟨ready, result⟩ := made
  cases result with
  | some fault => rfl
  | none =>
      dsimp only
      cases ready.write path (.text text) with
      | ok written => rfl
      | error fault => rfl

theorem tree_deliver_cases {world after : World} {destination : Destination}
    {css : String} {failure : Option Failure}
    (done : world.deliver destination css = (after, failure)) :
    after.tree = world.tree ∨ ∃ path, destination = .file path ∧
      after.tree = (world.tree.deposit path (render css)).1 := by
  cases destination with
  | standardOutput => exact .inl (tree_of_deliver_standardOutput done)
  | file path =>
      rw [deliver_file, writeFile_eq] at done
      obtain ⟨rfl, -⟩ := Prod.mk.inj done
      exact .inr ⟨path, rfl, rfl⟩

/-- Delivering rules logs nothing. -/
theorem log_of_deliver {world after : World} {destination : Destination} {css : String}
    {result : Option Failure} (delivered : world.deliver destination css = (after, result)) :
    after.log = world.log := by
  cases destination with
  | standardOutput =>
      obtain ⟨rfl, -⟩ := Prod.mk.inj delivered
      rfl
  | file path =>
      rw [deliver, writeFile_eq] at delivered
      obtain ⟨rfl, -⟩ := Prod.mk.inj delivered
      rfl

end ScopeLowering.Output.World
