import ScopeLowering.Proofs.Files.Contents

/-!
# Growing trees

What a run does to a tree adds entries in directories that allow it, and changes what files hold.
A path that was followed in the tree before leads to the same entry afterwards, and a path that
failed fails again, unless it was not found.
-/

namespace ScopeLowering.Files

structure Node.Alike (first second : Node) : Prop where
  access : first.access = second.access
  isDirectory : first.isDirectory = second.isDirectory

theorem Node.Alike.refl (node : Node) : node.Alike node := ⟨rfl, rfl⟩

theorem Node.Alike.trans {first second third : Node} (one : first.Alike second)
    (two : second.Alike third) : first.Alike third :=
  ⟨one.access.trans two.access, one.isDirectory.trans two.isDirectory⟩

theorem Node.Alike.isFile {first second : Node} (alike : first.Alike second) :
    first.isFile = second.isFile := by
  rw [Node.isFile, Node.isFile, alike.isDirectory]

def Node.isOpen (node : Node) : Prop := node.isDirectory = true ∧ node.access = .writable

namespace Tree

/-- The entries of a tree stay, and new ones are in directories in which entries can be made. -/
structure Grows (before after : Tree) : Prop where
  clock : after.clock = before.clock
  stays : ∀ key node, before.nodes.get? key = some node →
    ∃ kept, after.nodes.get? key = some kept ∧ kept.Alike node
  grown : ∀ key node, before.nodes.get? key = none → after.nodes.get? key = some node →
    key ≠ [] ∧ ∃ outer, after.nodes.get? key.dropLast = some outer ∧ outer.isOpen

section

variable {before after tree : Tree} {key target : Key} {node kept : Node} {path : String}

theorem Grows.refl (tree : Tree) : tree.Grows tree where
  clock := rfl
  stays := fun _ node found => ⟨node, found, .refl node⟩
  grown := by
    intro key node absent present
    rw [absent] at present
    cases present

theorem Grows.trans {first second third : Tree} (one : first.Grows second)
    (two : second.Grows third) : first.Grows third where
  clock := two.clock.trans one.clock
  stays := by
    intro key node found
    obtain ⟨kept, there, alike⟩ := one.stays key node found
    obtain ⟨last, still, same⟩ := two.stays key kept there
    exact ⟨last, still, same.trans alike⟩
  grown := by
    intro key node absent present
    cases middle : second.nodes.get? key with
    | none => exact two.grown key node middle present
    | some other =>
        obtain ⟨named, outer, above, allows⟩ := one.grown key other absent middle
        obtain ⟨kept, still, alike⟩ := two.stays _ outer above
        exact ⟨named, kept, still, alike.isDirectory.trans allows.1, alike.access.trans allows.2⟩

/-! ## Operations -/

theorem open_of_create {made : Tree} {entry : Entry} (done : tree.create key entry = .ok made) :
    ∃ outer, tree.nodes.get? key.dropLast = some outer ∧ outer.isOpen := by
  unfold create at done
  split at done
  · rename_i above
    exact ⟨_, above, rfl, rfl⟩
  · cases done
  · cases done

theorem create_of_open {outer : Node} (above : tree.nodes.get? key.dropLast = some outer)
    (allows : outer.isOpen) (entry : Entry) : tree.create key entry =
      .ok { tree with nodes := tree.nodes.insert key ⟨entry, .writable⟩ } := by
  obtain ⟨entry, access⟩ := outer
  obtain ⟨directory, rfl⟩ : entry = .directory ∧ access = .writable := by
    simpa [Node.isOpen, Node.isDirectory] using allows
  subst directory
  rw [create, above]

theorem grows_insert_of_alike (there : tree.nodes.get? key = some node) (alike : kept.Alike node) :
    tree.Grows { tree with nodes := tree.nodes.insert key kept } where
  clock := rfl
  stays := by
    intro other original found
    rw [Table.get?_insert]
    split
    · rename_i same
      subst same
      obtain rfl := Option.some.inj (there.symm.trans found)
      exact ⟨kept, rfl, alike⟩
    · exact ⟨original, found, .refl original⟩
  grown := by
    intro other original absent present
    rw [Table.get?_insert] at present
    split at present
    · rename_i same
      subst same
      rw [there] at absent
      cases absent
    · rw [absent] at present
      cases present

theorem grows_create {made : Tree} {entry : Entry} (absent : tree.nodes.get? key = none)
    (done : tree.create key entry = .ok made) : tree.Grows made := by
  obtain ⟨outer, above, allows⟩ := open_of_create done
  have inner : key ≠ [] := by
    rintro rfl
    rw [List.dropLast_nil, absent] at above
    cases above
  have apart : key ≠ key.dropLast := by
    intro same
    rw [← same, absent] at above
    cases above
  rw [create_eq_ok done]
  refine ⟨rfl, ?_, ?_⟩
  · intro other original found
    have differs : key ≠ other := by
      rintro rfl
      rw [absent] at found
      cases found
    rw [Table.get?_insert, if_neg differs]
    exact ⟨original, found, .refl original⟩
  · intro other original missing present
    rw [Table.get?_insert] at present
    split at present
    · rename_i same
      subst same
      refine ⟨inner, outer, ?_, allows⟩
      rw [Table.get?_insert, if_neg apart]
      exact above
    · rw [missing] at present
      cases present

theorem grows_makeDirectory {made : Tree} (done : tree.makeDirectory path = .ok made) :
    tree.Grows made := by
  unfold makeDirectory at done
  split at done
  · cases done
  · cases done
  · rename_i key vacant
    exact grows_create (absent_of_locate_vacant vacant) done

theorem grows_makeChain (tree : Tree) (paths : List String) :
    tree.Grows (tree.makeChain paths).1 := by
  apply makeChain_induct
  · intro before path made grows done
    exact grows.trans (grows_makeDirectory done)
  · exact .refl tree

theorem grows_write {written : Tree} {content : Content}
    (done : tree.write path content = .ok written) : tree.Grows written := by
  unfold write at done
  dsimp only at done
  split at done
  · cases done
  · rename_i place located
    split at done
    · cases done
    · split at done
      · cases done
      · obtain ⟨-, there⟩ := leadsTo_of_locate_occupied located
        obtain rfl := Except.ok.inj done
        exact grows_insert_of_alike there ⟨rfl, rfl⟩
      · cases done
      · exact grows_create (absent_of_locate_vacant located) done

/-! ## Paths in a tree that grows -/

/-- All that can become of the place that a path leads to. What was found stays, a free name may
be taken, and only what was not found may change altogether. The name of a file that was made
cannot be followed by a slash. -/
inductive Becomes (after : Tree) (slashed : Prop) : Except Fault Place → Except Fault Place → Prop
  | occupied {key : Key} {node kept : Node} (there : after.nodes.get? key = some kept)
      (alike : kept.Alike node) :
      Becomes after slashed (.ok (.occupied key node)) (.ok (.occupied key kept))
  | vacant {key : Key} (absent : after.nodes.get? key = none) :
      Becomes after slashed (.ok (.vacant key)) (.ok (.vacant key))
  | taken {key : Key} {node : Node} (there : after.nodes.get? key = some node) :
      Becomes after slashed (.ok (.vacant key)) (.ok (.occupied key node))
  | behind {key : Key} {node : Node} (there : after.nodes.get? key = some node)
      (file : node.isFile = true) (slash : slashed) :
      Becomes after slashed (.ok (.vacant key)) (.error .notADirectory)
  | failed (fault : Fault) : Becomes after slashed (.error fault) (.error fault)
  | missing (result : Except Fault Place) : Becomes after slashed (.error .notFound) result

/-- The slashes after a name that was free change nothing if the name is taken by a directory. -/
theorem becomes_taken {slashed : Prop} {blank : List String} (empty : ∀ piece ∈ blank, piece = "")
    (ended : blank ≠ [] → slashed) (there : after.nodes.get? key = some node) :
    Becomes after slashed (.ok (.vacant key)) (after.follow key node blank) := by
  cases whole : node.isFile with
  | true =>
      cases blank with
      | nil => exact .taken there
      | cons piece rest =>
          rw [follow.eq_def]
          simp only [whole, if_true]
          exact .behind there whole (ended (List.cons_ne_nil piece rest))
  | false =>
      have stays : after.follow key node blank = .ok (.occupied key node) := by
        clear ended
        induction blank with
        | nil => rfl
        | cons piece rest ih =>
            rw [follow.eq_def]
            simp only [whole, Bool.false_eq_true, if_false, empty piece List.mem_cons_self, if_true]
            exact ih fun other member => empty other (List.mem_cons_of_mem piece member)
      rw [stays]
      exact .taken there

theorem Grows.becomes_follow (grows : before.Grows after) {slashed : Prop} {pieces : List String}
    (ended : pieces.getLast? = some "" → slashed) (there : after.nodes.get? key = some kept)
    (alike : kept.Alike node) :
    Becomes after slashed (before.follow key node pieces) (after.follow key kept pieces) := by
  induction pieces generalizing key node kept with
  | nil => exact .occupied there alike
  | cons piece rest ih =>
      have final : rest.getLast? = some "" → slashed := by
        intro empty
        apply ended
        rw [List.getLast?_cons, empty]
        rfl
      rw [follow.eq_def, follow.eq_def]
      simp only [alike.isFile, alike.access]
      split
      · exact .failed _
      · split
        · exact ih final there alike
        · split
          · exact .failed _
          · split
            · exact ih final there alike
            · split
              · -- The step up leads to an entry that stays.
                cases above : before.nodes.get? key.dropLast with
                | none =>
                    cases key with
                    | nil => exact .failed _
                    | cons first others => exact .missing _
                | some parent =>
                    obtain ⟨later, still, same⟩ := grows.stays _ parent above
                    rw [still]
                    cases key with
                    | nil => exact .failed _
                    | cons first others => exact ih final still same
              · cases below : before.nodes.get? (key ++ [piece]) with
                | some child =>
                    obtain ⟨later, still, same⟩ := grows.stays _ child below
                    rw [still]
                    exact ih final still same
                | none =>
                    dsimp only
                    split
                    · rename_i blank
                      have empty : ∀ other ∈ rest, other = "" := by simpa using blank
                      cases now : after.nodes.get? (key ++ [piece]) with
                      | none => exact .vacant now
                      | some child =>
                          refine becomes_taken empty ?_ now
                          intro more
                          apply final
                          rw [List.getLast?_eq_some_getLast more]
                          exact congrArg some (empty _ (List.getLast_mem more))
                    · exact .missing _

/-- What becomes of the place that a path leads to, as the tree grows. -/
theorem Grows.becomes_locate (grows : before.Grows after) (path : String) :
    Becomes after (Path.hasFinalSlash path = true) (before.locate path) (after.locate path) := by
  unfold locate
  cases top : before.nodes.get? [] with
  | none => exact .missing _
  | some node =>
      obtain ⟨kept, there, alike⟩ := grows.stays [] node top
      rw [there]
      dsimp only
      split
      · exact .failed _
      · rename_i usual
        rw [Bool.or_eq_true, decide_eq_true_eq, not_or] at usual
        apply grows.becomes_follow _ there alike
        intro empty
        cases bare : Path.hasFinalSlash path with
        | true => rfl
        | false => exact absurd empty (Path.pieces_getLast?_ne usual.1 bare)

theorem isDirectory_iff : tree.isDirectory path = true ↔
    ∃ key node, tree.locate path = .ok (.occupied key node) ∧ node.isDirectory = true := by
  unfold isDirectory stat
  cases tree.locate path with
  | error fault => simp
  | ok place =>
      cases place with
      | vacant key => simp
      | occupied key node =>
          constructor
          · exact fun directory => ⟨key, node, rfl, directory⟩
          · rintro ⟨other, last, same, directory⟩
            cases same
            exact directory

theorem Grows.isDirectory (grows : before.Grows after)
    (directory : before.isDirectory path = true) : after.isDirectory path = true := by
  obtain ⟨key, node, located, isDirectory⟩ := isDirectory_iff.mp directory
  have becomes := grows.becomes_locate path
  rw [located] at becomes
  generalize found : after.locate path = place at becomes
  cases becomes with
  | occupied there alike =>
      exact isDirectory_iff.mpr ⟨_, _, found, alike.isDirectory.trans isDirectory⟩

end

end Tree

end ScopeLowering.Files
