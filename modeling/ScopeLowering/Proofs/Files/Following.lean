import ScopeLowering.Files.Edit

/-!
# Where paths lead

A path leads from an entry to a key when every step of it starts in a directory. The
steps depend on the directories of a tree only, so a path goes on leading to its key while
directories stay, whatever else changes.
-/

namespace ScopeLowering.Path

/-- A text that does not end with a slash does not end with an empty piece. -/
theorem splitOn_getLast?_ne {text : List Char} (nonempty : text ≠ [])
    (bare : text.getLast? ≠ some '/') : (text.splitOn '/').getLast? ≠ some [] := by
  induction text with
  | nil => exact absurd rfl nonempty
  | cons c text ih =>
      rw [List.splitOn_cons_eq_if_modifyHead]
      obtain ⟨first, others, split⟩ := List.exists_cons_of_ne_nil (List.splitOn_ne_nil '/' text)
      cases text with
      | nil =>
          have ordinary : (c == '/') = false := by simpa using bare
          simp [ordinary]
      | cons d text =>
          have inner := ih (List.cons_ne_nil d text) (by simpa using bare)
          rw [split] at inner ⊢
          split
          · simpa using inner
          · cases others with
            | nil => simp
            | cons second others => simpa using inner

theorem pieces_getLast?_ne {path : String} (named : path ≠ "")
    (bare : hasFinalSlash path = false) : (pieces path).getLast? ≠ some "" := by
  have spelled : path.toList ≠ [] := by simpa using named
  have last := splitOn_getLast?_ne spelled (by simpa [hasFinalSlash] using bare)
  rw [pieces, List.getLast?_map]
  intro empty
  obtain ⟨piece, final, blank⟩ := Option.map_eq_some_iff.mp empty
  obtain rfl : piece = [] := by simpa using blank
  exact last final

end ScopeLowering.Path

namespace ScopeLowering.Files

def Node.unlocked (node : Node) : Node := { node with access := .writable }

@[simp]
theorem Node.unlocked_access (node : Node) : node.unlocked.access = .writable := rfl

@[simp]
theorem Node.isDirectory_unlocked (node : Node) :
    node.unlocked.isDirectory = node.isDirectory := rfl

namespace Tree

def unlocked (tree : Tree) : Tree := tree.edit .unlock

theorem get?_unlocked (tree : Tree) (key : Key) :
    tree.unlocked.nodes.get? key = (tree.nodes.get? key).map Node.unlocked :=
  Table.get?_mapValues tree.nodes Node.unlocked key

def HasDirectory (tree : Tree) (key : Key) : Prop :=
  ∃ node, tree.nodes.get? key = some node ∧ node.isDirectory = true

/-- The pieces of a path lead from an entry to a key. Nothing is asked of the last key. -/
inductive Leads (tree : Tree) : Key → List String → Key → Prop where
  | arrive (key : Key) : Leads tree key [] key
  | stay {key target : Key} {piece : String} {rest : List String}
      (directory : tree.HasDirectory key) (idle : piece = "" ∨ piece = ".")
      (onward : Leads tree key rest target) : Leads tree key (piece :: rest) target
  | up {key target : Key} {rest : List String} (directory : tree.HasDirectory key)
      (nonempty : key ≠ []) (onward : Leads tree key.dropLast rest target) :
      Leads tree key (".." :: rest) target
  | down {key target : Key} {piece : String} {rest : List String}
      (directory : tree.HasDirectory key) (named : piece ≠ "" ∧ piece ≠ "." ∧ piece ≠ "..")
      (onward : Leads tree (key ++ [piece]) rest target) :
      Leads tree key (piece :: rest) target

def LeadsTo (tree : Tree) (path : String) (key : Key) : Prop :=
  path ≠ "" ∧ Path.isAbsolute path = false ∧ tree.Leads [] (Path.pieces path) key

theorem Leads.mono {before after : Tree}
    (stays : ∀ key, before.HasDirectory key → after.HasDirectory key) {key target : Key}
    {pieces : List String} (leads : before.Leads key pieces target) :
    after.Leads key pieces target := by
  induction leads with
  | arrive key => exact .arrive key
  | stay directory idle _ ih => exact .stay (stays _ directory) idle ih
  | up directory nonempty _ ih => exact .up (stays _ directory) nonempty ih
  | down directory named _ ih => exact .down (stays _ directory) named ih

theorem LeadsTo.mono {before after : Tree}
    (stays : ∀ key, before.HasDirectory key → after.HasDirectory key) {path : String}
    {key : Key} (leads : before.LeadsTo path key) : after.LeadsTo path key :=
  ⟨leads.1, leads.2.1, leads.2.2.mono stays⟩

/-- All that a step of a path can do, when the path can be followed. -/
theorem follow_cons_ok {tree : Tree} {key : Key} {node : Node} {piece : String}
    {rest : List String} {place : Place}
    (found : tree.follow key node (piece :: rest) = .ok place) :
    node.isDirectory = true ∧
      ((piece = "" ∨ piece = ".") ∧ tree.follow key node rest = .ok place ∨
        piece = ".." ∧ key ≠ [] ∧ (∃ parent, tree.nodes.get? key.dropLast = some parent ∧
          tree.follow key.dropLast parent rest = .ok place) ∨
        (piece ≠ "" ∧ piece ≠ "." ∧ piece ≠ "..") ∧
          ((∃ child, tree.nodes.get? (key ++ [piece]) = some child ∧
              tree.follow (key ++ [piece]) child rest = .ok place) ∨
            tree.nodes.get? (key ++ [piece]) = none ∧ (∀ last ∈ rest, last = "") ∧
              place = .vacant (key ++ [piece]))) := by
  rw [follow.eq_def] at found
  dsimp only at found
  split at found
  · cases found
  · rename_i directory
    refine ⟨by simpa [Node.isFile] using directory, ?_⟩
    split at found
    · rename_i empty
      exact .inl ⟨.inl empty, found⟩
    · split at found
      · cases found
      · split at found
        · rename_i dot
          exact .inl ⟨.inr dot, found⟩
        · split at found
          · rename_i dots
            split at found
            · rename_i parent there
              exact .inr (.inl ⟨dots, List.cons_ne_nil _ _, parent, there, found⟩)
            · cases found
          · rename_i unnamed _ dot dots
            split at found
            · rename_i child there
              exact .inr (.inr ⟨⟨unnamed, dot, dots⟩, .inl ⟨child, there, found⟩⟩)
            · rename_i absent
              split at found
              · rename_i blank
                refine .inr (.inr ⟨⟨unnamed, dot, dots⟩, .inr ⟨absent, ?_, ?_⟩⟩)
                · simpa using blank
                · simpa using found.symm
              · cases found

theorem leads_of_follow_occupied {tree : Tree} {pieces : List String} {key target : Key}
    {node last : Node} (here : tree.nodes.get? key = some node)
    (found : tree.follow key node pieces = .ok (.occupied target last)) :
    tree.Leads key pieces target ∧ tree.nodes.get? target = some last := by
  induction pieces generalizing key node with
  | nil =>
      obtain ⟨rfl, rfl⟩ : key = target ∧ node = last := by simpa [follow] using found
      exact ⟨.arrive key, here⟩
  | cons piece rest ih =>
      obtain ⟨directory, ⟨idle, onward⟩ | ⟨rfl, nonempty, parent, there, onward⟩ |
        ⟨named, ⟨child, there, onward⟩ | ⟨-, -, vacant⟩⟩⟩ := follow_cons_ok found
      · exact ⟨.stay ⟨node, here, directory⟩ idle (ih here onward).1, (ih here onward).2⟩
      · exact ⟨.up ⟨node, here, directory⟩ nonempty (ih there onward).1, (ih there onward).2⟩
      · exact ⟨.down ⟨node, here, directory⟩ named (ih there onward).1, (ih there onward).2⟩
      · cases vacant

/-- A path to a free name leads there if nothing follows the name. -/
theorem leads_of_follow_vacant {tree : Tree} {pieces : List String} {key target : Key}
    {node : Node} (here : tree.nodes.get? key = some node)
    (bare : pieces.getLast? ≠ some "")
    (found : tree.follow key node pieces = .ok (.vacant target)) :
    tree.Leads key pieces target := by
  induction pieces generalizing key node with
  | nil => simp [follow] at found
  | cons piece rest ih =>
      have final : rest.getLast? ≠ some "" := by
        intro empty
        refine bare ?_
        rw [List.getLast?_cons, empty]
        rfl
      obtain ⟨directory, ⟨idle, onward⟩ | ⟨rfl, nonempty, parent, there, onward⟩ |
        ⟨named, ⟨child, there, onward⟩ | ⟨-, blank, vacant⟩⟩⟩ := follow_cons_ok found
      · exact .stay ⟨node, here, directory⟩ idle (ih here final onward)
      · exact .up ⟨node, here, directory⟩ nonempty (ih there final onward)
      · exact .down ⟨node, here, directory⟩ named (ih there final onward)
      · obtain rfl := Place.vacant.inj vacant
        cases rest with
        | nil => exact .down ⟨node, here, directory⟩ named (.arrive _)
        | cons next rest =>
            refine absurd ?_ final
            rw [List.getLast?_eq_some_getLast (List.cons_ne_nil next rest)]
            exact congrArg some (blank _ (List.getLast_mem _))

theorem absent_of_follow_vacant {tree : Tree} {pieces : List String} {key target : Key}
    {node : Node} (found : tree.follow key node pieces = .ok (.vacant target)) :
    tree.nodes.get? target = none := by
  induction pieces generalizing key node with
  | nil => simp [follow] at found
  | cons piece rest ih =>
      obtain ⟨-, ⟨-, onward⟩ | ⟨-, -, parent, -, onward⟩ |
        ⟨-, ⟨child, -, onward⟩ | ⟨absent, -, vacant⟩⟩⟩ := follow_cons_ok found
      · exact ih onward
      · exact ih onward
      · exact ih onward
      · obtain rfl := Place.vacant.inj vacant
        exact absent

/-- An entry from which a path leads to an entry is there. -/
theorem exists_of_leads {tree : Tree} {pieces : List String} {key target : Key} {last : Node}
    (leads : tree.Leads key pieces target) (there : tree.nodes.get? target = some last) :
    ∃ node, tree.nodes.get? key = some node := by
  cases leads with
  | arrive key => exact ⟨last, there⟩
  | stay directory idle onward => exact ⟨_, directory.choose_spec.1⟩
  | up directory nonempty onward => exact ⟨_, directory.choose_spec.1⟩
  | down directory named onward => exact ⟨_, directory.choose_spec.1⟩

/-- Permissions aside, the place that a path leads to is found. -/
theorem follow_unlocked_of_leads {tree : Tree} {pieces : List String} {key target : Key}
    {node last : Node} (leads : tree.Leads key pieces target)
    (here : tree.nodes.get? key = some node) (there : tree.nodes.get? target = some last) :
    tree.unlocked.follow key node.unlocked pieces = .ok (.occupied target last.unlocked) := by
  have isFile_of : ∀ {key : Key} {node : Node}, tree.HasDirectory key →
      tree.nodes.get? key = some node → node.unlocked.isFile = false := by
    rintro key node ⟨found, same, directory⟩ here
    obtain rfl := Option.some.inj (same.symm.trans here)
    simp [Node.isFile, directory]
  induction leads generalizing node with
  | arrive key =>
      obtain rfl := Option.some.inj (here.symm.trans there)
      rfl
  | stay directory idle onward ih =>
      rw [follow.eq_def]
      dsimp only
      rw [isFile_of directory here]
      rcases idle with rfl | rfl
      · simpa using ih here there
      · simpa using ih here there
  | @up key target rest directory nonempty onward ih =>
      obtain ⟨parent, above⟩ := exists_of_leads onward there
      obtain ⟨first, others, rfl⟩ := List.exists_cons_of_ne_nil nonempty
      rw [follow.eq_def]
      dsimp only
      rw [isFile_of directory here]
      simpa [get?_unlocked, above] using ih above there
  | @down key target piece rest directory named onward ih =>
      obtain ⟨unnamed, dot, dots⟩ := named
      obtain ⟨child, below⟩ := exists_of_leads onward there
      rw [follow.eq_def]
      dsimp only
      rw [isFile_of directory here]
      simpa [unnamed, dot, dots, get?_unlocked, below] using ih below there

/-! ## Paths of a tree -/

theorem leadsTo_of_locate_occupied {tree : Tree} {path : String} {key : Key} {node : Node}
    (found : tree.locate path = .ok (.occupied key node)) :
    tree.LeadsTo path key ∧ tree.nodes.get? key = some node := by
  unfold locate at found
  split at found
  · rename_i top here
    split at found
    · cases found
    · rename_i usual
      rw [Bool.or_eq_true, decide_eq_true_eq, not_or, Bool.not_eq_true] at usual
      obtain ⟨leads, there⟩ := leads_of_follow_occupied here found
      exact ⟨⟨usual.1, usual.2, leads⟩, there⟩
  · cases found

theorem leadsTo_of_locate_vacant {tree : Tree} {path : String} {key : Key}
    (bare : Path.hasFinalSlash path = false)
    (found : tree.locate path = .ok (.vacant key)) : tree.LeadsTo path key := by
  unfold locate at found
  split at found
  · rename_i top here
    split at found
    · cases found
    · rename_i usual
      rw [Bool.or_eq_true, decide_eq_true_eq, not_or, Bool.not_eq_true] at usual
      exact ⟨usual.1, usual.2,
        leads_of_follow_vacant here (Path.pieces_getLast?_ne usual.1 bare) found⟩
  · cases found

theorem absent_of_locate_vacant {tree : Tree} {path : String} {key : Key}
    (found : tree.locate path = .ok (.vacant key)) : tree.nodes.get? key = none := by
  unfold locate at found
  split at found
  · split at found
    · cases found
    · exact absent_of_follow_vacant found
  · cases found

theorem locate_unlocked_of_leadsTo {tree : Tree} {path : String} {key : Key} {node : Node}
    (leads : tree.LeadsTo path key) (there : tree.nodes.get? key = some node) :
    tree.unlocked.locate path = .ok (.occupied key node.unlocked) := by
  obtain ⟨named, relative, leads⟩ := leads
  obtain ⟨top, here⟩ := exists_of_leads leads there
  have followed := follow_unlocked_of_leads leads here there
  simpa [locate, get?_unlocked, here, named, relative] using followed

end Tree

end ScopeLowering.Files
