import ScopeLowering.Proofs.Files.Respelling

/-!
# Paths that a pattern spells

The steps of a pattern spell paths, whatever tree they are followed in. A walk meets the files
of its tree that its pattern spells and that can be reached, and it meets every directory on
the way to a spelled path that it has to list and cannot.
-/

namespace ScopeLowering.Glob

open ScopeLowering.Files (Fault IsName Key Node Tree)

/-- The steps of a pattern lead from one path to another, and have some directories listed on
the way: the places where the pattern has a wildcard. -/
inductive Spells : List Step → String → String → List String → Prop where
  | arrive (path : String) : Spells [] path path []
  | name {text : String} {steps : List Step} {path target : String} {listed : List String}
      (named : extend path text ≠ "") (onward : Spells steps (extend path text) target listed) :
      Spells (.name text :: steps) path target listed
  | names {tokens : List Token} {name : String} {steps : List Step} {path target : String}
      {listed : List String} (matched : matchTokens tokens name.toList = true)
      (isName : IsName name) (onward : Spells steps (extend path name) target listed) :
      Spells (.names tokens :: steps) path target (path :: listed)
  | dots {tokens : List Token} {dots : String} {steps : List Step} {path target : String}
      {listed : List String} (special : dots = ".." ∨ dots = ".")
      (leading : tokens.head? = some (.literal '.'))
      (matched : matchTokens tokens dots.toList = true)
      (onward : Spells steps (Path.join path dots) target listed) :
      Spells (.names tokens :: steps) path target (path :: listed)
  | deeper {name : String} {steps : List Step} {path target : String} {listed : List String}
      (isName : IsName name)
      (onward : Spells (.directories :: steps) (extend path name) target listed) :
      Spells (.directories :: steps) path target (path :: listed)
  | beyond {step : Step} {name : String} {steps : List Step} {path target : String}
      {listed : List String} (accepted : step.accepts name = true) (isName : IsName name)
      (onward : Spells steps (extend path name) target listed) :
      Spells (.directories :: step :: steps) path target (path :: listed)

/-- What there is to meet on the way to a path: the entry it leads to, and the listed
directories that are closed. -/
inductive OnTheWay (tree : Tree) (target : String) (listed : List String) : Sighting → Prop where
  | target {node : Node} (there : tree.stat target = .ok node) :
      OnTheWay tree target listed (.entry target)
  | closed {directory : String} {fault : Fault} (member : directory ∈ listed)
      (there : tree.isDirectory directory = true)
      (closed : tree.list directory = .error fault) :
      OnTheWay tree target listed (.unreadable directory fault)

/-! ## What a walk meets -/

section

variable {tree : Tree} {directoriesOnly : Bool} {sighting : Sighting} {steps : List Step}
  {path : String}

theorem mem_walkSteps_name_iff {text : String} :
    sighting ∈ walkSteps tree directoriesOnly (.name text :: steps) path ↔
      (if text = "." ∨ text = ".." then tree.isDirectory path
        else tree.pathExists (extend path text)) = true ∧
      sighting ∈ walkSteps tree directoriesOnly steps (extend path text) := by
  rw [walkSteps]
  simp only [Bool.or_eq_true, decide_eq_true_eq]
  split <;> simp [*]

theorem mem_walkSteps_names_iff {tokens : List Token} :
    sighting ∈ walkSteps tree directoriesOnly (.names tokens :: steps) path ↔
      tree.isDirectory path = true ∧
        ((∃ fault, tree.list path = .error fault ∧ sighting = .unreadable path fault) ∨
          ∃ children, tree.list path = .ok children ∧
            ((∃ dots, (dots = ".." ∨ dots = ".") ∧ tokens.head? = some (.literal '.') ∧
                matchTokens tokens dots.toList = true ∧
                sighting ∈ walkSteps tree directoriesOnly steps (Path.join path dots)) ∨
              ∃ name node, (name, node) ∈ children ∧
                matchTokens tokens name.toList = true ∧
                sighting ∈ walkSteps tree directoriesOnly steps (extend path name))) := by
  rw [walkSteps]
  by_cases directory : tree.isDirectory path = true
  · cases listed : tree.list path with
    | error fault => simp [directory]
    | ok children =>
        by_cases leading : tokens.head? = some (.literal '.')
        · simp only [directory, leading, if_true, List.mem_append, List.mem_flatMap,
            List.mem_ite_nil_right, Prod.exists]
          simp
        · simp only [directory, leading, if_true, if_false, List.mem_append, List.mem_flatMap,
            List.mem_ite_nil_right, Prod.exists]
          simp
  · simp [directory]

theorem mem_visitBelow_iff {visit : String → String → Bool → List Sighting} {depth : Nat} :
    sighting ∈ visitBelow tree visit (depth + 1) path ↔
      (∃ fault, tree.list path = .error fault ∧ sighting = .unreadable path fault) ∨
        ∃ children, tree.list path = .ok children ∧ ∃ name node, (name, node) ∈ children ∧
          (sighting ∈ visit (extend path name) name node.isDirectory ∨
            node.isDirectory = true ∧
              sighting ∈ visitBelow tree visit depth (extend path name)) := by
  rw [visitBelow]
  cases tree.list path with
  | error fault => simp
  | ok children =>
      simp only [List.mem_flatMap, List.mem_append, List.mem_ite_nil_right, Prod.exists]
      simp

def visitor (tree : Tree) (directoriesOnly : Bool) :
    List Step → String → String → Bool → List Sighting
  | [], child, _, isDirectory => if isDirectory then [.entry child] else []
  | step :: steps, child, name, _ =>
      if step.accepts name then walkSteps tree directoriesOnly steps child else []

theorem walkSteps_directories (steps : List Step) :
    walkSteps tree directoriesOnly (.directories :: steps) path =
      if tree.isDirectory path then
        visitBelow tree (visitor tree directoriesOnly steps) tree.size path
      else [] := by
  cases steps with
  | nil => rw [walkSteps]; rfl
  | cons step steps => rw [walkSteps]; rfl

/-! ## A pattern spells the files that its walks meet -/

theorem OnTheWay.of_cons {target directory : String} {listed : List String}
    (shown : OnTheWay tree target (directory :: listed) sighting) :
    (tree.isDirectory directory = true ∧
        ∃ fault, tree.list directory = .error fault ∧ sighting = .unreadable directory fault) ∨
      OnTheWay tree target listed sighting := by
  cases shown with
  | target there => exact .inr (.target there)
  | closed member there closed =>
      rcases List.mem_cons.mp member with rfl | member
      · exact .inl ⟨there, _, closed, rfl⟩
      · exact .inr (.closed member there closed)

/-- Where there is something to meet on the way, the way can be reached. -/
theorem Spells.exists_stat {target : String} {listed : List String}
    (spells : Spells steps path target listed) (named : path ≠ "")
    (shown : OnTheWay tree target listed sighting) : ∃ node, tree.stat path = .ok node := by
  induction spells with
  | arrive path =>
      cases shown with
      | target there => exact ⟨_, there⟩
      | closed member _ _ => cases member
  | name spelled onward ih =>
      exact Tree.exists_stat_of_extend named (ih spelled shown)
  | names matched isName onward ih =>
      rcases shown.of_cons with ⟨directory, -⟩ | shown
      · exact Tree.exists_stat_of_isDirectory directory
      · exact Tree.exists_stat_of_extend named (ih (Tree.extend_ne_empty named isName) shown)
  | dots special leading matched onward ih =>
      rcases shown.of_cons with ⟨directory, -⟩ | shown
      · exact Tree.exists_stat_of_isDirectory directory
      · exact Tree.exists_stat_of_join named (ih (Path.join_ne_empty named) shown)
  | deeper isName onward ih =>
      rcases shown.of_cons with ⟨directory, -⟩ | shown
      · exact Tree.exists_stat_of_isDirectory directory
      · exact Tree.exists_stat_of_extend named (ih (Tree.extend_ne_empty named isName) shown)
  | beyond accepted isName onward ih =>
      rcases shown.of_cons with ⟨directory, -⟩ | shown
      · exact Tree.exists_stat_of_isDirectory directory
      · exact Tree.exists_stat_of_extend named (ih (Tree.extend_ne_empty named isName) shown)

/-- Where a pattern has a directory listed and goes on at an entry of it, the directory is
closed, or it is open at that entry and there is more on the way. -/
theorem Spells.closed_or_openAt {name target : String} {listed : List String}
    (onward : Spells steps (extend path name) target listed) (named : path ≠ "")
    (isName : IsName name) (shown : OnTheWay tree target (path :: listed) sighting) :
    tree.isDirectory path = true ∧
      ((∃ fault, tree.list path = .error fault ∧ sighting = .unreadable path fault) ∨
        OnTheWay tree target listed sighting ∧
          ∃ key node child, tree.OpenAt path name key node child) := by
  rcases shown.of_cons with ⟨directory, closed⟩ | shown
  · exact ⟨directory, .inl closed⟩
  · obtain ⟨child, there⟩ := onward.exists_stat (Tree.extend_ne_empty named isName) shown
    obtain ⟨key, node, entry⟩ := Tree.openAt_of_stat_extend named isName there
    exact ⟨entry.isDirectory, .inr ⟨shown, key, node, child, entry⟩⟩

/-- The same for a pattern that goes on at one of the two dots. -/
theorem Spells.closed_or_lists {dots target : String} {listed : List String}
    (onward : Spells steps (Path.join path dots) target listed) (named : path ≠ "")
    (special : dots = ".." ∨ dots = ".")
    (shown : OnTheWay tree target (path :: listed) sighting) :
    tree.isDirectory path = true ∧
      ((∃ fault, tree.list path = .error fault ∧ sighting = .unreadable path fault) ∨
        OnTheWay tree target listed sighting ∧ ∃ children, tree.list path = .ok children) := by
  rcases shown.of_cons with ⟨directory, closed⟩ | shown
  · exact ⟨directory, .inl closed⟩
  · obtain ⟨last, there⟩ := onward.exists_stat (Path.join_ne_empty named) shown
    obtain ⟨target, located⟩ := Tree.stat_eq_ok_iff.mp there
    obtain ⟨key, node, passes⟩ := Tree.passes_of_locate_join named located
    have pieces : Path.pieces dots = [dots] ∧ dots ≠ "" := by
      rcases special with rfl | rfl
      · exact ⟨Path.pieces_of_no_slash (by decide), by decide⟩
      · exact ⟨Path.pieces_of_no_slash (by decide), by decide⟩
    exact ⟨Tree.isDirectory_of_locate passes.located passes.isDirectory,
      .inr ⟨shown, _, passes.list pieces.1 pieces.2⟩⟩

/-- Two stars stand for a directory. -/
theorem Spells.isDirectory {target : String} {listed : List String}
    (spells : Spells (.directories :: steps) path target listed) (named : path ≠ "")
    (shown : OnTheWay tree target listed sighting) : tree.isDirectory path = true := by
  cases spells with
  | deeper isName onward => exact (onward.closed_or_openAt named isName shown).1
  | beyond accepted isName onward => exact (onward.closed_or_openAt named isName shown).1

/-- Two stars meet something below a path: every visit does that is deep enough for the
tree. -/
def MetBelow (tree : Tree) (steps : List Step) (path : String) (sighting : Sighting) : Prop :=
  ∀ depth key node, tree.locate path = .ok (.occupied key node) →
    tree.size ≤ depth + key.length →
    sighting ∈ visitBelow tree (visitor tree false steps) depth path

theorem MetBelow.mem_walkSteps (below : MetBelow tree steps path sighting)
    (directory : tree.isDirectory path = true) :
    sighting ∈ walkSteps tree false (.directories :: steps) path := by
  obtain ⟨node, there⟩ := Tree.exists_stat_of_isDirectory directory
  obtain ⟨key, located⟩ := Tree.stat_eq_ok_iff.mp there
  rw [walkSteps_directories, if_pos directory]
  exact below tree.size key node located (Nat.le_add_right _ _)

theorem metBelow_of_closed
    (closed : ∃ fault, tree.list path = .error fault ∧ sighting = .unreadable path fault) :
    MetBelow tree steps path sighting := by
  intro depth key node located deep
  have shorter := Tree.length_lt_size_of_locate located
  obtain ⟨less, rfl⟩ : ∃ less, depth = less + 1 := ⟨depth - 1, by omega⟩
  exact mem_visitBelow_iff.mpr (.inl closed)

/-- What two stars meet at an entry of a directory, or below it, they meet below the
directory. -/
theorem metBelow_of_openAt {name : String} {key : Key} {node child : Node}
    (entry : tree.OpenAt path name key node child)
    (met : sighting ∈ visitor tree false steps (extend path name) name child.isDirectory ∨
      tree.isDirectory (extend path name) = true ∧
        MetBelow tree steps (extend path name) sighting) :
    MetBelow tree steps path sighting := by
  intro depth outer other located deep
  obtain ⟨rfl, rfl⟩ : key = outer ∧ node = other := by
    simpa using entry.located.symm.trans located
  have shorter := Tree.length_lt_size_of_locate located
  obtain ⟨less, rfl⟩ : ∃ less, depth = less + 1 := ⟨depth - 1, by omega⟩
  refine mem_visitBelow_iff.mpr (.inr ⟨_, entry.list, name, child, entry.member, ?_⟩)
  rcases met with here | ⟨directory, below⟩
  · exact .inl here
  · refine .inr ⟨?_, below less _ child entry.below ?_⟩
    · rwa [Tree.isDirectory, Tree.stat_eq_ok_iff.mpr ⟨_, entry.below⟩] at directory
    · rw [List.length_append, List.length_singleton]
      omega

/-- Two stars on their way into an entry: it is enough that they meet there what is still to
come. -/
theorem Spells.met_directories {rest : List Step} {name target : String} {listed : List String}
    (onward : Spells rest (extend path name) target listed) (named : path ≠ "")
    (isName : IsName name) (shown : OnTheWay tree target (path :: listed) sighting)
    (met : OnTheWay tree target listed sighting → ∀ isDirectory,
      sighting ∈ visitor tree false steps (extend path name) name isDirectory ∨
        tree.isDirectory (extend path name) = true ∧
          MetBelow tree steps (extend path name) sighting) :
    sighting ∈ walkSteps tree false (.directories :: steps) path ∧
      MetBelow tree steps path sighting := by
  obtain ⟨directory, closed | ⟨shown, key, node, child, entry⟩⟩ :=
    onward.closed_or_openAt named isName shown
  · have below : MetBelow tree steps path sighting := metBelow_of_closed closed
    exact ⟨below.mem_walkSteps directory, below⟩
  · have below := metBelow_of_openAt entry (met shown _)
    exact ⟨below.mem_walkSteps directory, below⟩

/-- A walk meets what there is to meet on the way, and so do the visits of two stars. -/
theorem Spells.met {target : String} {listed : List String}
    (spells : Spells steps path target listed) (named : path ≠ "")
    (shown : OnTheWay tree target listed sighting) :
    sighting ∈ walkSteps tree false steps path ∧
      ∀ rest, steps = .directories :: rest → MetBelow tree rest path sighting := by
  induction spells with
  | arrive path =>
      cases shown with
      | target there => exact ⟨by simp [walkSteps], nofun⟩
      | closed member _ _ => cases member
  | @name text steps path target listed spelled onward ih =>
      refine ⟨mem_walkSteps_name_iff.mpr ⟨?_, (ih spelled shown).1⟩, nofun⟩
      obtain ⟨last, there⟩ := onward.exists_stat spelled shown
      obtain ⟨target, located⟩ := Tree.stat_eq_ok_iff.mp there
      obtain ⟨key, node, passes⟩ := Tree.passes_of_locate_extend named located
      split
      · exact Tree.isDirectory_of_locate passes.located passes.isDirectory
      · rw [Tree.pathExists, there]
        rfl
  | names matched isName onward ih =>
      refine ⟨mem_walkSteps_names_iff.mpr ?_, nofun⟩
      obtain ⟨directory, closed | ⟨shown, key, node, child, entry⟩⟩ :=
        onward.closed_or_openAt named isName shown
      · exact ⟨directory, .inl closed⟩
      · have met := (ih (Tree.extend_ne_empty named isName) shown).1
        exact ⟨directory, .inr ⟨_, entry.list, .inr ⟨_, child, entry.member, matched, met⟩⟩⟩
  | dots special leading matched onward ih =>
      refine ⟨mem_walkSteps_names_iff.mpr ?_, nofun⟩
      obtain ⟨directory, closed | ⟨shown, children, opened⟩⟩ :=
        onward.closed_or_lists named special shown
      · exact ⟨directory, .inl closed⟩
      · have met := (ih (Path.join_ne_empty named) shown).1
        exact ⟨directory, .inr ⟨_, opened, .inl ⟨_, special, leading, matched, met⟩⟩⟩
  | deeper isName onward ih =>
      have spelled := Tree.extend_ne_empty named isName
      refine (onward.met_directories named isName shown ?_).imp_right ?_
      · intro shown isDirectory
        exact .inr ⟨onward.isDirectory spelled shown, (ih spelled shown).2 _ rfl⟩
      · rintro below rest ⟨⟩
        exact below
  | @beyond step name steps path target listed accepted isName onward ih =>
      have spelled := Tree.extend_ne_empty named isName
      refine (onward.met_directories named isName shown ?_).imp_right ?_
      · intro shown isDirectory
        rw [visitor, if_pos accepted]
        exact .inl (ih spelled shown).1
      · rintro below rest ⟨⟩
        exact below

end

/-! ## Plans -/

end ScopeLowering.Glob
