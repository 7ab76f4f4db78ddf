import Mathlib.Data.List.Sort
import ScopeLowering.Files.Edit
import ScopeLowering.Proofs.Source.Finding

/-!
# Exact findings

A search finds exactly the files that the walks of its patterns meet and that no excluded pattern
matches, sorted, and says of every directory that a walk could not list. So it does not matter in
which order the patterns are given, or how often.
-/

namespace ScopeLowering

/-- The values of some items, or the failure of the first item that has none. -/
theorem mapM_mapError_cases {α β ε δ : Type} (read : α → Except ε β) (blame : α → ε → δ)
    (items : List α) :
    (∃ values, items.mapM (fun item => (read item).mapError (blame item)) = .ok values ∧
      List.Forall₂ (fun item value => read item = .ok value) items values) ∨
    ∃ before item fault after, items = before ++ item :: after ∧
      (∀ earlier ∈ before, ∃ value, read earlier = .ok value) ∧ read item = .error fault ∧
      items.mapM (fun item => (read item).mapError (blame item)) = .error (blame item fault) := by
  induction items with
  | nil => exact .inl ⟨[], rfl, .nil⟩
  | cons first items ih =>
      cases made : read first with
      | error fault =>
          refine .inr ⟨[], first, fault, items, rfl, by simp, made, ?_⟩
          rw [List.mapM_cons, made]
          rfl
      | ok value =>
          rcases ih with ⟨values, all, each⟩ | ⟨before, item, fault, after, rfl, earlier, bad, all⟩
          · refine .inl ⟨value :: values, ?_, .cons made each⟩
            rw [List.mapM_cons, made, all]
            rfl
          · refine .inr ⟨first :: before, item, fault, after, rfl,
              List.forall_mem_cons.mpr ⟨⟨value, made⟩, earlier⟩, bad, ?_⟩
            rw [List.mapM_cons, made, all]
            rfl

theorem forall_values_iff {α β ε : Type} {read : α → Except ε β} {items : List α}
    {values : List β} (each : List.Forall₂ (fun item value => read item = .ok value) items values)
    (holds : β → Prop) :
    (∀ value ∈ values, holds value) ↔
      ∀ item ∈ items, ∀ value, read item = .ok value → holds value := by
  induction each with
  | nil => simp
  | cons made each ih => simp only [List.forall_mem_cons, ih, made, Except.ok.injEq, forall_eq']

namespace Path

/-- Sorted lists with the same paths have them in the same order. -/
theorem Ordered.components_eq {first second : List String} (left : Ordered first)
    (right : Ordered second)
    (same : ∀ key, key ∈ first.map components ↔ key ∈ second.map components) :
    first.map components = second.map components := by
  have keys (paths : List String) :
      paths.map sortKey = (paths.map components).map (List.map Component.sortKey) := by
    rw [List.map_map]
    rfl
  have sorted {paths : List String} (ordered : Ordered paths) :
      (paths.map sortKey).Pairwise (· < ·) := List.pairwise_map.mpr ordered
  have equal : first.map sortKey = second.map sortKey := by
    apply (sorted left).eq_of_mem_iff (sorted right)
    intro key
    simp only [keys, List.mem_map (f := List.map Component.sortKey), same]
  rw [keys, keys] at equal
  exact List.map_injective_iff.mpr
    (List.map_injective_iff.mpr Component.sortKey_injective) equal

end Path

namespace Glob

open ScopeLowering.Files (Tree)

/-- What the walk of a pattern meets. A malformed pattern has no walk. -/
def sightings (tree : Tree) (pattern : String) : List Sighting :=
  match plan pattern with
  | .ok plan => plan.walk tree
  | .error _ => []

def Walkable (patterns : List String) : Prop :=
  ∀ pattern ∈ patterns, ∃ plan, Glob.plan pattern = .ok plan

theorem walkable_of_forall₂ {patterns : List String} {plans : List Plan}
    (each : List.Forall₂ (fun pattern plan => Glob.plan pattern = .ok plan) patterns plans) :
    Walkable patterns := by
  induction each with
  | nil => exact List.forall_mem_nil _
  | cons made each ih => exact List.forall_mem_cons.mpr ⟨⟨_, made⟩, ih⟩

theorem flatMap_walk {patterns : List String} {plans : List Plan}
    (each : List.Forall₂ (fun pattern plan => Glob.plan pattern = .ok plan) patterns plans)
    (tree : Tree) :
    plans.flatMap (fun plan => plan.walk tree) = patterns.flatMap (sightings tree) := by
  induction each with
  | nil => rfl
  | cons made each ih => rw [List.flatMap_cons, List.flatMap_cons, ih, sightings, made]

end Glob

namespace Source.Search

open ScopeLowering.Files (Tree)
open ScopeLowering.Glob (Plan Sighting Walkable sightings walkable_of_forall₂)

def find (wanted excluded : List String) (tree : Tree) : Except Failure Finding := do
  let search ← make wanted excluded
  search.run tree

/-- A path, as it is spelled, that leads to a file and that no pattern matches. -/
def Admitted (excluded : List String) (tree : Tree) (path : String) : Prop :=
  tree.isFile path = true ∧ ∀ pattern ∈ excluded, ∀ tokens, Glob.tokens pattern = .ok tokens →
    Glob.matchTokens tokens path.toList = false

end Source.Search

/-- A finding is what the walks of the wanted patterns meet: the admitted files in ascending
order, and the directories that could not be listed in the order of the walks. -/
structure Source.Finding.Exact (finding : Source.Finding) (wanted excluded : List String)
    (tree : Files.Tree) : Prop where
  ordered : Path.Ordered finding.paths
  found : ∀ key, key ∈ finding.paths.map Path.components ↔
    ∃ path, (∃ pattern ∈ wanted, .entry path ∈ Glob.sightings tree pattern) ∧
      Source.Search.Admitted excluded tree path ∧ Path.components path = key
  spelled : ∀ path ∈ finding.paths,
    (∃ pattern ∈ wanted, .entry path ∈ Glob.sightings tree pattern) ∧
      Source.Search.Admitted excluded tree path
  failures : finding.failures =
    wanted.flatMap fun pattern => (Glob.sightings tree pattern).filterMap Glob.Sighting.failure?

namespace Source.Search

open ScopeLowering.Files (Tree)
open ScopeLowering.Glob (Plan Sighting Walkable sightings walkable_of_forall₂)

variable {wanted excluded : List String}

/-- Patterns to leave out that are well formed give a search. -/
theorem exists_make (readable : ∀ pattern ∈ excluded, ∃ tokens, Glob.tokens pattern = .ok tokens)
    (wanted : List String) :
    ∃ search, make wanted excluded = .ok search ∧ search.wanted = wanted ∧
      ∀ tree path, search.Accepts tree path ↔ Admitted excluded tree path := by
  rcases mapM_mapError_cases Glob.tokens Failure.pattern excluded with
    ⟨read, all, each⟩ | ⟨before, pattern, fault, after, rfl, -, bad, -⟩
  · refine ⟨⟨wanted, read⟩, ?_, rfl, ?_⟩
    · rw [make, all]
      rfl
    · intro tree path
      rw [Accepts, Admitted, ← forall_values_iff each, excludes, List.any_eq_false]
      simp only [Bool.not_eq_true]
  · obtain ⟨tokens, good⟩ := readable pattern (by simp)
    rw [bad] at good
    cases good

/-- A search whose patterns can be walked finds exactly what they ask for. -/
theorem exists_exact_find
    (readable : ∀ pattern ∈ excluded, ∃ tokens, Glob.tokens pattern = .ok tokens)
    (walkable : Walkable wanted) (tree : Tree) :
    ∃ finding, find wanted excluded tree = .ok finding ∧ finding.Exact wanted excluded tree := by
  obtain ⟨search, made, rfl, accepts⟩ := exists_make readable wanted
  rcases mapM_mapError_cases Glob.plan Failure.pattern search.wanted with
    ⟨plans, planned, each⟩ | ⟨before, pattern, fault, after, shape, -, bad, -⟩
  · have met (sighting : Sighting) : (∃ plan ∈ plans, sighting ∈ plan.walk tree) ↔
        ∃ pattern ∈ search.wanted, sighting ∈ sightings tree pattern := by
      rw [← List.mem_flatMap, Glob.flatMap_walk each, List.mem_flatMap]
    obtain ⟨finding, found⟩ : ∃ finding, search.run tree = .ok finding :=
      ⟨_, run_eq_ok_iff.mpr ⟨plans, planned, rfl⟩⟩
    refine ⟨finding, ?_, ordered_of_run found, ?_, ?_, ?_⟩
    · rw [find, made]
      exact found
    · intro key
      rw [mem_components_run_iff found planned]
      simp only [met, accepts]
    · intro path member
      obtain ⟨others, same, entry, accepted⟩ := met_of_mem_run found member
      obtain rfl := Except.ok.inj (same.symm.trans planned)
      exact ⟨(met _).mp entry, (accepts tree path).mp accepted⟩
    · obtain ⟨others, same, rfl⟩ := run_eq_ok_iff.mp found
      obtain rfl := Except.ok.inj (same.symm.trans planned)
      rw [failures_foldl_collect, Glob.flatMap_walk each, List.filterMap_flatMap]
      rfl
  · obtain ⟨plan, good⟩ := walkable pattern (by simp [shape])
    rw [bad] at good
    cases good

/-- A search is refused for the first pattern that cannot be walked. -/
theorem exists_refused_find
    (readable : ∀ pattern ∈ excluded, ∃ tokens, Glob.tokens pattern = .ok tokens)
    (malformed : ¬Walkable wanted) (tree : Tree) :
    ∃ before pattern fault after, wanted = before ++ pattern :: after ∧ Walkable before ∧
      Glob.plan pattern = .error fault ∧
      find wanted excluded tree = .error (.pattern pattern fault) := by
  obtain ⟨search, made, rfl, -⟩ := exists_make readable wanted
  rcases mapM_mapError_cases Glob.plan Failure.pattern search.wanted with
    ⟨plans, -, each⟩ | ⟨before, pattern, fault, after, shape, earlier, bad, refused⟩
  · exact absurd (walkable_of_forall₂ each) malformed
  · refine ⟨before, pattern, fault, after, shape, earlier, bad, ?_⟩
    have planned : search.plans = .error (.pattern pattern fault) := refused
    rw [find, made]
    simp [run, planned, bind, Except.bind]

/-- A search is refused for the first pattern that cannot be walked. If there is none, it finds
exactly what its patterns ask for, whatever their order and however often each is given, and two
lists of patterns together find what either finds. -/
theorem find_exact (tree : Tree)
    (readable : ∀ pattern ∈ excluded, ∃ tokens, Glob.tokens pattern = .ok tokens) :
    (∀ wanted, ¬Walkable wanted → ∃ before pattern fault after,
      wanted = before ++ pattern :: after ∧ Walkable before ∧ Glob.plan pattern = .error fault ∧
        find wanted excluded tree = .error (.pattern pattern fault)) ∧
    (∀ wanted, Walkable wanted → ∃ finding,
      find wanted excluded tree = .ok finding ∧ finding.Exact wanted excluded tree) ∧
    (∀ first second, Walkable first → (∀ pattern, pattern ∈ first ↔ pattern ∈ second) →
      ∃ one two, find first excluded tree = .ok one ∧ find second excluded tree = .ok two ∧
        one.paths.map Path.components = two.paths.map Path.components) ∧
    (∀ first second, Walkable first → Walkable second → ∃ one two both,
      find first excluded tree = .ok one ∧ find second excluded tree = .ok two ∧
        find (first ++ second) excluded tree = .ok both ∧
        ∀ key, key ∈ both.paths.map Path.components ↔
          key ∈ one.paths.map Path.components ∨ key ∈ two.paths.map Path.components) := by
  refine ⟨fun wanted malformed => exists_refused_find readable malformed tree,
    fun wanted walkable => exists_exact_find readable walkable tree, ?_, ?_⟩
  · intro first second walkable same
    have also : Walkable second := fun pattern member =>
      walkable pattern ((same pattern).mpr member)
    obtain ⟨one, found, exact⟩ := exists_exact_find readable walkable tree
    obtain ⟨two, sought, precise⟩ := exists_exact_find readable also tree
    refine ⟨one, two, found, sought, exact.ordered.components_eq precise.ordered ?_⟩
    intro key
    simp only [exact.found, precise.found, same]
  · intro first second walkable also
    have all : Walkable (first ++ second) := List.forall_mem_append.mpr ⟨walkable, also⟩
    obtain ⟨one, found, exact⟩ := exists_exact_find readable walkable tree
    obtain ⟨two, sought, precise⟩ := exists_exact_find readable also tree
    obtain ⟨both, reached, total⟩ := exists_exact_find readable all tree
    refine ⟨one, two, both, found, sought, reached, ?_⟩
    intro key
    simp only [exact.found, precise.found, total.found, List.mem_append, or_and_right, exists_or]

def partlyClosedTree : Tree :=
  [Files.Edit.write "c.css" (.text "") 0, .write "a/x.css" (.text "") 0,
    .write "skip/z.css" (.text "") 0, .makeDirectory "shut",
    .restrict "shut" .locked].foldl Tree.edit .empty

/-- Patterns that name a file twice, in two spellings, and one file to leave out. -/
def overlappingPatterns : List String := ["c.css", "a/./x.css", "skip/*", "shut/*", "a/*.css"]

theorem walkable_overlappingPatterns : Walkable overlappingPatterns := by
  have all : ∀ pattern ∈ overlappingPatterns, (Glob.plan pattern).isOk = true :=
    List.all_eq_true.mp (by decide +kernel)
  intro pattern member
  have made := all pattern member
  cases result : Glob.plan pattern with
  | ok plan => exact ⟨plan, rfl⟩
  | error fault =>
      rw [result] at made
      cases made

/-- What is found in the tree: each file once, in the spelling that was met first. -/
theorem find_exact_partlyClosedTree :
    (∀ pattern ∈ ["skip/**"], ∃ tokens, Glob.tokens pattern = .ok tokens) ∧
      Walkable overlappingPatterns ∧
      Finding.Exact ⟨["a/./x.css", "c.css"], [.unreadable "shut" .denied]⟩
        overlappingPatterns ["skip/**"] partlyClosedTree := by
  have readable : ∀ pattern ∈ ["skip/**"], ∃ tokens, Glob.tokens pattern = .ok tokens := by
    intro pattern member
    obtain rfl := List.mem_singleton.mp member
    exact ⟨"skip/".toList.map .literal ++ [.anyDirectories], by decide +kernel⟩
  obtain ⟨-, exact, -⟩ := find_exact partlyClosedTree readable
  obtain ⟨finding, found, precise⟩ := exact _ walkable_overlappingPatterns
  have listed : find overlappingPatterns ["skip/**"] partlyClosedTree =
      .ok ⟨["a/./x.css", "c.css"], [.unreadable "shut" .denied]⟩ := by decide +kernel
  obtain rfl := Except.ok.inj (found.symm.trans listed)
  exact ⟨readable, walkable_overlappingPatterns, precise⟩

end Source.Search

end ScopeLowering
