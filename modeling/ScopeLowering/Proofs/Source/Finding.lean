import ScopeLowering.Proofs.Path.Order
import ScopeLowering.Source

/-!
# What a search finds

A search finds the files among the entries that its walks meet, unless they are excluded. It
is complete if no walk met a directory that could not be listed.
-/

namespace ScopeLowering.Files.Tree

/-- A file has a time of change. -/
theorem modified?_of_isFile {tree : Tree} {path : String} (file : tree.isFile path = true) :
    ∃ time, tree.modified? path = some time := by
  unfold isFile at file
  split at file
  · rename_i node stated
    obtain ⟨_ | _, access⟩ := node
    · rename_i content time
      exact ⟨time, by simp [modified?, stated]⟩
    · cases file
  · cases file

end ScopeLowering.Files.Tree

namespace ScopeLowering.Glob

def Sighting.failure? : Sighting → Option Failure
  | .entry _ => none
  | .unreadable path fault => some (.unreadable path fault)

end ScopeLowering.Glob

namespace ScopeLowering.Source.Search

open ScopeLowering.Files (Fault Tree)
open ScopeLowering.Glob (Plan Sighting)

theorem run_eq_ok_iff {search : Search} {tree : Tree} {finding : Finding} :
    search.run tree = .ok finding ↔ ∃ plans, search.plans = .ok plans ∧
      (plans.flatMap fun plan => plan.walk tree).foldl (search.collect tree) ⟨[], []⟩ =
        finding := by
  cases planned : search.plans with
  | error failure => simp [run, planned, bind, Except.bind]
  | ok plans => simp [run, planned, bind, Except.bind, pure, Except.pure]

def Accepts (search : Search) (tree : Tree) (path : String) : Prop :=
  tree.isFile path = true ∧ search.excludes path = false

theorem collect_entry (search : Search) (tree : Tree) (finding : Finding) (path : String) :
    search.Accepts tree path ∧ search.collect tree finding (.entry path) =
        { finding with paths := Path.insertSorted path finding.paths } ∨
      ¬ search.Accepts tree path ∧ search.collect tree finding (.entry path) = finding := by
  by_cases accepted : search.Accepts tree path
  · exact .inl ⟨accepted, by simp [collect, accepted.1, accepted.2]⟩
  · refine .inr ⟨accepted, ?_⟩
    rw [collect, if_neg]
    simpa [Accepts] using accepted

section

variable {search : Search} {tree : Tree} {finding : Finding} {sightings : List Sighting}

theorem ordered_foldl_collect (ordered : Path.Ordered finding.paths) :
    Path.Ordered (sightings.foldl (search.collect tree) finding).paths := by
  induction sightings generalizing finding with
  | nil => exact ordered
  | cons sighting sightings ih =>
      apply ih
      cases sighting with
      | unreadable path fault => exact ordered
      | entry path =>
          rcases collect_entry search tree finding path with ⟨-, collected⟩ | ⟨-, collected⟩
          · rw [collected]
            exact Path.ordered_insertSorted path ordered
          · rw [collected]
            exact ordered

theorem mem_of_mem_foldl_collect {path : String}
    (member : path ∈ (sightings.foldl (search.collect tree) finding).paths) :
    path ∈ finding.paths ∨ .entry path ∈ sightings ∧ search.Accepts tree path := by
  induction sightings generalizing finding with
  | nil => exact .inl member
  | cons sighting sightings ih =>
      rcases ih member with earlier | ⟨met, accepted⟩
      · cases sighting with
        | unreadable other fault => exact .inl earlier
        | entry other =>
            rcases collect_entry search tree finding other with
              ⟨accepted, collected⟩ | ⟨-, collected⟩
            · rw [collected] at earlier
              rcases Path.mem_of_mem_insertSorted earlier with rfl | earlier
              · exact .inr ⟨List.mem_cons_self, accepted⟩
              · exact .inl earlier
            · exact .inl (collected ▸ earlier)
      · exact .inr ⟨List.mem_cons_of_mem _ met, accepted⟩

theorem mem_components_foldl_collect {key : List Path.Component} :
    key ∈ (sightings.foldl (search.collect tree) finding).paths.map Path.components ↔
      key ∈ finding.paths.map Path.components ∨
        ∃ path, .entry path ∈ sightings ∧ search.Accepts tree path ∧
          Path.components path = key := by
  induction sightings generalizing finding with
  | nil => simp
  | cons sighting sightings ih =>
      rw [List.foldl_cons, ih]
      cases sighting with
      | unreadable other fault => simp [collect]
      | entry other =>
          rcases collect_entry search tree finding other with
            ⟨accepted, collected⟩ | ⟨refused, collected⟩
          · rw [collected, Path.mem_components_insertSorted]
            constructor
            · rintro ((rfl | known) | ⟨path, met, rest⟩)
              · exact .inr ⟨other, List.mem_cons_self, accepted, rfl⟩
              · exact .inl known
              · exact .inr ⟨path, List.mem_cons_of_mem _ met, rest⟩
            · rintro (known | ⟨path, met, wanted, rfl⟩)
              · exact .inl (.inr known)
              · rcases List.mem_cons.mp met with same | met
                · obtain rfl := Sighting.entry.inj same
                  exact .inl (.inl rfl)
                · exact .inr ⟨path, met, wanted, rfl⟩
          · rw [collected]
            constructor
            · rintro (known | ⟨path, met, rest⟩)
              · exact .inl known
              · exact .inr ⟨path, List.mem_cons_of_mem _ met, rest⟩
            · rintro (known | ⟨path, met, wanted, rfl⟩)
              · exact .inl known
              · rcases List.mem_cons.mp met with same | met
                · obtain rfl := Sighting.entry.inj same
                  exact absurd wanted refused
                · exact .inr ⟨path, met, wanted, rfl⟩

theorem failures_foldl_collect :
    (sightings.foldl (search.collect tree) finding).failures =
      finding.failures ++ sightings.filterMap Sighting.failure? := by
  induction sightings generalizing finding with
  | nil => exact (List.append_nil _).symm
  | cons sighting sightings ih =>
      rw [List.foldl_cons, ih]
      cases sighting with
      | unreadable path fault => exact List.append_assoc ..
      | entry path =>
          rcases collect_entry search tree finding path with ⟨-, collected⟩ | ⟨-, collected⟩
          · rw [collected]
            rfl
          · rw [collected]
            rfl

end

/-! ## Results of a search -/

section

variable {search : Search} {tree : Tree} {finding : Finding}

theorem ordered_of_run (found : search.run tree = .ok finding) : Path.Ordered finding.paths := by
  obtain ⟨plans, -, rfl⟩ := run_eq_ok_iff.mp found
  exact ordered_foldl_collect List.Pairwise.nil

/-- A found path is an entry that a walk of the search meets, and a file that is wanted. -/
theorem met_of_mem_run (found : search.run tree = .ok finding) {path : String}
    (member : path ∈ finding.paths) :
    ∃ plans, search.plans = .ok plans ∧ (∃ plan ∈ plans, .entry path ∈ plan.walk tree) ∧
      search.Accepts tree path := by
  obtain ⟨plans, planned, rfl⟩ := run_eq_ok_iff.mp found
  rcases mem_of_mem_foldl_collect member with nothing | ⟨met, accepted⟩
  · cases nothing
  · exact ⟨plans, planned, List.mem_flatMap.mp met, accepted⟩

theorem mem_components_run_iff (found : search.run tree = .ok finding)
    {plans : List Plan} (planned : search.plans = .ok plans) {key : List Path.Component} :
    key ∈ finding.paths.map Path.components ↔
      ∃ path, (∃ plan ∈ plans, .entry path ∈ plan.walk tree) ∧ search.Accepts tree path ∧
        Path.components path = key := by
  obtain ⟨others, same, rfl⟩ := run_eq_ok_iff.mp found
  obtain rfl := Except.ok.inj (same.symm.trans planned)
  rw [mem_components_foldl_collect]
  simp only [List.map_nil, List.not_mem_nil, false_or, List.mem_flatMap]

end

end ScopeLowering.Source.Search
