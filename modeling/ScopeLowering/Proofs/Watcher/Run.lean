import Mathlib.Computability.Language
import ScopeLowering.Proofs.Watcher.Round

/-!
# Runs of a watcher

A watcher that polls is primed, polled and given listeners in any order, each time with the
tree as it is then. Every round compares that tree with what the last rounds have found, so
the changes of a path tell its life: it appears, is modified, and goes.
-/

namespace ScopeLowering.Watcher

open scoped Computability
open ScopeLowering.Files (Tree)
open ScopeLowering.Source (Finding Search)

inductive Act where
  | listen
  | prime (tree : Tree)
  | poll (tree : Tree)
deriving DecidableEq, Repr

def Act.tree? : Act → Option Tree
  | .listen => none
  | .prime tree => some tree
  | .poll tree => some tree

def act (watcher : Watcher) : Act → Watcher
  | .listen => watcher.listen
  | .prime tree => (watcher.prime tree).1
  | .poll tree => (watcher.poll tree).1

/-- The changes that a watcher notices. Those noticed while it is primed are not reported. -/
def noticed (watcher : Watcher) : Act → List Change
  | .listen => []
  | .prime tree => (scan watcher.search tree watcher.records).2.1
  | .poll tree => (watcher.poll tree).2.changes

def after (watcher : Watcher) (acts : List Act) : Watcher := acts.foldl act watcher

def watching (search : Search) (acts : List Act) : Watcher := (make .poll search).after acts

def chronicle (watcher : Watcher) : List Act → List Change
  | [] => []
  | first :: acts => watcher.noticed first ++ (watcher.act first).chronicle acts

/-- The latest round that found a path, or was complete, found it with this time of change. -/
inductive LastFound (search : Search) (key : List Path.Component) (time : Int) :
    List Act → Prop where
  | here {acts : List Act} {act : Act} {tree : Tree} {finding : Finding} {path : String}
      (shown : act.tree? = some tree) (searched : search.run tree = .ok finding)
      (member : path ∈ finding.paths) (spelled : Path.components path = key)
      (modified : tree.modified? path = some time) : LastFound search key time (acts ++ [act])
  | earlier {acts : List Act} {act : Act} (known : LastFound search key time acts)
      (missed : ∀ tree finding, act.tree? = some tree → search.run tree = .ok finding →
        key ∉ finding.paths.map Path.components ∧ finding.complete = false) :
      LastFound search key time (acts ++ [act])

/-- A file appears, is modified any number of times, and goes. -/
def life : Language Kind := {[.created]} * {[.modified]}∗ * {[.deleted]}

theorem after_concat (watcher : Watcher) (acts : List Act) (last : Act) :
    watcher.after (acts ++ [last]) = (watcher.after acts).act last := by
  rw [after, List.foldl_append]
  rfl

theorem watching_concat (search : Search) (acts : List Act) (last : Act) :
    watching search (acts ++ [last]) = (watching search acts).act last :=
  after_concat _ acts last

theorem chronicle_concat (watcher : Watcher) (acts : List Act) (last : Act) :
    watcher.chronicle (acts ++ [last]) =
      watcher.chronicle acts ++ (watcher.after acts).noticed last := by
  induction acts generalizing watcher with
  | nil => exact List.append_nil _
  | cons first acts ih =>
      rw [List.cons_append, chronicle, chronicle, ih, List.append_assoc]
      rfl

theorem chronicle_watching_concat (search : Search) (acts : List Act) (last : Act) :
    (make .poll search).chronicle (acts ++ [last]) =
      (make .poll search).chronicle acts ++ (watching search acts).noticed last :=
  chronicle_concat _ acts last

/-! ## Steps -/

@[simp]
theorem search_act (watcher : Watcher) (act : Act) :
    (watcher.act act).search = watcher.search ∧ (watcher.act act).strategy = watcher.strategy := by
  cases act with
  | listen => exact ⟨rfl, rfl⟩
  | prime tree => rw [Watcher.act, prime]; split <;> exact ⟨rfl, rfl⟩
  | poll tree => rw [Watcher.act, poll]; split <;> exact ⟨rfl, rfl⟩

/-- A watcher that polls compares the tree it is shown, primed or not. -/
theorem act_of_tree? {watcher : Watcher} (polls : watcher.strategy = .poll) {act : Act}
    {tree : Tree} (shown : act.tree? = some tree) :
    (watcher.act act).records = (scan watcher.search tree watcher.records).1 ∧
      watcher.noticed act = (scan watcher.search tree watcher.records).2.1 := by
  cases act with
  | listen => cases shown
  | prime other =>
      obtain rfl := Option.some.inj shown
      simp [Watcher.act, noticed, prime, Watcher.polls, polls]
  | poll other =>
      obtain rfl := Option.some.inj shown
      simp [Watcher.act, noticed, poll, Watcher.polls, polls]

theorem act_of_unshown (watcher : Watcher) {act : Act} (unshown : act.tree? = none) :
    (watcher.act act).records = watcher.records ∧ watcher.noticed act = [] := by
  cases act with
  | listen => exact ⟨rfl, rfl⟩
  | prime tree => cases unshown
  | poll tree => cases unshown

/-- All that a step can do to a watcher that polls. -/
theorem act_cases {good : String → Prop} {watcher : Watcher} (polls : watcher.strategy = .poll)
    (spelled : Spelled good watcher.records) (act : Act) :
    (watcher.act act).records = watcher.records ∧ watcher.noticed act = [] ∧
        (∀ tree finding, act.tree? = some tree → watcher.search.run tree ≠ .ok finding) ∨
      ∃ tree finding, act.tree? = some tree ∧ watcher.search.run tree = .ok finding ∧
        Compares tree finding watcher.records (watcher.act act).records
          (watcher.noticed act) := by
  cases shown : act.tree? with
  | none =>
      obtain ⟨kept, quiet⟩ := act_of_unshown watcher shown
      exact .inl ⟨kept, quiet, by simp⟩
  | some tree =>
      obtain ⟨left, changed⟩ := act_of_tree? polls shown
      rw [left, changed]
      cases searched : watcher.search.run tree with
      | error failure =>
          rw [scan_of_error searched]
          refine .inl ⟨rfl, rfl, ?_⟩
          rintro other finding same
          obtain rfl := Option.some.inj same
          rw [searched]
          exact nofun
      | ok finding => exact .inr ⟨tree, finding, rfl, searched, compares_scan spelled searched⟩

/-- The changes of a path are the difference between what is known of it before a step and
after it. -/
theorem changesOf_noticed {good : String → Prop} {watcher : Watcher}
    (polls : watcher.strategy = .poll) (spelled : Spelled good watcher.records) (act : Act)
    (key : List Path.Component) :
    changesOf key (watcher.noticed act) =
      difference (time? watcher.records key) (time? (watcher.act act).records key) := by
  rcases act_cases polls spelled act with ⟨kept, quiet, -⟩ | ⟨tree, finding, -, -, compares⟩
  · rw [kept, quiet, difference_self]
    rfl
  · exact compares.changesOf_eq key

theorem nodup_noticed {good : String → Prop} {watcher : Watcher}
    (polls : watcher.strategy = .poll) (spelled : Spelled good watcher.records) (act : Act) :
    ((watcher.noticed act).map fun change => Path.components change.path).Nodup := by
  rw [List.nodup_iff_count_le_one]
  intro key
  have once := length_difference_le (time? watcher.records key)
    (time? (watcher.act act).records key)
  rw [← changesOf_noticed polls spelled act key, changesOf, List.length_map] at once
  rw [List.count, List.countP_map, List.countP_eq_length_filter]
  simpa only [Function.comp_def, beq_eq_decide] using once

/-! ## Runs -/

section

variable (search : Search) (acts : List Act)

theorem search_after : (watching search acts).search = search ∧
    (watching search acts).strategy = .poll := by
  induction acts using List.reverseRecOn with
  | nil => exact ⟨rfl, rfl⟩
  | append_singleton acts last ih =>
      obtain ⟨sameSearch, sameStrategy⟩ := search_act (watching search acts) last
      rw [watching_concat, sameSearch, sameStrategy]
      exact ih

/-- Whatever holds of every path that a search finds holds of the known paths of a run. -/
theorem spelled_after {good : String → Prop}
    (known : ∀ act ∈ acts, ∀ tree finding, act.tree? = some tree →
      search.run tree = .ok finding → ∀ path ∈ finding.paths, good path) :
    Spelled good (watching search acts).records := by
  induction acts using List.reverseRecOn with
  | nil =>
      constructor
      · exact List.nodup_nil
      · intro entry member
        cases member
  | append_singleton acts last ih =>
      have before := ih fun act member => known act (List.mem_append_left _ member)
      obtain ⟨sameSearch, polls⟩ := search_after search acts
      rw [watching_concat]
      cases shown : last.tree? with
      | none => rwa [(act_of_unshown _ shown).1]
      | some tree =>
          rw [(act_of_tree? polls shown).1, sameSearch]
          apply before.scan
          intro finding searched
          exact known last (by simp) tree finding shown searched

theorem spelled_after_true : Spelled (fun _ => True) (watching search acts).records :=
  spelled_after search acts fun _ _ _ _ _ _ _ _ => trivial

/-- What is known of a path is what the latest round that found it has found. -/
theorem time?_after_iff {key : List Path.Component} {time : Int} :
    time? (watching search acts).records key = some time ↔
      LastFound search key time acts := by
  obtain ⟨sameSearch, polls⟩ := search_after search acts
  constructor
  · intro known
    induction acts using List.reverseRecOn with
    | nil => cases known
    | append_singleton acts last ih =>
        obtain ⟨sameSearch, polls⟩ := search_after search acts
        rw [watching_concat] at known
        rcases act_cases polls (spelled_after_true search acts) last with
          ⟨kept, -, refused⟩ | ⟨tree, finding, shown, searched, compares⟩
        · rw [kept] at known
          refine .earlier (ih sameSearch polls known) ?_
          intro tree finding shown searched
          rw [← sameSearch] at searched
          exact absurd searched (refused tree finding shown)
        · rw [sameSearch] at searched
          by_cases present : key ∈ finding.paths.map Path.components
          · obtain ⟨path, member, rfl⟩ := List.mem_map.mp present
            obtain ⟨found, modified, now, -⟩ := compares.found path member
            obtain rfl := Option.some.inj (now.symm.trans known)
            exact .here shown searched member rfl modified
          · cases complete : finding.complete with
            | true =>
                rw [(compares.missed key present complete).1] at known
                cases known
            | false =>
                rw [(compares.kept key present complete).1] at known
                refine .earlier (ih sameSearch polls known) ?_
                intro other found same again
                obtain rfl := Option.some.inj (shown.symm.trans same)
                obtain rfl := Except.ok.inj (searched.symm.trans again)
                exact ⟨present, complete⟩
  · intro last
    clear sameSearch polls
    induction last with
    | @here acts act tree finding path shown searched member spelled modified =>
        obtain ⟨sameSearch, polls⟩ := search_after search acts
        rw [watching_concat, (act_of_tree? polls shown).1, sameSearch, ← spelled]
        obtain ⟨found, same, now, -⟩ :=
          (compares_scan (spelled_after_true search acts) searched).found path member
        rw [now, ← same, modified]
    | @earlier acts act known missed ih =>
        obtain ⟨sameSearch, polls⟩ := search_after search acts
        rw [watching_concat]
        rcases act_cases polls (spelled_after_true search acts) act with
          ⟨kept, -, -⟩ | ⟨tree, finding, shown, searched, compares⟩
        · rw [kept]
          exact ih
        · rw [sameSearch] at searched
          obtain ⟨absent, partly⟩ := missed tree finding shown searched
          rw [(compares.kept key absent partly).1]
          exact ih

theorem created_mem : [.created] ∈ ({[.created]} * {[.modified]}∗ : Language Kind) :=
  Language.mem_mul.mpr ⟨[.created], rfl, [], Language.nil_mem_kstar _, rfl⟩

theorem append_modified_mem {word : List Kind}
    (member : word ∈ ({[.created]} * {[.modified]}∗ : Language Kind)) :
    word ++ [.modified] ∈ ({[.created]} * {[.modified]}∗ : Language Kind) := by
  have longer : ({[.created]} * {[.modified]}∗ * {[.modified]} : Language Kind) ≤
      {[.created]} * {[.modified]}∗ := by
    rw [mul_assoc]
    exact mul_le_mul_right kstar_mul_le_kstar _
  exact longer (Language.append_mem_mul member rfl)

theorem append_life_mem {earlier last : List Kind} (lives : earlier ∈ life∗)
    (member : last ∈ life) : earlier ++ last ∈ life∗ := by
  have longer : life∗ * life ≤ life∗ := kstar_mul_le_kstar
  exact longer (Language.append_mem_mul lives member)

/-- The chronicle of a path is made of whole lives, and the beginning of one if the path is
known. -/
theorem changesOf_chronicle (key : List Path.Component) :
    (time? (watching search acts).records key = none →
        changesOf key ((make .poll search).chronicle acts) ∈ life∗) ∧
      ∀ time, time? (watching search acts).records key = some time →
        ∃ lives ∈ life∗, ∃ begun ∈ ({[.created]} * {[.modified]}∗ : Language Kind),
          changesOf key ((make .poll search).chronicle acts) = lives ++ begun := by
  induction acts using List.reverseRecOn with
  | nil => exact ⟨fun _ => Language.nil_mem_kstar life, fun _ known => by cases known⟩
  | append_singleton acts last ih =>
      obtain ⟨-, polls⟩ := search_after search acts
      have changes := changesOf_noticed polls (spelled_after_true search acts) last key
      rw [watching_concat, chronicle_watching_concat, changesOf_append, changes]
      obtain ⟨gone, here⟩ := ih
      cases before : time? (watching search acts).records key with
      | none =>
          have lives := gone before
          constructor
          · intro unknown
            rw [unknown, difference, List.append_nil]
            exact lives
          · intro time known
            rw [known]
            exact ⟨_, lives, [.created], created_mem, rfl⟩
      | some time =>
          obtain ⟨lives, whole, begun, part, same⟩ := here time before
          rw [same]
          constructor
          · intro unknown
            rw [unknown, List.append_assoc]
            exact append_life_mem whole (Language.append_mem_mul part rfl)
          · intro next known
            rw [known, difference, List.append_assoc]
            refine ⟨lives, whole, _, ?_, rfl⟩
            split
            · rw [List.append_nil]
              exact part
            · exact append_modified_mem part

/-- A watcher that polls follows the trees it is shown: each round compares what its search
finds with what the latest rounds have found, names no path twice, and leaves the watcher as it
was if the search is refused. What happens to a path in a run are whole lives and the beginning
of one. -/
theorem follows_trees :
    (∀ act tree, act.tree? = some tree →
      match search.run tree with
      | .error _ => ((watching search acts).act act).records = (watching search acts).records ∧
          (watching search acts).noticed act = []
      | .ok finding => Compares tree finding (watching search acts).records
          ((watching search acts).act act).records ((watching search acts).noticed act)) ∧
      (∀ act, (((watching search acts).noticed act).map fun change =>
        Path.components change.path).Nodup) ∧
      (∀ key time, time? (watching search acts).records key = some time ↔
        LastFound search key time acts) ∧
      ∀ key, ∃ rest, changesOf key ((make .poll search).chronicle acts) ++ rest ∈ life∗ := by
  obtain ⟨sameSearch, polls⟩ := search_after search acts
  have spelled := spelled_after_true search acts
  refine ⟨?_, nodup_noticed polls spelled, fun _ _ => time?_after_iff search acts, ?_⟩
  · intro act tree shown
    obtain ⟨left, changed⟩ := act_of_tree? polls shown
    rw [left, changed, sameSearch]
    split
    · rename_i failure refused
      rw [scan_of_error refused]
      exact ⟨rfl, rfl⟩
    · rename_i finding searched
      exact compares_scan spelled searched
  · intro key
    obtain ⟨gone, here⟩ := changesOf_chronicle search acts key
    cases known : time? (watching search acts).records key with
    | none => exact ⟨[], (List.append_nil _).symm ▸ gone known⟩
    | some time =>
        obtain ⟨lives, whole, begun, part, same⟩ := here time known
        refine ⟨[.deleted], ?_⟩
        rw [same, List.append_assoc]
        exact append_life_mem whole (Language.append_mem_mul part rfl)

end

end ScopeLowering.Watcher
