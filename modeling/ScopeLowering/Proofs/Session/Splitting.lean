import ScopeLowering.Proofs.Session.Memory

/-!
# Batches in parts

A batch passes over sources by what its session remembered before it, and handles the others one
after another. Handling a source says nothing about other origins, so a batch of sources with
different origins may be cut into two batches anywhere.
-/

namespace ScopeLowering.Session

open ScopeLowering.Output (World)

namespace Report

theorem merge_assoc (first second third : Report) :
    (first.merge second).merge third = first.merge (second.merge third) := by
  simp [merge, Nat.add_assoc]

theorem merge_empty (report : Report) : report.merge empty = report := by
  simp [merge, empty]

/-- The order of two reports matters only if both have written something. -/
theorem merge_comm_of_unwritten {first second : Report} (unwritten : first.written = []) :
    first.merge second = second.merge first := by
  simp [merge, unwritten, Nat.add_comm]

end Report

namespace Progress

/-- Progress that comes after what was reported before. -/
def after (progress : Progress) (earlier : Report) : Progress :=
  { progress with report := earlier.merge progress.report }

theorem after_after (progress : Progress) (first second : Report) :
    (progress.after second).after first = progress.after (first.merge second) := by
  simp [after, Report.merge_assoc]

end Progress

section

variable [TextHash]

namespace Progress

theorem succeed_after (progress : Progress) (source : Source) (earlier : Report)
    (destination : Output.Destination) :
    (progress.after earlier).succeed source destination =
      (progress.succeed source destination).after earlier := by
  simp [succeed, after, Report.merge, List.append_assoc]

/-- What is done for a source does not depend on the report. -/
theorem handle_after (progress : Progress) (earlier : Report) (source : Source) :
    (progress.after earlier).handle source = (progress.handle source).after earlier := by
  unfold handle
  cases Stylesheet.lower? source.text.toList with
  | none => rfl
  | some css =>
      dsimp only [deliver, after]
      cases progress.session.acquire source.origin
          (progress.session.layout.destination source.origin) with
      | error failure => rfl
      | ok session =>
          dsimp only
          split
          · rename_i world _
            exact succeed_after ⟨session, world, progress.report⟩ source earlier _
          · rfl

theorem foldl_handle_after (progress : Progress) (earlier : Report) (sources : List Source) :
    sources.foldl handle (progress.after earlier) =
      (sources.foldl handle progress).after earlier := by
  induction sources generalizing progress with
  | nil => rfl
  | cons source sources ih => rw [List.foldl_cons, handle_after, ih, List.foldl_cons]

/-- Progress goes on from the session and the world that it has reached. -/
theorem foldl_handle_eq_after (progress : Progress) (sources : List Source) :
    sources.foldl handle progress =
      (sources.foldl handle (start progress.session progress.world)).after progress.report := by
  rw [← foldl_handle_after, after, start, Report.merge_empty]

end Progress

def passedOver (session : Session) (sources : List Source) : Report :=
  { Report.empty with unchanged := sources.length - (session.fresh sources).length }

theorem length_fresh_le (session : Session) (sources : List Source) :
    (session.fresh sources).length ≤ sources.length :=
  List.length_filter_le ..

theorem passedOver_append (session : Session) (first second : List Source) :
    session.passedOver (first ++ second) =
      (session.passedOver second).merge (session.passedOver first) := by
  have one := session.length_fresh_le first
  have two := session.length_fresh_le second
  simp only [passedOver, Report.merge, Report.empty, fresh, List.filter_append,
    List.length_append] at one two ⊢
  congr 1
  omega

theorem passedOver_append_merge (session : Session) (first second : List Source)
    (report : Report) :
    (session.passedOver (first ++ second)).merge report =
      ((session.passedOver first).merge report).merge (session.passedOver second) := by
  rw [passedOver_append, Report.merge_assoc, Report.merge_comm_of_unwritten rfl]

/-- A batch is what its fresh sources make of a session, after the sources that are passed
over. -/
theorem lowerSources_eq_after {session : Session} (awake : session.hibernating = false)
    (world : World) (sources : List Source) :
    session.lowerSources world sources =
      ((session.fresh sources).foldl Progress.handle (.start session world)).after
        (session.passedOver sources) := by
  rw [lowerSources_eq awake, ← Progress.foldl_handle_after]
  rfl

theorem seen_handle_of_ne {progress : Progress} {source : Source} {origin : String}
    (other : source.origin ≠ origin) :
    (progress.handle source).session.seen.get? origin = progress.session.seen.get? origin := by
  have remembers : ∀ session : Session,
      (session.remember source).seen.get? origin = session.seen.get? origin := by
    intro session
    rw [remember, Table.get?_insert, if_neg other]
  have handled := progress.handles source
  generalize progress.outcome source = outcome, progress.handle source = after at handled
  cases handled with
  | withoutScope plain => exact remembers _
  | refused lowered owned => rfl
  | written lowered acquired delivered =>
      obtain ⟨-, -, seen, -⟩ := acquire_eq_ok acquired
      rw [← seen]
      exact remembers _
  | undelivered lowered acquired failed =>
      obtain ⟨-, -, seen, -⟩ := acquire_eq_ok acquired
      exact congrArg (Table.get? · origin) seen

/-- What is remembered about an origin stays as long as no source of that origin is handled. -/
theorem seen_handleAll_of_ne {progress : Progress} {sources : List Source} {origin : String}
    (others : ∀ source ∈ sources, source.origin ≠ origin) :
    (sources.foldl Progress.handle progress).session.seen.get? origin =
      progress.session.seen.get? origin := by
  induction sources generalizing progress with
  | nil => rfl
  | cons source sources ih =>
      rw [List.foldl_cons, ih fun other member => others other (List.mem_cons_of_mem _ member),
        seen_handle_of_ne (others source List.mem_cons_self)]

/-- Sources of other origins are as fresh after a batch as they were before it. -/
theorem fresh_handleAll {progress : Progress} {handled sources : List Source}
    (others : ∀ source ∈ sources, ∀ other ∈ handled, other.origin ≠ source.origin) :
    (handled.foldl Progress.handle progress).session.fresh sources =
      progress.session.fresh sources := by
  apply List.filter_congr
  intro source member
  rw [isUnchanged, isUnchanged, seen_handleAll_of_ne (others source member)]

theorem hibernating_handle (progress : Progress) (source : Source) :
    (progress.handle source).session.hibernating = progress.session.hibernating := by
  have handled := progress.handles source
  generalize progress.outcome source = outcome, progress.handle source = after at handled
  cases handled with
  | withoutScope plain => rfl
  | refused lowered owned => rfl
  | written lowered acquired delivered => exact (acquire_eq_ok acquired).1
  | undelivered lowered acquired failed => exact (acquire_eq_ok acquired).1

theorem hibernating_handleAll (progress : Progress) (sources : List Source) :
    (sources.foldl Progress.handle progress).session.hibernating =
      progress.session.hibernating := by
  induction sources generalizing progress with
  | nil => rfl
  | cons source sources ih => rw [List.foldl_cons, ih, hibernating_handle]

/-- A batch of sources with different origins does what two batches do that it is cut into, one
after the other: the session, the files, the output, the log and the report are the same. -/
theorem lowerSources_append (session : Session) (world : World) {first second : List Source}
    (distinct : ((first ++ second).map Source.origin).Nodup) :
    session.lowerSources world (first ++ second) =
      ((session.lowerSources world first).session.lowerSources
        (session.lowerSources world first).world second).after
          (session.lowerSources world first).report := by
  cases asleep : session.hibernating with
  | true =>
      simp [lowerSources, asleep, Progress.after, Report.merge, Report.empty]
  | false =>
      have others : ∀ source ∈ second, ∀ other ∈ session.fresh first,
          other.origin ≠ source.origin := by
        intro source member other handled same
        rw [List.map_append, List.nodup_append] at distinct
        exact distinct.2.2 _ (List.mem_map_of_mem (List.mem_filter.mp handled).1) _
          (List.mem_map_of_mem member) same
      obtain ⟨middle, reached⟩ : ∃ middle,
          (session.fresh first).foldl Progress.handle (.start session world) = middle := ⟨_, rfl⟩
      have awake : middle.session.hibernating = false := by
        rw [← reached, hibernating_handleAll]
        exact asleep
      have same : middle.session.fresh second = session.fresh second := by
        rw [← reached, fresh_handleAll others]
        rfl
      have passed : middle.session.passedOver second = session.passedOver second := by
        rw [passedOver, same, passedOver]
      have front : session.lowerSources world first =
          middle.after (session.passedOver first) := by
        rw [lowerSources_eq_after asleep, reached]
      have split : session.fresh (first ++ second) =
          session.fresh first ++ session.fresh second := List.filter_append ..
      calc session.lowerSources world (first ++ second)
        _ = ((session.fresh second).foldl Progress.handle middle).after
              (session.passedOver (first ++ second)) := by
            rw [lowerSources_eq_after asleep, split, List.foldl_append, reached]
        _ = ((session.fresh second).foldl Progress.handle
              (.start middle.session middle.world)).after
              (((session.passedOver first).merge middle.report).merge
                (session.passedOver second)) := by
            rw [Progress.foldl_handle_eq_after, Progress.after_after, passedOver_append_merge]
        _ = (middle.session.lowerSources middle.world second).after
              ((session.passedOver first).merge middle.report) := by
            rw [lowerSources_eq_after awake, Progress.after_after, passed, same]
        _ = _ := by
            rw [front]
            rfl

end

def ownedOutput : Session := (ofSettings sharedOutput false).lowerSources (.ofTree .empty)
  [cardSource "a/x.css" "0"] |>.session

/-- Two batches in which one source is passed over, one is written and one is refused. -/
theorem lowerSources_append_ownedOutput :
    (ownedOutput.lowerSources (.ofTree .empty)
        ([cardSource "a/x.css" "0", cardSource "a/y.css" "0"] ++ [cardSource "b/x.css" "0"])).report =
      { Report.empty with
        written := [.file "out/y.scoped.css"]
        unchanged := 1
        failed := 1 } := by
  rw [lowerSources_append _ _ (by decide)]
  decide +kernel

end ScopeLowering.Session
