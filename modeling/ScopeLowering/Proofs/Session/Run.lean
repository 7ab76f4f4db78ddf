import ScopeLowering.Proofs.Files.Contents
import ScopeLowering.Proofs.Session.Outcome

/-!
# Runs of a session

A run starts with a session that remembers nothing. Batches and forgetting alternate in any
order, and between them the world may change as long as files keep their contents. The
history of a run lists what became of every source.
-/

namespace ScopeLowering.Session

open ScopeLowering.Output (Destination Layout World)

inductive Event where
  | handled (source : Source) (outcome : Outcome)
  | forgotten (origin : String)
deriving DecidableEq, Repr

structure State where
  session : Session
  world : World
  history : List Event

section

variable [TextHash]

namespace State

def start (settings : Settings) (world : World) : State := ⟨ofSettings settings false, world, []⟩

def batch (state : State) (sources : List Source) : State :=
  let progress := state.session.lowerSources state.world sources
  let outcomes := state.session.outcomes state.world sources
  ⟨progress.session, progress.world,
    state.history ++ outcomes.map fun entry => .handled entry.1 entry.2⟩

def forget (state : State) (origin : String) : State :=
  ⟨state.session.forget origin, state.world, state.history ++ [.forgotten origin]⟩

end State

/-- The states of a session that writes to files and is given sources of the origins in use,
each origin at most once in a batch. -/
inductive Reachable (settings : Settings) (used : String → Prop) : State → Prop where
  | start (world : World) : Reachable settings used (.start settings world)
  | batch {state : State} {sources : List Source} (reachable : Reachable settings used state)
      (distinct : (sources.map Source.origin).Nodup)
      (known : ∀ source ∈ sources, used source.origin) :
      Reachable settings used (state.batch sources)
  | forget {state : State} (origin : String) (reachable : Reachable settings used state) :
      Reachable settings used (state.forget origin)
  | outside {state : State} {world : World} (reachable : Reachable settings used state)
      (keeps : state.world.tree.Keeps world.tree) :
      Reachable settings used { state with world }

end

/-- What the latest outcome of an origin is for, after one more event: a failure and a source
that is passed over change nothing. -/
def recollect (origin : String) (known : Option String) : Event → Option String
  | .handled source .withoutScope => if source.origin = origin then some source.text else known
  | .handled source (.written _) => if source.origin = origin then some source.text else known
  | .handled _ .unchanged => known
  | .handled _ (.failed _) => known
  | .forgotten other => if other = origin then none else known

/-- The text of the latest outcome of an origin that was no failure, since the origin was
last forgotten. -/
def latest? (history : List Event) (origin : String) : Option String :=
  history.foldl (recollect origin) none

theorem latest?_append (history events : List Event) :
    latest? (history ++ events) =
      fun origin => events.foldl (recollect origin) (latest? history origin) :=
  funext fun _ => List.foldl_append

theorem recollect_of_ne {origin : String} {source : Source} (other : source.origin ≠ origin)
    (known : Option String) (outcome : Outcome) :
    recollect origin known (.handled source outcome) = known := by
  cases outcome <;> simp [recollect, other]

theorem foldl_recollect_of_ne {origin : String} {entries : List (Source × Outcome)}
    (others : ∀ entry ∈ entries, entry.1.origin ≠ origin) (known : Option String) :
    (entries.map fun entry => Event.handled entry.1 entry.2).foldl (recollect origin) known =
      known := by
  induction entries with
  | nil => rfl
  | cons entry entries ih =>
      rw [List.map_cons, List.foldl_cons, recollect_of_ne (others entry (List.mem_cons_self ..))]
      exact ih fun other member => others other (List.mem_cons_of_mem _ member)

theorem foldl_recollect_unchanged (origin : String) (sources : List Source)
    (known : Option String) :
    (sources.map fun source => Event.handled source .unchanged).foldl (recollect origin) known =
      known := by
  induction sources with
  | nil => rfl
  | cons source sources ih => exact ih

/-! ## Texts -/

def Event.text? : Event → Option String
  | .handled source _ => some source.text
  | .forgotten _ => none

/-- The texts of the sources in a history, those that met a failure included. -/
def handledTexts (history : List Event) : List String := history.filterMap Event.text?

theorem eq_some_of_recollect {origin text : String} {known : Option String} {event : Event}
    (found : recollect origin known event = some text) :
    known = some text ∨ event.text? = some text := by
  cases event with
  | forgotten other =>
      dsimp only [recollect] at found
      split at found
      · cases found
      · exact .inl found
  | handled source outcome =>
      cases outcome with
      | unchanged => exact .inl found
      | failed failure => exact .inl found
      | withoutScope =>
          dsimp only [recollect] at found
          split at found
          · exact .inr found
          · exact .inl found
      | written destination =>
          dsimp only [recollect] at found
          split at found
          · exact .inr found
          · exact .inl found

theorem mem_handledTexts_of_latest? {history : List Event} {origin text : String}
    (latest : latest? history origin = some text) : text ∈ handledTexts history := by
  suffices found : ∀ known, history.foldl (recollect origin) known = some text →
      known = some text ∨ text ∈ handledTexts history from (found none latest).resolve_left nofun
  clear latest
  induction history with
  | nil => exact fun known found => .inl found
  | cons event history ih =>
      intro known found
      rcases ih _ found with first | later
      · refine (eq_some_of_recollect first).imp_right fun now => ?_
        exact List.mem_filterMap.mpr ⟨event, List.mem_cons_self, now⟩
      · exact .inr ((List.sublist_cons_self event history).filterMap _ |>.subset later)

end ScopeLowering.Session
