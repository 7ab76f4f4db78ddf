import Mathlib.Data.List.Nodup
import Mathlib.Data.Set.Function
import ScopeLowering.Proofs.Session.Run

/-!
# What a session remembers

A session remembers for every origin the hash of the text of its latest outcome that was no
failure. If that text has scope blocks, the output file of the origin holds their rules, and the
origin owns it. So a source is passed over exactly when nothing would be gained by handling it, as
long as different texts have different hashes.
-/

namespace ScopeLowering.Session

open ScopeLowering.Files (Tree)
open ScopeLowering.Output (Destination Layout World)

/-- Output files of the origins in use are different files unless their paths agree by
components. -/
def DistinctFiles (layout : Layout) (used : String → Prop) : Prop :=
  ∀ first second path other, used first → used second →
    layout.destination first = .file path → layout.destination second = .file other →
    Tree.SameFile path other → Path.components path = Path.components other

/-- A file holds the rules of a text, and an origin owns it. -/
def Delivered (session : Session) (tree : Tree) (origin path : String) (css : List Char) :
    Prop :=
  tree.Holds path (Output.render (String.ofList css)) ∧
    ∃ spelling, session.owners.get? (Path.components path) = some ⟨spelling, origin⟩

theorem acquire_eq_ok {session acquired : Session} {origin : String}
    {destination : Destination} (done : session.acquire origin destination = .ok acquired) :
    acquired.hibernating = session.hibernating ∧ acquired.layout = session.layout ∧
      acquired.seen = session.seen ∧
      (∀ components ownership, session.owners.get? components = some ownership →
        acquired.owners.get? components = some ownership) ∧
      (∀ path, destination = .file path → ∃ spelling,
        acquired.owners.get? (Path.components path) = some ⟨spelling, origin⟩) := by
  cases destination with
  | standardOutput =>
      obtain rfl := Except.ok.inj done
      exact ⟨rfl, rfl, rfl, fun _ _ found => found, by simp⟩
  | file path =>
      unfold acquire at done
      dsimp only at done
      split at done
      · rename_i ownership found
        split at done
        · rename_i owner
          obtain rfl := Except.ok.inj done
          refine ⟨rfl, rfl, rfl, fun _ _ found => found, ?_⟩
          intro other same
          obtain rfl := Destination.file.inj same
          exact ⟨ownership.path, by rw [found, ← owner]⟩
        · cases done
      · rename_i free
        obtain rfl := Except.ok.inj done
        refine ⟨rfl, rfl, rfl, ?_, ?_⟩
        · intro components ownership found
          have differs : Path.components path ≠ components := by
            rintro rfl
            rw [free] at found
            cases found
          rw [Table.get?_insert, if_neg differs]
          exact found
        · intro other same
          obtain rfl := Destination.file.inj same
          exact ⟨path, Table.get?_insert_self ..⟩

section

variable [TextHash]

/-- A session remembers the hashes of some texts, and what they ask for is in the files. -/
structure Faithful (layout : Layout) (used : String → Prop) (texts : String → Option String)
    (session : Session) (tree : Tree) : Prop where
  awake : session.hibernating = false
  arranged : session.layout = layout
  remembered : ∀ origin, session.seen.get? origin = (texts origin).map TextHash.hash
  inUse : ∀ origin text, texts origin = some text → used origin
  delivered : ∀ origin text css path, texts origin = some text →
    Stylesheet.lower? text.toList = some css → layout.destination origin = .file path →
    session.Delivered tree origin path css

variable {layout : Layout} {used : String → Prop} {texts : String → Option String}

/-! ## Steps -/

theorem Faithful.acquire {session acquired : Session} {tree : Tree} {origin : String}
    {destination : Destination} (faithful : Faithful layout used texts session tree)
    (done : session.acquire origin destination = .ok acquired) :
    Faithful layout used texts acquired tree := by
  obtain ⟨awake, same, seen, owned, -⟩ := acquire_eq_ok done
  refine ⟨awake.trans faithful.awake, same.trans faithful.arranged, ?_, faithful.inUse, ?_⟩
  · rw [seen]
    exact faithful.remembered
  · intro origin text css path found lowered target
    obtain ⟨holds, spelling, owner⟩ := faithful.delivered origin text css path found lowered target
    exact ⟨holds, spelling, owned _ _ owner⟩

theorem Faithful.keep {session : Session} {before after : Tree}
    (faithful : Faithful layout used texts session before) (keeps : before.Keeps after) :
    Faithful layout used texts session after where
  awake := faithful.awake
  arranged := faithful.arranged
  remembered := faithful.remembered
  inUse := faithful.inUse
  delivered := by
    intro origin text css path found lowered target
    obtain ⟨holds, owned⟩ := faithful.delivered origin text css path found lowered target
    exact ⟨holds.keep keeps, owned⟩

/-- A source is remembered once what it asks for is delivered, if that took nothing from
the other origins. -/
theorem Faithful.remember {session : Session} {before after : Tree} {source : Source}
    (faithful : Faithful layout used texts session before) (known : used source.origin)
    (others : ∀ origin path css, origin ≠ source.origin → used origin →
      layout.destination origin = .file path → session.Delivered before origin path css →
      session.Delivered after origin path css)
    (delivered : ∀ css path, Stylesheet.lower? source.text.toList = some css →
      layout.destination source.origin = .file path →
      session.Delivered after source.origin path css) :
    Faithful layout used
      (fun origin => if source.origin = origin then some source.text else texts origin)
      (session.remember source) after := by
  refine ⟨faithful.awake, faithful.arranged, ?_, ?_, ?_⟩
  · intro origin
    rw [Session.remember, Table.get?_insert]
    split
    · rfl
    · exact faithful.remembered origin
  · intro origin text found
    split at found
    · rename_i same
      exact same ▸ known
    · exact faithful.inUse origin text found
  · intro origin text css path found lowered target
    split at found
    · rename_i same
      obtain rfl := Option.some.inj found
      subst same
      exact delivered css path lowered target
    · rename_i differs
      exact others origin path css (Ne.symm differs) (faithful.inUse origin text found) target
        (faithful.delivered origin text css path found lowered target)

/-- The owner of an output file may write it, for no other origin has its rules there. -/
theorem Faithful.write {session : Session} {before after : Tree} {source : Source}
    {path : String} {css : List Char} {key : Files.Key}
    (faithful : Faithful layout used texts session before) (known : used source.origin)
    (distinct : DistinctFiles layout used)
    (target : layout.destination source.origin = .file path)
    (lowered : Stylesheet.lower? source.text.toList = some css)
    (owned : ∃ spelling,
      session.owners.get? (Path.components path) = some ⟨spelling, source.origin⟩)
    (writes : Tree.Writes key (Output.render (String.ofList css)) before after)
    (leads : before.LeadsTo path key) :
    Faithful layout used
      (fun origin => if source.origin = origin then some source.text else texts origin)
      (session.remember source) after := by
  refine faithful.remember known ?_ ?_
  · rintro origin other rules differs inUse destination ⟨holds, spelling, owner⟩
    refine ⟨holds.write writes leads ?_, spelling, owner⟩
    -- Both paths would be one key of the table of owners, which has one owner for it.
    intro same
    rw [distinct origin source.origin other path inUse known destination target same] at owner
    obtain ⟨spelled, mine⟩ := owned
    exact differs (congrArg Ownership.owner (Option.some.inj (owner.symm.trans mine)))
  · intro rules other again destination
    obtain rfl := Option.some.inj (lowered.symm.trans again)
    obtain rfl := Destination.file.inj (target.symm.trans destination)
    exact ⟨writes.holds leads, owned⟩

/-- After a source is handled, the texts of the latest outcomes are remembered. -/
theorem Faithful.handle {progress : Progress} {source : Source}
    (faithful : Faithful layout used texts progress.session progress.world.tree)
    (known : used source.origin) (distinct : DistinctFiles layout used) :
    Faithful layout used
      (fun origin => recollect origin (texts origin) (.handled source (progress.outcome source)))
      (progress.handle source).session (progress.handle source).world.tree := by
  have handled := progress.handles source
  generalize progress.outcome source = outcome, progress.handle source = after at handled
  cases handled with
  | withoutScope plain =>
      refine faithful.remember known (fun _ _ _ _ _ _ delivered => delivered) ?_
      intro css path lowered
      rw [plain] at lowered
      cases lowered
  | refused lowered owned => exact faithful
  | @written css session world lowered acquired delivered =>
      have ready := faithful.acquire acquired
      rw [faithful.arranged] at acquired delivered ⊢
      cases target : layout.destination source.origin with
      | standardOutput =>
          rw [target] at delivered
          rw [← World.tree_of_deliver_standardOutput delivered] at ready
          refine ready.remember known (fun _ _ _ _ _ _ delivered => delivered) ?_
          intro rules path _ file
          rw [target] at file
          cases file
      | file path =>
          rw [target] at acquired delivered
          rw [World.deliver_file] at delivered
          obtain ⟨key, made, keeps, writes, leads⟩ := World.writes_of_writeFile delivered
          obtain ⟨-, -, -, -, owned⟩ := acquire_eq_ok acquired
          exact (ready.keep keeps).write known distinct target lowered (owned path rfl) writes leads
  | @undelivered css session world failure lowered acquired failed =>
      have ready := faithful.acquire acquired
      cases target : progress.session.layout.destination source.origin with
      | standardOutput =>
          rw [target] at failed
          cases failed
      | file path =>
          rw [target, World.deliver_file] at failed
          have keeps : progress.world.tree.Keeps world.tree := World.keeps_of_writeFile failed
          exact ready.keep keeps

/-! ## Batches -/

theorem Faithful.handleAll {progress : Progress} {sources : List Source}
    (faithful : Faithful layout used texts progress.session progress.world.tree)
    (known : ∀ source ∈ sources, used source.origin) (distinct : DistinctFiles layout used) :
    Faithful layout used
      (fun origin => ((progress.outcomes sources).map fun entry =>
        Event.handled entry.1 entry.2).foldl (recollect origin) (texts origin))
      (sources.foldl Progress.handle progress).session
      (sources.foldl Progress.handle progress).world.tree := by
  induction sources generalizing progress texts with
  | nil => exact faithful
  | cons source sources ih =>
      exact ih (faithful.handle (known source (List.mem_cons_self ..)) distinct)
        fun other member => known other (List.mem_cons_of_mem _ member)

/-- After a batch, what is remembered is what the outcomes of the batch make of it. -/
theorem Faithful.lowerSources {session : Session} {world : World} {sources : List Source}
    (faithful : Faithful layout used texts session world.tree)
    (known : ∀ source ∈ sources, used source.origin) (distinct : DistinctFiles layout used) :
    Faithful layout used
      (fun origin => ((session.outcomes world sources).map fun entry =>
        Event.handled entry.1 entry.2).foldl (recollect origin) (texts origin))
      (session.lowerSources world sources).session
      (session.lowerSources world sources).world.tree := by
  have opened : Faithful layout used texts (session.opening world sources).session
      (session.opening world sources).world.tree := faithful
  have inUse : ∀ source ∈ session.fresh sources, used source.origin :=
    fun source member => known source (List.mem_filter.mp member).1
  have handled := opened.handleAll inUse distinct
  rw [lowerSources_eq faithful.awake]
  simpa only [outcomes, List.map_append, List.foldl_append, List.map_map, Function.comp_def,
    foldl_recollect_unchanged] using handled

/-- A source that is passed over has no other outcome in its batch. -/
theorem foldl_recollect_of_isUnchanged {session : Session} (world : World) {sources : List Source}
    (distinct : (sources.map Source.origin).Nodup) {source : Source} (member : source ∈ sources)
    (unchanged : session.isUnchanged source = true) (known : Option String) :
    ((session.outcomes world sources).map fun entry => Event.handled entry.1 entry.2).foldl
      (recollect source.origin) known = known := by
  rw [outcomes, List.map_append, List.foldl_append, List.map_map]
  refine (foldl_recollect_of_ne ?_ _).trans (foldl_recollect_unchanged source.origin _ known)
  intro entry handled same
  have fresh : entry.1 ∈ session.fresh sources := by
    rw [← Progress.map_fst_outcomes (session.opening world sources) (session.fresh sources)]
    exact List.mem_map.mpr ⟨entry, handled, rfl⟩
  obtain ⟨listed, changed⟩ := List.mem_filter.mp fresh
  rw [List.inj_on_of_nodup_map distinct listed member same, unchanged] at changed
  cases changed

/-! ## Runs -/

theorem Faithful.forget {session : Session} {tree : Tree}
    (faithful : Faithful layout used texts session tree) (origin : String) :
    Faithful layout used (fun other => recollect other (texts other) (.forgotten origin))
      (session.forget origin) tree := by
  refine ⟨faithful.awake, faithful.arranged, ?_, ?_, ?_⟩
  · intro other
    rw [Session.forget, Table.get?_erase]
    dsimp only [recollect]
    split
    · rfl
    · exact faithful.remembered other
  · intro other text found
    dsimp only [recollect] at found
    split at found
    · cases found
    · exact faithful.inUse other text found
  · intro other text css path found lowered target
    dsimp only [recollect] at found
    split at found
    · cases found
    · rename_i differs
      obtain ⟨holds, spelling, owner⟩ :=
        faithful.delivered other text css path found lowered target
      exact ⟨holds, spelling, Table.get?_filter_of_holds owner (by simpa using Ne.symm differs)⟩

/-- In every state of a run the texts of the latest outcomes are remembered. -/
theorem Reachable.faithful {settings : Settings} {state : State}
    (awake : settings.nativeScope = false)
    (distinct : DistinctFiles (ofSettings settings false).layout used)
    (reachable : Reachable settings used state) :
    Faithful (ofSettings settings false).layout used (latest? state.history) state.session
      state.world.tree := by
  induction reachable with
  | start world =>
      refine ⟨awake, rfl, fun _ => rfl, ?_, ?_⟩
      · intro origin text found
        cases found
      · intro origin text css path found
        cases found
  | batch reachable _ known ih =>
      rw [State.batch, latest?_append]
      exact ih.lowerSources known distinct
  | forget origin reachable ih =>
      rw [State.forget, latest?_append]
      exact ih.forget origin
  | outside reachable keeps ih => exact ih.keep keeps

end

/-- A source is passed over if and only if the latest outcome of its origin that was no
failure was for the same text. Its output file then holds the rules of that text at the end
of the batch, and belongs to it. The texts that the session has been given must have different
hashes. -/
theorem unchanged_iff_latest [TextHash] {settings : Settings} {used : String → Prop}
    {state : State} {sources : List Source} (awake : settings.nativeScope = false)
    (files : DistinctFiles (ofSettings settings false).layout used)
    (reachable : Reachable settings used state)
    (distinct : (sources.map Source.origin).Nodup)
    (known : ∀ source ∈ sources, used source.origin)
    (injective : Set.InjOn TextHash.hash
      { text | text ∈ handledTexts state.history ++ sources.map Source.text }) :
    ((state.session.outcomes state.world sources).map Prod.fst).Perm sources ∧
      (state.session.lowerSources state.world sources).report =
        Report.ofOutcomes ((state.session.outcomes state.world sources).map Prod.snd) ∧
      ∀ source ∈ sources,
        ((source, .unchanged) ∈ state.session.outcomes state.world sources ↔
          latest? state.history source.origin = some source.text) ∧
        ∀ css path, (source, .unchanged) ∈ state.session.outcomes state.world sources →
          Stylesheet.lower? source.text.toList = some css →
          (ofSettings settings false).layout.destination source.origin = .file path →
          (state.batch sources).session.Delivered (state.batch sources).world.tree
            source.origin path css := by
  have faithful := reachable.faithful awake files
  refine ⟨map_fst_outcomes_perm .., report_lowerSources faithful.awake _ _, ?_⟩
  intro source member
  have unchanged : (source, .unchanged) ∈ state.session.outcomes state.world sources ↔
      latest? state.history source.origin = some source.text := by
    rw [unchanged_mem_outcomes_iff member, faithful.remembered, Option.map_eq_some_iff]
    constructor
    · rintro ⟨text, latest, same⟩
      rw [latest, injective (List.mem_append_left _ (mem_handledTexts_of_latest? latest))
        (List.mem_append_right _ (List.mem_map_of_mem member)) same]
    · exact fun latest => ⟨source.text, latest, rfl⟩
  refine ⟨unchanged, ?_⟩
  intro css path passed lowered target
  have same : state.session.isUnchanged source = true := by
    simpa [isUnchanged] using (unchanged_mem_outcomes_iff member).mp passed
  refine (faithful.lowerSources known files).delivered _ source.text css path ?_ lowered target
  exact (foldl_recollect_of_isUnchanged state.world distinct member same _).trans
    (unchanged.mp passed)

def sharedOutput : Settings := { Settings.standard with outDirectory := some "out" }

def cardSource (origin offset : String) : Source :=
  ⟨origin, "@scope (.card) \x7b p \x7b top: " ++ offset ++ " \x7d \x7d"⟩

def sharedRun : State :=
  (State.start sharedOutput (.ofTree .empty)).batch
    [cardSource "a/x.css" "0", cardSource "b/x.css" "0"]

/-- The shared run, after which the output file is locked and a new text of its owner cannot
be written. -/
def lockedRun : State :=
  State.batch
    { sharedRun with
      world := { sharedRun.world with
        tree := sharedRun.world.tree.edit (.restrict "out/x.scoped.css" .locked) } }
    [cardSource "a/x.css" "1"]

/-- The text that is still in the locked file is passed over, and its rules are there. -/
theorem unchanged_after_lockedRun :
    (cardSource "a/x.css" "0", .unchanged) ∈
        lockedRun.session.outcomes lockedRun.world [cardSource "a/x.css" "0"] ∧
      (lockedRun.batch [cardSource "a/x.css" "0"]).session.Delivered
        (lockedRun.batch [cardSource "a/x.css" "0"]).world.tree "a/x.css" "out/x.scoped.css"
        ".card p \x7b top: 0 \x7d".toList := by
  let used : String → Prop := fun origin => origin = "a/x.css" ∨ origin = "b/x.css"
  have target : ∀ origin, used origin →
      (ofSettings sharedOutput false).layout.destination origin = .file "out/x.scoped.css" := by
    rintro origin (rfl | rfl)
    · decide +kernel
    · decide +kernel
  have files : DistinctFiles (ofSettings sharedOutput false).layout used := by
    intro first second path other one two firstPath secondPath _
    obtain rfl := Destination.file.inj ((target first one).symm.trans firstPath)
    obtain rfl := Destination.file.inj ((target second two).symm.trans secondPath)
    rfl
  have shared : Reachable sharedOutput used sharedRun :=
    .batch (.start _) (by decide) (by simp [used, cardSource])
  have locked : Reachable sharedOutput used lockedRun :=
    .batch (.outside shared (Tree.keeps_restrict _ _ _)) (by decide) (by simp [used, cardSource])
  have distinct : ([cardSource "a/x.css" "0"].map Source.origin).Nodup := by decide
  have injective : ∀ first ∈ handledTexts lockedRun.history ++ [(cardSource "a/x.css" "0").text],
      ∀ second ∈ handledTexts lockedRun.history ++ [(cardSource "a/x.css" "0").text],
        TextHash.hash first = TextHash.hash second → first = second := by
    decide +kernel
  obtain ⟨-, -, result⟩ := unchanged_iff_latest rfl files locked distinct
    (by simp [used, cardSource]) fun first one second two => injective first one second two
  obtain ⟨latest, delivered⟩ := result _ (List.mem_singleton_self _)
  have passed := latest.mpr (by decide +kernel)
  exact ⟨passed, delivered _ _ passed (by decide +kernel) (target _ (.inl rfl))⟩

end ScopeLowering.Session
