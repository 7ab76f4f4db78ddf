import ScopeLowering.Settings
import ScopeLowering.Source

/-!
# Watchers

A watcher compares the times of change of the sources from round to round. A round in
which a directory could not be listed reports no deletions, for a file that was not found
may still exist.
-/

namespace ScopeLowering

open ScopeLowering.Files (Tree)
open ScopeLowering.Source (Finding Search)

namespace Watcher

inductive Change where
  | created (path : String)
  | modified (path : String)
  | deleted (path : String)
deriving DecidableEq, Repr

def Change.path : Change → String
  | .created path => path
  | .modified path => path
  | .deleted path => path

def Change.isDeletion : Change → Bool
  | .deleted _ => true
  | _ => false

/-- The spelling under which a file was first seen, and the time of its last change. -/
structure Record where
  path : String
  modified : Int
deriving DecidableEq, Repr

/-- The files known to a watcher, by the components of their paths. -/
abbrev Records := Table (List Path.Component) Record

structure Round where
  changes : List Change
  failures : List Failure
  /-- The numbers of the listeners that were called, with the paths they were given. -/
  notified : List (Nat × List String)
deriving DecidableEq, Repr

def Round.empty : Round := ⟨[], [], []⟩

def Round.appeared (round : Round) : List String :=
  (round.changes.filter fun change => !change.isDeletion).map Change.path

def note (state : Records × List Change) (path : String) (modified : Int) :
    Records × List Change :=
  let key := Path.components path
  match state.1.get? key with
  | none => (state.1.insert key ⟨path, modified⟩, state.2 ++ [.created path])
  | some record =>
      (state.1.insert key ⟨record.path, modified⟩,
        if record.modified = modified then state.2 else state.2 ++ [.modified path])

/-- Notes the files that were found, as far as they have a time of change. -/
def noteAll (tree : Tree) (records : Records) (paths : List String) : Records × List Change :=
  paths.foldl
    (fun state path =>
      match tree.modified? path with
      | some modified => note state path modified
      | none => state)
    (records, [])

def missing (tree : Tree) (records : Records) (paths : List String) : List String :=
  let present := (paths.filter fun path => (tree.modified? path).isSome).map Path.components
  let gone := records.filter fun key _ => !present.contains key
  (gone.entries.map fun entry => entry.2.path).foldl
    (fun sorted path => Path.insertSorted path sorted) []

def scan (search : Search) (tree : Tree) (records : Records) :
    Records × List Change × List Failure :=
  match search.run tree with
  | .error failure => (records, [], [failure])
  | .ok finding =>
      let (noted, changes) := noteAll tree records finding.paths
      if finding.complete then
        let gone := missing tree noted finding.paths
        let left := gone.foldl (fun left path => left.erase (Path.components path)) noted
        (left, changes ++ gone.map Change.deleted, [])
      else (noted, changes, finding.failures)

end Watcher

structure Watcher where
  strategy : Settings.Strategy
  search : Search
  records : Watcher.Records
  listeners : Nat
deriving DecidableEq, Repr

namespace Watcher

def make (strategy : Settings.Strategy) (search : Search) : Watcher :=
  ⟨strategy, search, Table.empty, 0⟩

def polls (watcher : Watcher) : Bool := watcher.strategy = .poll

def listen (watcher : Watcher) : Watcher := { watcher with listeners := watcher.listeners + 1 }

/-- Takes what is there as known, without reporting it. -/
def prime (watcher : Watcher) (tree : Tree) : Watcher × List Failure :=
  if watcher.polls then
    let (records, _, failures) := scan watcher.search tree watcher.records
    ({ watcher with records }, failures)
  else (watcher, [])

/-- Runs one round, and calls every listener if files appeared or changed. -/
def poll (watcher : Watcher) (tree : Tree) : Watcher × Round :=
  if watcher.polls then
    let (records, changes, failures) := scan watcher.search tree watcher.records
    let appeared := Round.appeared ⟨changes, failures, []⟩
    let called := if appeared.isEmpty then [] else List.range watcher.listeners
    ({ watcher with records }, ⟨changes, failures, called.map fun number => (number, appeared)⟩)
  else (watcher, Round.empty)

def pollAll (watcher : Watcher) : List Tree → Watcher × List Round
  | [] => (watcher, [])
  | tree :: trees =>
      let (next, round) := watcher.poll tree
      let (last, rounds) := next.pollAll trees
      (last, round :: rounds)

end Watcher

end ScopeLowering
