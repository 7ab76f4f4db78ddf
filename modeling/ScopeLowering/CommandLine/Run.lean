import ScopeLowering.CommandLine.Arguments
import ScopeLowering.Session
import ScopeLowering.Settings
import ScopeLowering.Watcher

/-!
# Runs

What the program does for a command line: it loads the settings, handles the sources
once, and watches them if asked to.
-/

namespace ScopeLowering.CommandLine

open ScopeLowering.Files (Content Tree)
open ScopeLowering.Output (World)
open ScopeLowering.Source (Search)

def override (settings : Settings) (arguments : Arguments) : Settings where
  wanted := if arguments.filePaths.isEmpty then settings.wanted else arguments.filePaths
  excluded := settings.excluded
  outDirectory := arguments.outDirectory.or settings.outDirectory
  suffix := arguments.suffix.getD settings.suffix
  nativeScope := settings.nativeScope || arguments.native
  watching := settings.watching
  logLevel := arguments.logLevel.getD settings.logLevel

/-- The settings of the file that the command line names, or of the usual file if it is
there, with what the command line says in their place. -/
def loadSettings (tree : Tree) (arguments : Arguments) : Except Failure Settings := do
  let loaded ← match arguments.config with
    | some path => Settings.load tree path
    | none => Settings.loadOrStandard tree Settings.fileName
  let settings := override loaded arguments
  settings.check
  return settings

structure Watch where
  session : Session
  watcher : Watcher
  failed : Nat
deriving DecidableEq, Repr

inductive Ending where
  | exit (code : Nat)
  | failure (failure : Failure)
  /-- The run goes on, with a round in each interval of milliseconds. -/
  | watching (watch : Watch) (interval : UInt64)
deriving DecidableEq, Repr

structure Outcome where
  ending : Ending
  world : World
  console : Log.Level
deriving DecidableEq, Repr

def Outcome.errorText (outcome : Outcome) : String :=
  Log.console outcome.console outcome.world.log

def exitCode (failed : Nat) : Nat := if failed = 0 then 0 else 1

def warnAll (world : World) (introduction : String) (failures : List Failure) : World :=
  failures.foldl
    (fun world failure => world.report .warn s!"{introduction}: {failure.message}") world

variable [TextHash]

def runInput (session : Session) (world : World) (input : Content) : Ending × World :=
  match Source.ofInput input with
  | .error failure => (.failure failure, world)
  | .ok source =>
      let progress := session.lowerSources world [source]
      (.exit (exitCode progress.report.failed), progress.world)

def startWatching (session : Session) (world : World) (watching : Settings.Watching)
    (search : Search) (failed : Nat) : Ending × World :=
  let watcher := Watcher.make watching.strategy search
  if watcher.polls then
    let (watcher, failures) := watcher.prime world.tree
    let world := warnAll world "Skipping glob entry" failures
    (.watching ⟨session, watcher.listen, failed⟩ watching.interval,
      world.report .info "Watching for changes...")
  else
    (.exit (exitCode failed),
      world.report .info "Watch strategy is \"none\", nothing to watch")

def runFiles (session : Session) (world : World) (settings : Settings) (watch : Bool) :
    Ending × World :=
  match Search.make settings.wanted settings.excluded with
  | .error failure => (.failure failure, world)
  | .ok search =>
      match search.run world.tree with
      | .error failure => (.failure failure, world)
      | .ok finding =>
          let world := warnAll world "Skipping glob entry" finding.failures
          let progress := session.lowerFiles world finding.paths
          let world := progress.world.report .info progress.report.summary
          let failed := progress.report.failed + finding.failures.length
          if watch then
            startWatching progress.session world settings.watching search failed
          else (.exit (exitCode failed), world)

def run (tree : Tree) (arguments : Arguments) (input : Content) : Outcome :=
  match loadSettings tree arguments with
  | .error failure => ⟨.failure failure, World.ofTree tree, Log.Level.silent⟩
  | .ok settings =>
      let session := Session.ofSettings settings arguments.standardOutput
      let world := session.announce (World.ofTree tree)
      let (ending, world) :=
        if arguments.readsInput then runInput session world input
        else runFiles session world settings arguments.watch
      ⟨ending, world, settings.logLevel⟩

/-- One round of watching: deleted sources are forgotten, and those that appeared or
changed are handled. -/
def Watch.round (watch : Watch) (world : World) : Watch × World :=
  let (watcher, round) := watch.watcher.poll world.tree
  let world := warnAll world "Watch round incomplete" round.failures
  let deleted := (round.changes.filter Watcher.Change.isDeletion).map Watcher.Change.path
  let session := deleted.foldl Session.forget watch.session
  match round.notified with
  | [] => (⟨session, watcher, watch.failed⟩, world)
  | _ =>
      let progress := session.lowerFiles world round.appeared
      let world :=
        if progress.report.transformed > 0 ∨ progress.report.failed > 0 then
          progress.world.report .info progress.report.summary
        else progress.world
      (⟨progress.session, watcher, watch.failed + progress.report.failed⟩, world)

end ScopeLowering.CommandLine
