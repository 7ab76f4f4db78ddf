import ScopeLowering.Output
import ScopeLowering.Settings
import ScopeLowering.Stylesheet.Lowering

/-!
# Sessions

A session lowers batches of sources and remembers two things between them: the hash of the text
last handled for each source, and the source that owns each output file. A source whose hash has not
changed is passed over, and an output file is written for its owner only.
-/

namespace ScopeLowering

open ScopeLowering.Output (Destination Layout World)

/-- A hash of 64 bits, by which a session remembers texts. Different texts may have the same hash:
a source is passed over if its hash is the one of the last time. -/
class TextHash where
  hash : String → UInt64

/-- The hash that the program runs with: each character is mixed into the value, which is then
multiplied by a prime. -/
instance TextHash.standard : TextHash where
  hash text :=
    text.toList.foldl (fun value c => (value ^^^ c.val.toUInt64) * 0x100000001B3)
      0xCBF29CE484222325

structure Ownership where
  path : String
  owner : String
deriving DecidableEq, Repr

structure Session where
  layout : Layout
  /-- Whether the target reads scope blocks itself. -/
  hibernating : Bool
  /-- The hash of the text last handled for each origin. -/
  seen : Table String UInt64
  /-- The owners of the output files, by the components of their paths. -/
  owners : Table (List Path.Component) Ownership
deriving DecidableEq, Repr

namespace Session

structure Report where
  /-- The destinations written, in the order of their sources. -/
  written : List Destination
  withoutScope : Nat
  unchanged : Nat
  generated : Nat
  /-- Sources passed over because nothing is to be done. -/
  hibernated : Nat
  failed : Nat
deriving DecidableEq, Repr

namespace Report

def empty : Report := ⟨[], 0, 0, 0, 0, 0⟩

def transformed (report : Report) : Nat := report.written.length

def merge (first second : Report) : Report where
  written := first.written ++ second.written
  withoutScope := first.withoutScope + second.withoutScope
  unchanged := first.unchanged + second.unchanged
  generated := first.generated + second.generated
  hibernated := first.hibernated + second.hibernated
  failed := first.failed + second.failed

def total (report : Report) : Nat :=
  report.transformed + report.withoutScope + report.unchanged + report.generated
    + report.hibernated + report.failed

def summary (report : Report) : String :=
  s!"{report.transformed} transformed, {report.withoutScope} without @scope, "
    ++ s!"{report.unchanged} unchanged, {report.failed} failed"

end Report

def ofSettings (settings : Settings) (toStandardOutput : Bool) : Session where
  layout := ⟨settings.outDirectory, settings.suffix, toStandardOutput⟩
  hibernating := settings.nativeScope
  seen := Table.empty
  owners := Table.empty

/-- Says so where nothing is to be done. -/
def announce (session : Session) (world : World) : World :=
  if session.hibernating then
    world.report .info "Native @scope support configured, polyfill is hibernating"
  else world

structure Progress where
  session : Session
  world : World
  report : Report
deriving DecidableEq, Repr

variable [TextHash]

def isUnchanged (session : Session) (source : Source) : Bool :=
  session.seen.get? source.origin = some (TextHash.hash source.text)

def remember (session : Session) (source : Source) : Session :=
  { session with seen := session.seen.insert source.origin (TextHash.hash source.text) }

/-- Makes an origin the owner of a destination, unless another one owns it. -/
def acquire (session : Session) (origin : String) : Destination → Except Failure Session
  | .standardOutput => .ok session
  | .file path =>
      match session.owners.get? (Path.components path) with
      | some ownership =>
          if ownership.owner = origin then .ok session
          else .error (.conflict ownership.owner origin ownership.path)
      | none =>
          .ok { session with
            owners := session.owners.insert (Path.components path) ⟨path, origin⟩ }

def forget (session : Session) (origin : String) : Session :=
  { session with
    seen := session.seen.erase origin
    owners := session.owners.filter fun _ ownership => ownership.owner ≠ origin }

namespace Progress

def start (session : Session) (world : World) : Progress := ⟨session, world, Report.empty⟩

def fail (progress : Progress) (failure : Failure) : Progress :=
  { progress with
    world := progress.world.report .error failure.message
    report := { progress.report with failed := progress.report.failed + 1 } }

def succeed (progress : Progress) (source : Source) (destination : Destination) : Progress where
  session := progress.session.remember source
  world :=
    match destination with
    | .standardOutput => progress.world
    | .file path => progress.world.report .info s!"Polyfilled {source.origin} -> {path}"
  report := { progress.report with written := progress.report.written ++ [destination] }

def skip (progress : Progress) (source : Source) : Progress where
  session := progress.session.remember source
  world := progress.world.report .debug s!"No @scope block in {source.origin}"
  report := { progress.report with withoutScope := progress.report.withoutScope + 1 }

def deliver (progress : Progress) (source : Source) (css : String) : Progress :=
  let destination := progress.session.layout.destination source.origin
  match progress.session.acquire source.origin destination with
  | .error failure => progress.fail failure
  | .ok session =>
      match progress.world.deliver destination css with
      | (world, none) => { progress with session, world }.succeed source destination
      | (world, some failure) => { progress with session, world }.fail failure

def handle (progress : Progress) (source : Source) : Progress :=
  match Stylesheet.lower? source.text.toList with
  | none => progress.skip source
  | some css => progress.deliver source (String.ofList css)

end Progress

/-- Handles a batch of sources. Which of them are unchanged is settled before the first
one is handled. -/
def lowerSources (session : Session) (world : World) (sources : List Source) : Progress :=
  if session.hibernating then
    ⟨session, world, { Report.empty with hibernated := sources.length }⟩
  else
    let fresh := sources.filter fun source => !session.isUnchanged source
    let report := { Report.empty with unchanged := sources.length - fresh.length }
    fresh.foldl Progress.handle ⟨session, world, report⟩

structure Intake where
  sources : List Source
  world : World
  report : Report
deriving DecidableEq, Repr

def Intake.read (intake : Intake) (path : String) : Intake :=
  match Source.read intake.world.tree path with
  | .ok (some source) => { intake with sources := intake.sources ++ [source] }
  | .ok none =>
      { intake with
        world := intake.world.report .debug s!"Skipping generated file {path}"
        report := { intake.report with generated := intake.report.generated + 1 } }
  | .error failure =>
      { intake with
        world := intake.world.report .warn s!"Skipping source: {failure.message}"
        report := { intake.report with failed := intake.report.failed + 1 } }

def lowerFiles (session : Session) (world : World) (paths : List String) : Progress :=
  let intake := paths.foldl Intake.read ⟨[], world, Report.empty⟩
  let progress := session.lowerSources intake.world intake.sources
  { progress with report := intake.report.merge progress.report }

end Session

end ScopeLowering
