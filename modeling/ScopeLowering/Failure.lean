import ScopeLowering.Files.Tree
import ScopeLowering.Glob.Pattern

/-!
# Failures and log lines

Everything that can go wrong with a source, a setting or an output, and the texts that report it.
Messages are logged with a level, and a console shows the lines from its own level upwards.

The words of the JSON parser about a malformed settings file are left out.
-/

namespace ScopeLowering

inductive Failure where
  | file (path : String) (fault : Files.Fault)
  | pattern (pattern : String) (fault : Glob.PatternFault)
  | unreadable (path : String) (fault : Files.Fault)
  /-- A source would write the output file of another one. -/
  | conflict (owner origin destination : String)
  | setting (key value : String)
  /-- A settings file is not JSON of the expected form. -/
  | malformedSettings
deriving DecidableEq, Repr

namespace Failure

def message : Failure → String
  | .file path fault => s!"IO error on {path}: {fault.message}"
  | .pattern glob fault => s!"Invalid glob pattern `{glob}`: {fault.message}"
  | .unreadable path fault =>
      s!"Unreadable glob entry: attempting to read `{path}` resulted in an error: {fault.message}"
  | .conflict owner origin destination => s!"{owner} and {origin} both write {destination}"
  | .setting key value => s!"Invalid value for `{key}`: {value}"
  | .malformedSettings => "Malformed settings"

def cause? : Failure → Option String
  | .file _ fault => some fault.message
  | .pattern _ fault => some fault.message
  | _ => none

def fullMessage (failure : Failure) : String :=
  match failure.cause? with
  | some cause => s!"{failure.message}: {cause}"
  | none => failure.message

end Failure

end ScopeLowering

namespace ScopeLowering.Log

inductive Level where
  | debug
  | info
  | warn
  | error
deriving DecidableEq, Repr

namespace Level

def all : List Level := [.debug, .info, .warn, .error]

def name : Level → String
  | .debug => "debug"
  | .info => "info"
  | .warn => "warn"
  | .error => "error"

def rank : Level → Nat
  | .debug => 0
  | .info => 1
  | .warn => 2
  | .error => 3

def ofName? (name : String) : Option Level := all.find? fun level => level.name = name

/-- The level with this name in any case of ASCII letters. -/
def parse (text : String) : Except Failure Level :=
  match ofName? (text.map Char.toLower) with
  | some level => .ok level
  | none => .error (.setting "logLevel" text)

def shows (threshold level : Level) : Bool := threshold.rank ≤ level.rank

/-- The threshold of a logger that drops everything. -/
def silent : Level := .error

theorem ofName?_name (level : Level) : ofName? level.name = some level := by
  cases level <;> rfl

end Level

structure Line where
  level : Level
  message : String
deriving DecidableEq, Repr

def Line.render (line : Line) : String :=
  s!"[{line.level.name.map Char.toUpper}] {line.message}\n"

def console (threshold : Level) (lines : List Line) : String :=
  String.join ((lines.filter fun line => threshold.shows line.level).map Line.render)

end ScopeLowering.Log
