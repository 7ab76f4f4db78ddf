import ScopeLowering.Failure
import ScopeLowering.Json

/-!
# Settings

What a run is told: which files to work on, where the output goes, and how changes are watched.

In JSON, settings are an object with the known keys in any order, each at most once, or an array of
the values in the order of the keys. What is left out has its standard value, and unknown keys are
passed over. Settings are read from a file, and checked before they are used.
-/

namespace ScopeLowering

namespace Settings

inductive Strategy where
  | poll
  | none
deriving DecidableEq, Repr

def Strategy.name : Strategy → String
  | .poll => "poll"
  | .none => "none"

def Strategy.ofName? (name : String) : Option Strategy :=
  [poll, none].find? fun strategy => strategy.name = name

theorem Strategy.ofName?_name (strategy : Strategy) :
    Strategy.ofName? strategy.name = some strategy := by
  cases strategy <;> rfl

/-- How changes are watched; the interval between rounds is in milliseconds. -/
structure Watching where
  strategy : Strategy
  interval : UInt64
deriving DecidableEq, Repr

def Watching.standard : Watching := ⟨.poll, 250⟩

end Settings

structure Settings where
  wanted : List String
  excluded : List String
  /-- The directory of the output; without one, output goes next to its source. -/
  outDirectory : Option String
  /-- What the stem of a source is followed by in the name of its output. -/
  suffix : String
  /-- Whether the target reads scope blocks itself, so that nothing is to be done. -/
  nativeScope : Bool
  watching : Settings.Watching
  logLevel : Log.Level
deriving DecidableEq, Repr

namespace Settings

def standard : Settings where
  wanted := ["**/*.css"]
  excluded := []
  outDirectory := none
  suffix := ".scoped.css"
  nativeScope := false
  watching := Watching.standard
  logLevel := .info

/-- The first setting with a value that is not allowed. Without a directory for the
output, the suffix of the sources would make every output overwrite its source. -/
def check (settings : Settings) : Except Failure Unit :=
  if settings.wanted.isEmpty then .error (.setting "include" "[]")
  else if settings.suffix = "" ∨ (settings.outDirectory.isNone ∧ settings.suffix = ".css") then
    .error (.setting "suffix" settings.suffix)
  else if settings.watching.interval = 0 then .error (.setting "watch.intervalMs" "0")
  else .ok ()

/-! ## Decoding -/

open ScopeLowering.Json (Literal Value)

/-- The value of a key that occurs at most once; `none` if it is repeated. -/
def single? (key : String) (members : List (Literal × Value)) : Option (Option Value) :=
  match members.filter fun member => member.1 = some key with
  | [] => some none
  | [member] => some (some member.2)
  | _ => none

def slots? (keys : List String) : Value → Option (List (Option Value))
  | .object members =>
      if members.all fun member => member.1.isSome then keys.mapM fun key => single? key members
      else none
  | .array items =>
      if items.length ≤ keys.length then
        some ((List.range keys.length).map fun index => items[index]?)
      else none
  | _ => none

def orStandard {α : Type} (decode : Value → Option α) (standard : α) :
    Option Value → Option α
  | some value => decode value
  | none => some standard

def text? : Value → Option String
  | .string (some text) => some text
  | _ => none

def flag? : Value → Option Bool
  | .bool flag => some flag
  | _ => none

def texts? : Value → Option (List String)
  | .array items => items.mapM text?
  | _ => none

def optionalText? : Value → Option (Option String)
  | .null => some none
  | value => (text? value).map some

/-- A whole number of 64 bits, written by digits alone. -/
def wholeNumber? : Value → Option UInt64
  | .number spelling =>
      if spelling.all Char.isDigit then
        let number := spelling.foldl (fun n c => n * 10 + (c.toNat - '0'.toNat)) 0
        if number < UInt64.size then some (UInt64.ofNat number) else none
      else none
  | _ => none

/-- A name, written as a string or as the only key of an object whose value is null. -/
def choice? : Value → Option String
  | .string (some name) => some name
  | .object [(some name, .null)] => some name
  | _ => none

def Watching.decode? (value : Value) : Option Watching :=
  match slots? ["strategy", "intervalMs"] value with
  | some [strategy, interval] => do
      let strategy ← orStandard (fun value => (choice? value).bind Strategy.ofName?)
        Watching.standard.strategy strategy
      let interval ← orStandard wholeNumber? Watching.standard.interval interval
      return ⟨strategy, interval⟩
  | _ => none

/-- The keys of the settings, in the order in which an array gives the values. -/
def keys : List String :=
  ["include", "exclude", "outDir", "suffix", "nativeScope", "watch", "logLevel"]

def decode? (value : Value) : Option Settings :=
  match slots? keys value with
  | some [wanted, excluded, outDirectory, suffix, nativeScope, watching, logLevel] => do
      let wanted ← orStandard texts? standard.wanted wanted
      let excluded ← orStandard texts? standard.excluded excluded
      let outDirectory ← orStandard optionalText? standard.outDirectory outDirectory
      let suffix ← orStandard text? standard.suffix suffix
      let nativeScope ← orStandard flag? standard.nativeScope nativeScope
      let watching ← orStandard Watching.decode? standard.watching watching
      let logLevel ← orStandard (fun value => (choice? value).bind Log.Level.ofName?)
        standard.logLevel logLevel
      return ⟨wanted, excluded, outDirectory, suffix, nativeScope, watching, logLevel⟩
  | _ => none

def ofJson? (text : String) : Option Settings := (Json.parse? text).bind decode?

/-! ## Loading -/

def fileName : String := "scope-polyfill.json"

def ofText (text : String) : Except Failure Settings :=
  match ofJson? text with
  | none => .error .malformedSettings
  | some settings => settings.check.map fun _ => settings

def load (tree : Files.Tree) (path : String) : Except Failure Settings :=
  match tree.readText path with
  | .error fault => .error (.file path fault)
  | .ok text => ofText text

def loadOrStandard (tree : Files.Tree) (path : String) : Except Failure Settings :=
  if tree.pathExists path then load tree path else .ok standard

end Settings

end ScopeLowering
