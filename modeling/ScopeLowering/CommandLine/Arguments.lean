import ScopeLowering.Failure

/-!
# Command line arguments

Reads a command line from left to right. The value of an option is checked when the option is
complete: at once if it is attached to the option, else when the next switch, option with a value or
path is met, or at the end. So an unknown argument that comes directly after a bad value is reported
before it. The texts that explain the command line are for the outer layer.
-/

namespace ScopeLowering.CommandLine

def version : String := "0.1.0"

inductive Refusal where
  | invalidValue
  | unknownArgument
  | argumentConflict
  | tooManyValues
  | displayHelp
  | displayVersion
deriving DecidableEq, Repr

inductive Setting where
  | config
  | outDirectory
  | suffix
  | logLevel
deriving DecidableEq, Repr

inductive Switch where
  | watch
  | native
  | standardOutput
  | help
  | version
deriving DecidableEq, Repr

inductive Flag where
  | setting (setting : Setting)
  | switch (switch : Switch)
deriving DecidableEq, Repr

structure Arguments where
  paths : List String
  config : Option String
  outDirectory : Option String
  suffix : Option String
  logLevel : Option Log.Level
  watch : Bool
  native : Bool
  standardOutput : Bool
deriving DecidableEq, Repr

def Arguments.empty : Arguments := ⟨[], none, none, none, none, false, false, false⟩

def inputPath : String := "-"

def Arguments.filePaths (arguments : Arguments) : List String :=
  arguments.paths.filter fun path => path ≠ inputPath

def Arguments.readsInput (arguments : Arguments) : Bool := arguments.paths.contains inputPath

def longOption? : String → Option Flag
  | "config" => some (.setting .config)
  | "out-dir" => some (.setting .outDirectory)
  | "suffix" => some (.setting .suffix)
  | "log-level" => some (.setting .logLevel)
  | "watch" => some (.switch .watch)
  | "native" => some (.switch .native)
  | "stdout" => some (.switch .standardOutput)
  | "help" => some (.switch .help)
  | "version" => some (.switch .version)
  | _ => none

def shortOption? : Char → Option Flag
  | 'c' => some (.setting .config)
  | 'o' => some (.setting .outDirectory)
  | 'w' => some (.switch .watch)
  | 'h' => some (.switch .help)
  | 'V' => some (.switch .version)
  | _ => none

def once {α : Type} (old : Option α) (new : α) : Except Refusal (Option α) :=
  match old with
  | some _ => .error .argumentConflict
  | none => .ok (some new)

def Arguments.set (arguments : Arguments) (value : String) : Setting → Except Refusal Arguments
  | .config => (once arguments.config value).map fun config => { arguments with config }
  | .outDirectory =>
      (once arguments.outDirectory value).map fun outDirectory => { arguments with outDirectory }
  | .suffix => (once arguments.suffix value).map fun suffix => { arguments with suffix }
  | .logLevel =>
      if arguments.logLevel.isSome then .error .argumentConflict
      else match Log.Level.ofName? value with
        | some level => .ok { arguments with logLevel := some level }
        | none => .error .invalidValue

def Arguments.turnOn (arguments : Arguments) : Switch → Except Refusal Arguments
  | .watch =>
      if arguments.watch then .error .argumentConflict else .ok { arguments with watch := true }
  | .native =>
      if arguments.native then .error .argumentConflict else .ok { arguments with native := true }
  | .standardOutput =>
      if arguments.standardOutput then .error .argumentConflict
      else .ok { arguments with standardOutput := true }
  | .help => .error .displayHelp
  | .version => .error .displayVersion

/-- The arguments so far, and an option that is not complete: one that still waits for its
value, or one whose value is not checked yet. -/
structure Reading where
  arguments : Arguments
  pending : Option (Setting × Option String)
deriving DecidableEq, Repr

namespace Reading

def settle (reading : Reading) : Except Refusal Arguments :=
  match reading.pending with
  | none => .ok reading.arguments
  | some (_, none) => .error .invalidValue
  | some (setting, some value) => reading.arguments.set value setting

def takeSetting (reading : Reading) (setting : Setting) (attached : Option String) :
    Except Refusal Reading := do
  let arguments ← reading.settle
  match attached with
  | some value => return ⟨← arguments.set value setting, none⟩
  | none => return ⟨arguments, some (setting, none)⟩

def takeSwitch (reading : Reading) (switch : Switch) : Except Refusal Reading := do
  return ⟨← (← reading.settle).turnOn switch, none⟩

def takePath (reading : Reading) (path : String) : Except Refusal Reading := do
  let arguments ← reading.settle
  return ⟨{ arguments with paths := arguments.paths ++ [path] }, none⟩

def takeLong (reading : Reading) (text : List Char) : Except Refusal Reading :=
  let name := text.takeWhile (· != '=')
  let attached := match text.dropWhile (· != '=') with
    | _ :: value => some (String.ofList value)
    | [] => none
  match longOption? (String.ofList name) with
  | some (.setting setting) => reading.takeSetting setting attached
  | some (.switch switch) =>
      if attached.isSome then .error .tooManyValues else reading.takeSwitch switch
  | none => .error .unknownArgument

/-- Takes a group of one-letter options. What follows an option with a value is its
value, after an equals sign if there is one. -/
def takeShort (reading : Reading) : List Char → Except Refusal Reading
  | [] => .ok reading
  | letter :: letters =>
      match shortOption? letter with
      | some (.switch switch) =>
          match reading.takeSwitch switch with
          | .ok reading => reading.takeShort letters
          | .error refusal => .error refusal
      | some (.setting setting) =>
          reading.takeSetting setting (match letters with
            | [] => none
            | '=' :: value => some (String.ofList value)
            | value => some (String.ofList value))
      | none => .error .unknownArgument

def takePlain (reading : Reading) (text : String) : Except Refusal Reading :=
  match reading.pending with
  | some (setting, none) => .ok { reading with pending := some (setting, some text) }
  | _ => reading.takePath text

def take (reading : Reading) (argument : String) : Except Refusal Reading :=
  match argument.toList with
  | '-' :: '-' :: text => reading.takeLong text
  | '-' :: letter :: letters => reading.takeShort (letter :: letters)
  | _ => reading.takePlain argument

/-- Takes the rest of a command line. After two hyphens everything is a path. -/
def takeAll (reading : Reading) : List String → Except Refusal Reading
  | [] => .ok reading
  | "--" :: paths => paths.foldlM takePath reading
  | argument :: arguments =>
      match reading.take argument with
      | .ok reading => reading.takeAll arguments
      | .error refusal => .error refusal

end Reading

def Arguments.parse (commandLine : List String) : Except Refusal Arguments :=
  match (Reading.mk Arguments.empty none).takeAll commandLine with
  | .ok reading => reading.settle
  | .error refusal => .error refusal

/-! ## Usage -/

def programName : String := "scope-polyfill"

def versionText : String := programName ++ " " ++ version ++ "\n"

def usage : String :=
  String.intercalate "\n"
    ["Rewrites CSS @scope blocks into plain CSS", "",
      "Usage: scope-polyfill [OPTIONS] [PATH]...", "",
      "Arguments:",
      "  [PATH]...  Stylesheet paths or glob patterns, or - for stdin", "",
      "Options:",
      "  -c, --config <PATH>      Path to scope-polyfill.json",
      "  -o, --out-dir <DIR>      Directory for generated stylesheets",
      "      --suffix <SUFFIX>    Suffix of generated files (default .scoped.css)",
      "  -w, --watch              Keep running and polyfill sources as they change",
      "      --native             Target engine supports @scope natively; do nothing",
      "      --stdout             Print generated CSS instead of writing files",
      "      --log-level <LEVEL>  Minimum level of log messages "
        ++ "[possible values: debug, info, warn, error]",
      "  -h, --help               Print help",
      "  -V, --version            Print version", ""]

/-- What is wrong with a refused command line; nothing if it asks for help or version. -/
def Refusal.complaint? : Refusal → Option String
  | .invalidValue => some "an option has no value or a value that is not allowed"
  | .unknownArgument => some "unexpected argument"
  | .argumentConflict => some "an option is given more than once"
  | .tooManyValues => some "a value is given to an option that takes none"
  | .displayHelp => none
  | .displayVersion => none

end ScopeLowering.CommandLine
