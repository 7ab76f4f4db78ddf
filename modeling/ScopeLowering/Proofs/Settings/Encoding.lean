import Mathlib
import ScopeLowering.Proofs.CommandLine.Overriding
import ScopeLowering.Proofs.Json.Writing

/-!
# Loading what was written

Settings are written in a file as an object, whose members may stand in any order, among other
members and in any spelling, and may be left out if their values are the standard ones. Loading
such a file gives the settings that were written, unless one of their values is not allowed.
-/

namespace ScopeLowering.Settings

open ScopeLowering.Files (Tree)
open ScopeLowering.Json (Literal Value Spells Writable namedMembers)

variable {α : Type} {members : List (Literal × Value)} {key : String}

/-! ## One key -/

/-- That an object gives a key a value: by the one member with this key, or by none if the value
is the standard one. -/
inductive Gives (members : List (Literal × Value)) (key : String) (writes : α → Value → Prop)
    (standard given : α) : Prop
  | member (before after : List (Literal × Value)) {value : Value} (written : writes given value)
      (shape : members = before ++ (some key, value) :: after)
      (alone : ∀ member ∈ before ++ after, member.1 ≠ some key)
  | omitted (usual : given = standard) (absent : ∀ member ∈ members, member.1 ≠ some key)

theorem filter_of_absent (absent : ∀ member ∈ members, member.1 ≠ some key) :
    members.filter (fun member => member.1 = some key) = [] :=
  List.filter_eq_nil_iff.mpr fun member present => by simpa using absent member present

/-- What an object gives is found under its key and decoded, or supplied as the standard value. -/
theorem Gives.exists_slot {writes : α → Value → Prop} {standard given : α}
    (gives : Gives members key writes standard given) (decode : Value → Option α)
    (decodes : ∀ value, writes given value → decode value = some given) :
    ∃ slot, single? key members = some slot ∧ orStandard decode standard slot = some given := by
  cases gives with
  | @member before after value written shape alone =>
      have first : before.filter (fun member => member.1 = some key) = [] :=
        filter_of_absent fun member present => alone member (List.mem_append_left after present)
      have last : after.filter (fun member => member.1 = some key) = [] :=
        filter_of_absent fun member present => alone member (List.mem_append_right before present)
      have found : members.filter (fun member => member.1 = some key) = [(some key, value)] := by
        rw [shape, List.filter_append, first, List.filter_cons_of_pos (by simp), last,
          List.nil_append]
      exact ⟨some value, by rw [single?, found], decodes value written⟩
  | omitted usual absent =>
      exact ⟨none, by rw [single?, filter_of_absent absent], by rw [orStandard, usual]⟩

/-! ## The values -/

def textValue (text : String) : Value := .string (some text)

def textsValue (texts : List String) : Value := .array (texts.map textValue)

def optionalTextValue : Option String → Value
  | none => .null
  | some text => textValue text

def numberValue (number : UInt64) : Value := .number (Nat.toDigits 10 number.toNat)

theorem texts?_textsValue (texts : List String) : texts? (textsValue texts) = some texts := by
  rw [textsValue, texts?]
  induction texts with
  | nil => rfl
  | cons text texts ih =>
      rw [List.map_cons, List.mapM_cons, ih]
      rfl

theorem optionalText?_optionalTextValue (text : Option String) :
    optionalText? (optionalTextValue text) = some text := by
  cases text <;> rfl

/-- The decimal digits of a number of 64 bits are read as this number. -/
theorem wholeNumber?_numberValue (number : UInt64) :
    wholeNumber? (numberValue number) = some number := by
  have digits : (Nat.toDigits 10 number.toNat).all Char.isDigit = true :=
    List.all_eq_true.mpr fun c member =>
      Nat.isDigit_of_mem_toDigits (by decide) (by decide) member
  have sum : (Nat.toDigits 10 number.toNat).foldl
      (fun n c => n * 10 + (c.toNat - '0'.toNat)) 0 = number.toNat := by
    simp only [Nat.mul_comm _ 10]
    exact Nat.ofDigitChars_eq_foldl.symm.trans Nat.ofDigitChars_ten_toDigits
  have small : number.toNat < UInt64.size := number.toNat_lt
  rw [numberValue, wholeNumber?, if_pos digits]
  simp only [sum, if_pos small, UInt64.ofNat_toNat]

/-! ## Objects -/

structure Watching.Encodes (watching : Watching) (members : List (Literal × Value)) : Prop where
  readable : ∀ member ∈ members, member.1 ≠ none
  strategy : Gives members "strategy" (fun strategy value => value = textValue strategy.name)
    standard.strategy watching.strategy
  interval : Gives members "intervalMs" (fun number value => value = numberValue number)
    standard.interval watching.interval

/-- That an object writes settings. Other keys may have any values, but every key must be text. -/
structure Encodes (settings : Settings) (members : List (Literal × Value)) : Prop where
  readable : ∀ member ∈ members, member.1 ≠ none
  wanted : Gives members "include" (fun texts value => value = textsValue texts)
    standard.wanted settings.wanted
  excluded : Gives members "exclude" (fun texts value => value = textsValue texts)
    standard.excluded settings.excluded
  outDirectory : Gives members "outDir" (fun text value => value = optionalTextValue text)
    standard.outDirectory settings.outDirectory
  suffix : Gives members "suffix" (fun text value => value = textValue text)
    standard.suffix settings.suffix
  nativeScope : Gives members "nativeScope" (fun flag value => value = .bool flag)
    standard.nativeScope settings.nativeScope
  watching : Gives members "watch"
    (fun watching value => ∃ parts, value = .object parts ∧ watching.Encodes parts)
    standard.watching settings.watching
  logLevel : Gives members "logLevel" (fun level value => value = textValue level.name)
    standard.logLevel settings.logLevel

theorem slots?_object {keys : List String} {slots : List (Option Value)}
    (readable : ∀ member ∈ members, member.1 ≠ none)
    (found : keys.mapM (fun key => single? key members) = some slots) :
    slots? keys (.object members) = some slots := by
  rw [slots?, if_pos ?_, found]
  exact List.all_eq_true.mpr fun member present =>
    Option.isSome_iff_ne_none.mpr (readable member present)

theorem Watching.decode?_object {watching : Watching} (encodes : watching.Encodes members) :
    Watching.decode? (.object members) = some watching := by
  obtain ⟨strategy, singleStrategy, readStrategy⟩ := encodes.strategy.exists_slot
    (fun value => (choice? value).bind Strategy.ofName?) fun _ written => by
      rw [written]
      exact Strategy.ofName?_name watching.strategy
  obtain ⟨interval, singleInterval, readInterval⟩ := encodes.interval.exists_slot
    wholeNumber? fun _ written => by rw [written, wholeNumber?_numberValue]
  have found : slots? ["strategy", "intervalMs"] (.object members) = some [strategy, interval] :=
    slots?_object encodes.readable (by simp [singleStrategy, singleInterval])
  rw [Watching.decode?, found]
  simp only [readStrategy, readInterval, Option.bind_eq_bind, Option.bind_some]
  rfl

/-- An object gives back the settings that it writes, whatever else is in it. -/
theorem decode?_object {settings : Settings} (encodes : settings.Encodes members) :
    decode? (.object members) = some settings := by
  obtain ⟨wanted, singleWanted, readWanted⟩ := encodes.wanted.exists_slot
    texts? fun _ written => by rw [written, texts?_textsValue]
  obtain ⟨excluded, singleExcluded, readExcluded⟩ := encodes.excluded.exists_slot
    texts? fun _ written => by rw [written, texts?_textsValue]
  obtain ⟨outDirectory, singleDirectory, readDirectory⟩ := encodes.outDirectory.exists_slot
    optionalText? fun _ written => by rw [written, optionalText?_optionalTextValue]
  obtain ⟨suffix, singleSuffix, readSuffix⟩ := encodes.suffix.exists_slot
    text? fun _ written => by rw [written, textValue, text?]
  obtain ⟨nativeScope, singleScope, readScope⟩ := encodes.nativeScope.exists_slot
    flag? fun _ written => by rw [written, flag?]
  obtain ⟨watching, singleWatching, readWatching⟩ := encodes.watching.exists_slot
    Watching.decode? fun _ ⟨parts, written, encodes⟩ => by
      rw [written, Watching.decode?_object encodes]
  obtain ⟨logLevel, singleLevel, readLevel⟩ := encodes.logLevel.exists_slot
    (fun value => (choice? value).bind Log.Level.ofName?) fun _ written => by
      rw [written]
      exact Log.Level.ofName?_name settings.logLevel
  have found : slots? keys (.object members) =
      some [wanted, excluded, outDirectory, suffix, nativeScope, watching, logLevel] :=
    slots?_object encodes.readable (by
      simp [keys, singleWanted, singleExcluded, singleDirectory, singleSuffix, singleScope,
        singleWatching, singleLevel])
  rw [decode?, found]
  simp only [readWanted, readExcluded, readDirectory, readSuffix, readScope, readWatching,
    readLevel, Option.bind_eq_bind, Option.bind_some]
  rfl

/-! ## Files -/

def Encoded (settings : Settings) (text : String) : Prop :=
  ∃ members, Spells (.element (.object members)) text.toList ∧ settings.Encodes members

variable {settings : Settings} {text : String}

theorem ofJson?_of_encoded (encoded : settings.Encoded text) : ofJson? text = some settings := by
  obtain ⟨members, spells, encodes⟩ := encoded
  rw [ofJson?, Json.parse?_eq_some_iff.mpr spells, Option.bind_some, decode?_object encodes]

/-- No text writes two different settings. -/
theorem encoded_unique {other : Settings} (one : settings.Encoded text)
    (two : other.Encoded text) : settings = other :=
  Option.some.inj ((ofJson?_of_encoded one).symm.trans (ofJson?_of_encoded two))

/-! ## A text for all settings -/

theorem writable_textsValue (texts : List String) : Writable (textsValue texts) := by
  refine .array fun item member => ?_
  obtain ⟨text, -, rfl⟩ := List.mem_map.mp member
  exact .string text

theorem writable_optionalTextValue (text : Option String) : Writable (optionalTextValue text) := by
  cases text with
  | none => exact ⟨['n', 'u', 'l', 'l'], .word List.mem_cons_self⟩
  | some text => exact .string text

theorem writable_bool (flag : Bool) : Writable (.bool flag) := by
  cases flag with
  | false => exact ⟨['f', 'a', 'l', 's', 'e'], .word (by simp [Json.words])⟩
  | true => exact ⟨['t', 'r', 'u', 'e'], .word (by simp [Json.words])⟩

theorem writable_numberValue (number : UInt64) : Writable (numberValue number) :=
  ⟨_, .number (Json.isNumber_toDigits number.toNat)⟩

def Watching.written (watching : Watching) : List (String × Value) :=
  [("strategy", textValue watching.strategy.name), ("intervalMs", numberValue watching.interval)]

def written (settings : Settings) : List (String × Value) :=
  [("include", textsValue settings.wanted), ("exclude", textsValue settings.excluded),
    ("outDir", optionalTextValue settings.outDirectory), ("suffix", textValue settings.suffix),
    ("nativeScope", .bool settings.nativeScope),
    ("watch", .object (namedMembers settings.watching.written)),
    ("logLevel", textValue settings.logLevel.name)]

theorem Watching.encodes_written (watching : Watching) :
    watching.Encodes (namedMembers watching.written) where
  readable := by simp [namedMembers, written]
  strategy := .member [] _ rfl rfl (by simp)
  interval := .member [_] _ rfl rfl (by simp)

theorem encodes_written (settings : Settings) :
    settings.Encodes (namedMembers settings.written) where
  readable := by simp [namedMembers, written]
  wanted := .member [] _ rfl rfl (by simp)
  excluded := .member [_] _ rfl rfl (by simp)
  outDirectory := .member [_, _] _ rfl rfl (by simp)
  suffix := .member [_, _, _] _ rfl rfl (by simp)
  nativeScope := .member [_, _, _, _] _ rfl rfl (by simp)
  watching := .member [_, _, _, _, _] _ ⟨_, rfl, settings.watching.encodes_written⟩ rfl (by simp)
  logLevel := .member [_, _, _, _, _, _] _ rfl rfl (by simp)

/-- All settings can be written, whatever characters are in them. -/
theorem exists_encoded (settings : Settings) : ∃ text, settings.Encoded text := by
  have watching : Writable (.object (namedMembers settings.watching.written)) :=
    .object (by simp [Watching.written, Writable.string, textValue, writable_numberValue])
  have writable : Writable (.object (namedMembers settings.written)) :=
    .object (by
      simp [written, Writable.string, textValue, writable_textsValue, writable_optionalTextValue,
        writable_bool, watching])
  obtain ⟨text, spells⟩ := writable
  refine ⟨String.ofList text, _, ?_, settings.encodes_written⟩
  rw [String.toList_ofList]
  exact spells.element_of_value

/-! ## Loading -/

def RefusesSuffix (settings : Settings) : Prop :=
  settings.suffix = "" ∨ settings.outDirectory = none ∧ settings.suffix = ".css"

/-- Loading undoes writing. A file that writes settings gives exactly these settings if they are
allowed, and otherwise the failure of the first value that is not: the patterns of the sources,
the suffix, the interval. -/
theorem load_of_encoded {tree : Tree} {path : String} (read : tree.readText path = .ok text)
    (encoded : settings.Encoded text) :
    load tree path = settings.check.map (fun _ => settings) ∧
    (settings.wanted = [] → load tree path = .error (.setting "include" "[]")) ∧
    (settings.wanted ≠ [] → settings.RefusesSuffix →
      load tree path = .error (.setting "suffix" settings.suffix)) ∧
    (settings.wanted ≠ [] → ¬settings.RefusesSuffix → settings.watching.interval = 0 →
      load tree path = .error (.setting "watch.intervalMs" "0")) ∧
    (settings.wanted ≠ [] → ¬settings.RefusesSuffix → settings.watching.interval ≠ 0 →
      load tree path = .ok settings) := by
  have loaded := load_of_decoded read (ofJson?_of_encoded encoded)
  have patterns : settings.wanted ≠ [] → ¬settings.wanted.isEmpty = true :=
    fun wanted empty => wanted (List.isEmpty_iff.mp empty)
  have suffix : settings.RefusesSuffix ↔
      settings.suffix = "" ∨ settings.outDirectory.isNone ∧ settings.suffix = ".css" := by
    rw [RefusesSuffix, Option.isNone_iff_eq_none]
  rw [loaded]
  refine ⟨rfl, fun wanted => ?_, fun wanted refused => ?_, fun wanted accepted interval => ?_,
    fun wanted accepted interval => ?_⟩
  · rw [check, if_pos (List.isEmpty_iff.mpr wanted)]
    rfl
  · rw [check, if_neg (patterns wanted), if_pos (suffix.mp refused)]
    rfl
  · rw [check, if_neg (patterns wanted), if_neg (not_congr suffix |>.mp accepted), if_pos interval]
    rfl
  · rw [check, if_neg (patterns wanted), if_neg (not_congr suffix |>.mp accepted), if_neg interval]
    rfl

/-- Settings with a character beyond the sixteen bits, an empty directory and the longest
interval; the others are the standard ones. -/
def looseSettings : Settings :=
  { standard with
    wanted := ["😀/*.css"]
    outDirectory := some ""
    watching := ⟨.poll, 18446744073709551615⟩ }

def looseText : String :=
  "\x7b\"x\":[-0.5E+9,\"\\ud800\"],\t\"watch\":\x7b\"interval\\u004ds\": 18446744073709551615 ," ++
    "\"x\":\x7b\x7d\x7d,\n\"x\":0,\"include\":[\"\\uD83D\\ude00\\/*.css\"],\"outDir\":\"\"\x7d"

def watchMembers : List (Literal × Value) :=
  [(some "intervalMs", numberValue 18446744073709551615), (some "x", .object [])]

def looseMembers : List (Literal × Value) :=
  [(some "x", .array [.number "-0.5E+9".toList, .string none]),
    (some "watch", .object watchMembers), (some "x", .number ['0']),
    (some "include", textsValue ["😀/*.css"]), (some "outDir", textValue "")]

theorem encodes_watchMembers : looseSettings.watching.Encodes watchMembers where
  readable := by decide
  strategy := .omitted rfl (by decide)
  interval := .member [] _ rfl rfl (by decide)

theorem encodes_looseMembers : looseSettings.Encodes looseMembers where
  readable := by decide
  wanted := .member [_, _, _] _ rfl rfl (by decide)
  excluded := .omitted rfl (by decide)
  outDirectory := .member [_, _, _, _] _ rfl rfl (by decide)
  suffix := .omitted rfl (by decide)
  nativeScope := .omitted rfl (by decide)
  watching := .member [_] _ ⟨_, rfl, encodes_watchMembers⟩ rfl (by decide)
  logLevel := .omitted rfl (by decide)

theorem encoded_looseText : looseSettings.Encoded looseText :=
  ⟨looseMembers, Json.parse?_eq_some_iff.mp (by cbv), encodes_looseMembers⟩

/-- The order and the spelling of a file are free, and what it does not say is the standard. -/
theorem load_of_encoded_looseText :
    (CommandLine.settingsTree "c.json" looseText).readText "c.json" = .ok looseText ∧
      looseSettings.Encoded looseText ∧
      load (CommandLine.settingsTree "c.json" looseText) "c.json" = .ok looseSettings := by
  have read : (CommandLine.settingsTree "c.json" looseText).readText "c.json" = .ok looseText := rfl
  exact ⟨read, encoded_looseText, (load_of_encoded read encoded_looseText).1⟩

end ScopeLowering.Settings
