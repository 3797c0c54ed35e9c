import PineScript.FileTree
import PineScript.Settings
import PineScript.Text.Utf8
import PineScript.Text.UpperCase
import PineScript.Toml.Document

/-!
# Loading settings

Settings stand in the section `tool.pine-lint` of the nearest `pyproject.toml` above a directory.
Without such a file, and if it is not well-formed TOML, the defaults hold. A section with values of
the wrong kind is refused, and so is a directory with a name that is too long.
-/

namespace PineScript

inductive SettingsFault where
  /-- The settings file cannot be looked for. -/
  | file (fault : FileFault) (path : FilePath)
  /-- The file is not UTF-8. -/
  | encoding (fault : Text.Utf8Fault)
  /-- Something else than a list of rules. -/
  | notAList (kind : String)
  /-- Something else than the name of a rule. -/
  | notAName (kind : String)
  /-- Something else than a section. -/
  | notASection (kind : String)
  /-- Something else than a table of options. -/
  | notOptions (kind : String)
deriving DecidableEq, Repr

def SettingsFault.message : SettingsFault → String
  | file fault path => fault.message path
  | encoding fault => fault.message
  | notAList kind => s!"'{kind}' object is not iterable"
  | notAName kind => s!"'{kind}' object has no attribute 'upper'"
  | notASection kind => s!"'{kind}' object has no attribute 'get'"
  | notOptions kind => s!"'{kind}' object has no attribute 'items'"

namespace Settings

open Toml (Value Table)

/-- An entry that has to be a table; without it the table is empty. -/
def section? (t : Table) (name : String) : Except SettingsFault Table :=
  match t.lookup name with
  | none => .ok []
  | some (.table entries) => .ok entries
  | some v => .error (.notASection v.kindName)

def ruleName (v : Value) : Except SettingsFault String :=
  match v with
  | .string text => .ok (Text.upper text)
  | v => .error (.notAName v.kindName)

/-- The rules that a value names. A text stands for its characters and a table for its keys. -/
def ruleNames : Value → Except SettingsFault (List String)
  | .array items => sortedTexts <$> items.mapM ruleName
  | .string text =>
    .ok (sortedTexts (text.toList.map fun c => Text.upper (String.ofList [c])))
  | .table entries => .ok (sortedTexts (entries.map fun (name, _) => Text.upper name))
  | v => .error (.notAList v.kindName)

def textOf? : Value → Option String
  | .string text => some text
  | _ => none

/-- The value of an option, if it is of a kind that options have. -/
def optionValue? : Value → Option OptionValue
  | .integer n => some (.int n)
  | .boolean b => some (.bool b)
  | .string text => some (.text text)
  | .array items => OptionValue.texts <$> items.mapM textOf?
  | _ => none

def optionsOf (t : Table) : Options :=
  t.filterMap fun (name, v) => (optionValue? v).map (name, ·)

/-- Adds the options of a rule; the last ones for a rule hold. -/
def withOptions (all : List (String × Options)) (id : String) (options : Options) :
    List (String × Options) :=
  all.filter (·.1 ≠ id) ++ [(id, options)]

def ruleOptions (t : Table) : List (String × Options) :=
  t.foldl (fun all (name, v) =>
    match v with
    | .table entries => withOptions all (Text.upper name) (optionsOf entries)
    | _ => all) []

/-- The settings of a document. -/
def ofToml (root : Table) : Except SettingsFault Settings := do
  let tool ← section? root "tool"
  let own ← section? tool "pine-lint"
  let select ← (own.lookup "select").mapM ruleNames
  let ignore ← match own.lookup "ignore" with
    | none => pure []
    | some v => ruleNames v
  let options ← match own.lookup "rules" with
    | none => pure []
    | some (.table entries) => pure (ruleOptions entries)
    | some v => .error (.notOptions v.kindName)
  return { select, ignore, options }

def ofBytes (bytes : List UInt8) : Except SettingsFault Settings :=
  match Text.decodeUtf8 bytes with
  | .error fault => .error (.encoding fault)
  | .ok source =>
    match Toml.parse? source with
    | none => .ok {}
    | some root => ofToml root

/-- A directory and those above it as far as its path is written, nearest first. -/
def upwards (directory : FilePath) : List FilePath :=
  (List.range (directory.parts.length + 1)).reverse.map fun n =>
    { directory with parts := directory.parts.take n }

/-- The content of the settings file in the first directory that has one. -/
def firstIn (tree : FileTree) : List FilePath → Except SettingsFault (Option (List UInt8))
  | [] => .ok none
  | directory :: more =>
    let path := directory.below ["pyproject.toml"]
    match tree.read path with
    | .ok bytes => .ok (some bytes)
    | .error .nameTooLong => .error (.file .nameTooLong path)
    | .error _ => firstIn tree more

/-- The settings that hold in a directory. -/
def load (tree : FileTree) (directory : FilePath) : Except SettingsFault Settings := do
  match ← firstIn tree (upwards directory) with
  | none => return {}
  | some bytes => ofBytes bytes

end Settings

end PineScript
