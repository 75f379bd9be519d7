import Excerpt.Config.Basic
import Excerpt.Yaml.Document

/-!
Configuration from YAML. What is left out has its default, and fields that are not known are passed over.
-/

namespace Excerpt

namespace Yaml

def hasKey (name : String) (entry : Yaml × Yaml) : Bool :=
  match entry.1 with
  | .scalar text _ => text == name
  | _ => false

def isScalar : Yaml → Bool
  | .scalar _ _ => true
  | _ => false

/-- The value of a field, which may occur once. -/
def field (entries : List (Yaml × Yaml)) (name : String) : Except YamlError (Option Yaml) :=
  match entries.filter (hasKey name) with
  | [] => .ok none
  | [entry] => .ok (some entry.2)
  | _ => .error (.duplicateField name)

/-- The values of the named fields, in the order of the names. A missing value has no fields. -/
def fields (names : List String) : Yaml → Except YamlError (List (Option Yaml))
  | .scalar text quoted =>
    if text = "" ∧ !quoted then .ok (names.map fun _ => none) else .error (.wrongType "a mapping")
  | .sequence _ => .error (.wrongType "a mapping")
  | .mapping entries =>
    if entries.all fun entry => entry.1.isScalar then names.mapM (field entries)
    else .error (.wrongType "a field name")

def string : Yaml → Except YamlError String
  | .scalar text _ => .ok text
  | _ => .error (.wrongType "a string")

def strings : Yaml → Except YamlError (List String)
  | .sequence items => items.mapM string
  | .scalar text quoted => if text = "" ∧ !quoted then .ok [] else .error (.wrongType "a sequence")
  | .mapping _ => .error (.wrongType "a sequence")

def bool : Yaml → Except YamlError Bool
  | .scalar text false =>
    if ["true", "True", "TRUE"].contains text then .ok true
    else if ["false", "False", "FALSE"].contains text then .ok false
    else .error (.wrongType "a boolean")
  | _ => .error (.wrongType "a boolean")

/-- A string, or none for a missing value or a plain null. -/
def optionalString : Yaml → Except YamlError (Option String)
  | .scalar text quoted =>
    if !quoted ∧ ["", "null", "Null", "NULL", "~"].contains text then .ok none else .ok (some text)
  | _ => .error (.wrongType "a string")

def orDefault (read : Yaml → Except YamlError α) (default : α) : Option Yaml → Except YamlError α
  | some value => read value
  | none => .ok default

end Yaml

namespace Config

def readExtract (config : Config) (document : Yaml) : Except YamlError Config := do
  match ← Yaml.fields ["functions", "export_symbols", "output", "externalize", "dump_passes"] document with
  | [functions, exportSymbols, output, externalize, dumpPasses] =>
    return { config with
      functions := ← Yaml.orDefault Yaml.strings [] functions
      exportSymbols := ← Yaml.orDefault Yaml.strings [] exportSymbols
      output := ← Yaml.orDefault Yaml.optionalString none output
      externalize := ← Yaml.orDefault Yaml.bool true externalize
      dumpPasses := ← Yaml.orDefault Yaml.bool false dumpPasses }
  | _ => return config

def readFrontend (config : Config) (document : Yaml) : Except YamlError Config := do
  match ← Yaml.fields ["include_paths", "keep_includes"] document with
  | [includePaths, keepIncludes] =>
    return { config with
      includePaths := ← Yaml.orDefault Yaml.strings [] includePaths
      keepIncludes := ← Yaml.orDefault Yaml.bool false keepIncludes }
  | _ => return config

def readDocument (document : Yaml) : Except YamlError Config := do
  match ← Yaml.fields ["extract", "frontend"] document with
  | [extract, frontend] =>
    let config ← Yaml.orDefault (readExtract {}) {} extract
    Yaml.orDefault (readFrontend config) config frontend
  | _ => return {}

def ofYaml (text : List Char) : Except Error Config :=
  match Yaml.parse text with
  | .error error => .error (.config error.message)
  | .ok document =>
    match readDocument document with
    | .error error => .error (.config error.message)
    | .ok config => .ok config

end Config

end Excerpt
