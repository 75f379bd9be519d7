import Excerpt.Error
import Excerpt.Session
import Excerpt.Token

namespace Excerpt

structure Config where
  /-- Names of the functions to extract. -/
  functions : List String := []
  /-- Names that become pointers though they are not internal. -/
  exportSymbols : List String := []
  /-- File for the emitted text; standard output when absent. -/
  output : Option String := none
  /-- Internal symbols become pointers. -/
  externalize : Bool := true
  /-- The report is written too. -/
  dumpPasses : Bool := false
  /-- Directories in which quoted headers are looked up. -/
  includePaths : List String := []
  /-- Headers stay behind their directives. -/
  keepIncludes : Bool := false
deriving DecidableEq, Repr, Inhabited

/-- Names without the blanks around them, empty ones left out, each once where it came first. -/
def normalizeNames (names : List String) : List String :=
  ((names.map fun name => String.ofList (Text.trim name.toList)).filter (· ≠ "")).eraseDups

/-- An ASCII letter or underscore, then letters, digits and underscores. -/
def isCIdentifier (name : String) : Bool :=
  match name.toList with
  | [] => false
  | first :: rest => Token.isIdentifierStart first && rest.all Token.isIdentifierChar

namespace Config

/-- The request with its names normalized. It needs a function, and all its names have to be identifiers. -/
def validate (config : Config) : Except Error Config :=
  let functions := normalizeNames config.functions
  let exportSymbols := normalizeNames config.exportSymbols
  if functions.isEmpty then .error (.config "no functions to extract")
  else
    match (functions ++ exportSymbols).find? (!isCIdentifier ·) with
    | some name => .error (.config ("`" ++ name ++ "` is not a C identifier"))
    | none => .ok { config with functions, exportSymbols }

def session (config : Config) (program : Program) : Session :=
  { program
    keepIncludes := config.keepIncludes
    policy := ⟨config.externalize, config.exportSymbols⟩ }

end Config

end Excerpt
