/-!
Arguments of a command line that may be a compiler's. Definitions `-DCE_…` and directories `-Idir` stand for options of
the command, other compiler flags are passed over.
-/

namespace Excerpt

/-- Options with a value, which is the next argument or follows a `=`. -/
inductive ValueOption where
  | functions
  | exportSymbols
  | output
  | includePath
  | config
deriving DecidableEq, Repr

def ValueOption.ofName? (name : String) : Option ValueOption :=
  match name with
  | "-f" | "--functions" => some .functions
  | "--export-symbols" => some .exportSymbols
  | "-o" | "--output" => some .output
  | "-I" | "--include" => some .includePath
  | "--config" => some .config
  | _ => none

inductive Switch where
  | noExternalization
  | dumpPasses
  | keepIncludes
deriving DecidableEq, Repr

def Switch.ofName? (name : String) : Option Switch :=
  match name with
  | "--no-externalization" => some .noExternalization
  | "--dump-passes" => some .dumpPasses
  | "--keep-includes" => some .keepIncludes
  | _ => none

inductive Notice where
  | help
  | version
deriving DecidableEq, Repr

def Notice.ofName? (name : String) : Option Notice :=
  match name with
  | "-h" | "--help" => some .help
  | "-V" | "--version" => some .version
  | _ => none

namespace Argument

def startsWith (start argument : String) : Bool :=
  start.toList.isPrefixOf argument.toList

def after? (start argument : String) : Option String :=
  if startsWith start argument then some (String.ofList (argument.toList.drop start.toList.length)) else none

def before (stop : Char) (text : String) : String :=
  String.ofList (text.toList.takeWhile (· ≠ stop))

/-- A long option with its value behind a `=`. -/
def attached? (argument : String) : Option (ValueOption × String) :=
  let name := before '=' argument
  if startsWith "--" name && argument.toList.contains '=' then
    (ValueOption.ofName? name).map fun option => (option, String.ofList (argument.toList.drop (name.toList.length + 1)))
  else none

def compilerOption? (argument : String) : Option (List String) :=
  if let some names := after? "-DCE_EXTRACT_FUNCTIONS=" argument then some ["--functions", names]
  else if let some names := after? "-DCE_EXPORT_SYMBOLS=" argument then some ["--export-symbols", names]
  else if let some paths := after? "-DCE_OUTPUT_FILE=" argument then some ["--output", before ',' paths]
  else if argument = "-DCE_NO_EXTERNALIZATION" then some ["--no-externalization"]
  else if argument = "-DCE_DUMP_PASSES" then some ["--dump-passes"]
  else if argument = "-I" then none
  else (after? "-I" argument).map fun directory => ["--include", directory]

/-- The argument means something without the one behind it. -/
def standsAlone (argument : String) : Bool :=
  (Switch.ofName? argument).isSome || (Notice.ofName? argument).isSome || (attached? argument).isSome ||
    !startsWith "-" argument

end Argument

/-- The arguments of the command itself, and those that were passed over. -/
structure Arguments where
  known : List String
  ignored : List String
deriving DecidableEq, Repr, Inhabited

namespace Arguments

def keep (arguments : List String) (rest : Arguments) : Arguments :=
  { rest with known := arguments ++ rest.known }

def ignore (argument : String) (rest : Arguments) : Arguments :=
  { rest with ignored := argument :: rest.ignored }

/-- Sorts arguments that stand behind the program's name. An option's value is kept as it is written. -/
def ofOptions : List String → Arguments
  | [] => ⟨[], []⟩
  | argument :: rest =>
    match Argument.compilerOption? argument with
    | some options => keep options (ofOptions rest)
    | none =>
      if (ValueOption.ofName? argument).isSome then
        match rest with
        | [] => ⟨[argument], []⟩
        | value :: rest => keep [argument, value] (ofOptions rest)
      else if Argument.standsAlone argument then keep [argument] (ofOptions rest)
      else ignore argument (ofOptions rest)

/-- Sorts the arguments of a command line, of which the first is the program's name. -/
def normalize : List String → Arguments
  | [] => ⟨[], []⟩
  | program :: rest => keep [program] (ofOptions rest)

end Arguments

end Excerpt
