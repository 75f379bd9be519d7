import Excerpt.Command.Argument
import Excerpt.Config.Basic

/-!
Options of a command line. Each argument is taken before the next is looked at, and the first fault ends the reading.
-/

namespace Excerpt

inductive UsageError where
  | missingValue (option : String)
  | emptyPath (option : String)
  | repeatedOption (option : String)
  | unexpected (argument : String)
  | missingFile
deriving DecidableEq, Repr

def UsageError.message : UsageError → String
  | missingValue option => "a value is required for '" ++ option ++ "' but none was supplied"
  | emptyPath option => "a value is required for '" ++ option ++ "' but none was supplied"
  | repeatedOption option => "the argument '" ++ option ++ "' cannot be used multiple times"
  | unexpected argument => "unexpected argument '" ++ argument ++ "' found"
  | missingFile => "the following required arguments were not provided:\n  <FILE>"

structure Options where
  file : Option String := none
  functions : List String := []
  exportSymbols : List String := []
  output : Option String := none
  noExternalization : Bool := false
  dumpPasses : Bool := false
  keepIncludes : Bool := false
  includePaths : List String := []
  config : Option String := none
deriving DecidableEq, Repr, Inhabited

inductive Request where
  | notice (notice : Notice)
  | extract (file : String) (options : Options)
deriving DecidableEq, Repr

def commaPieces (text : String) : List String :=
  let pieces := text.toList.foldr (fun c pieces =>
    match pieces with
    | first :: others => if c = ',' then [] :: first :: others else (c :: first) :: others
    | [] => [[c]]) [[]]
  pieces.map String.ofList

namespace Options

variable (options : Options)

/-- A path that may be given once and has some text. -/
def setPath (name : String) (present : Option String) (path : String) (set : String → Options) :
    Except UsageError Options :=
  if path = "" then .error (.emptyPath name)
  else if present.isSome then .error (.repeatedOption name)
  else .ok (set path)

/-- Takes an option with its value. Names and search directories add up. -/
def assign (name : String) (option : ValueOption) (value : String) : Except UsageError Options :=
  match option with
  | .functions => .ok { options with functions := options.functions ++ commaPieces value }
  | .exportSymbols => .ok { options with exportSymbols := options.exportSymbols ++ commaPieces value }
  | .includePath =>
    if value = "" then .error (.emptyPath name)
    else .ok { options with includePaths := options.includePaths ++ [value] }
  | .output => setPath name options.output value fun path => { options with output := some path }
  | .config => setPath name options.config value fun path => { options with config := some path }

def turnOn (name : String) (switch : Switch) : Except UsageError Options :=
  let once := fun (on : Bool) (changed : Options) => if on then .error (.repeatedOption name) else .ok changed
  match switch with
  | .noExternalization => once options.noExternalization { options with noExternalization := true }
  | .dumpPasses => once options.dumpPasses { options with dumpPasses := true }
  | .keepIncludes => once options.keepIncludes { options with keepIncludes := true }

def setFile (argument : String) : Except UsageError Options :=
  if options.file.isSome then .error (.unexpected argument)
  else if argument = "" then .error (.emptyPath "<FILE>")
  else .ok { options with file := some argument }

def take (argument : String) : Except UsageError Options :=
  if let some switch := Switch.ofName? argument then options.turnOn argument switch
  else if let some (option, value) := Argument.attached? argument then options.assign argument option value
  else if Argument.startsWith "-" argument then .error (.unexpected argument)
  else options.setFile argument

/-- The argument can be the value of the option before it. A lone hyphen is a value. -/
def isValue (argument : String) : Bool :=
  !Argument.startsWith "-" argument || argument == "-"

def readFrom (options : Options) : List String → Except UsageError Request
  | [] =>
    match options.file with
    | some file => .ok (.extract file options)
    | none => .error .missingFile
  | argument :: rest =>
    if let some notice := Notice.ofName? argument then .ok (.notice notice)
    else if let some option := ValueOption.ofName? argument then
      match rest with
      | [] => .error (.missingValue argument)
      | value :: rest =>
        if isValue value then
          match options.assign argument option value with
          | .ok options => readFrom options rest
          | .error error => .error error
        else .error (.missingValue argument)
    else
      match options.take argument with
      | .ok options => readFrom options rest
      | .error error => .error error

def read (arguments : List String) : Except UsageError Request :=
  readFrom {} arguments

/-- The configuration with what the options say in place of it. Search directories add up. -/
def override (config : Config) : Config :=
  { functions := if options.functions.isEmpty then config.functions else options.functions
    exportSymbols := if options.exportSymbols.isEmpty then config.exportSymbols else options.exportSymbols
    output := options.output.or config.output
    externalize := config.externalize && !options.noExternalization
    dumpPasses := config.dumpPasses || options.dumpPasses
    includePaths := config.includePaths ++ options.includePaths
    keepIncludes := config.keepIncludes || options.keepIncludes }

end Options

end Excerpt
