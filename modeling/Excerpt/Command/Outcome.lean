import Excerpt.Command.Options
import Excerpt.Config.Decode
import Excerpt.Draft.File
import Excerpt.Report.Basic

/-!
What a run of the command leaves behind. What was written before a failure stays.
-/

namespace Excerpt

/-- A failure is told by its text and then the texts of what caused it. -/
abbrev Failure := List String

def Error.failure (error : Error) : Failure :=
  match error with
  | .io cause => [error.message, cause]
  | _ => [error.message]

namespace Failure

def indentLines (indent text : String) : String :=
  String.ofList (text.toList.flatMap fun c => if c = '\n' then c :: indent.toList else [c])

def renderCauses : List String → String
  | [] => ""
  | [cause] => "\n\nCaused by:\n    " ++ indentLines "    " cause
  | causes =>
    "\n\nCaused by:" ++ String.join (causes.zipIdx.map fun (cause, index) =>
      "\n    " ++ toString index ++ ": " ++ indentLines "       " cause)

def render : Failure → String
  | [] => ""
  | text :: causes => "Error: " ++ text ++ renderCauses causes ++ "\n"

end Failure

structure Outcome where
  status : Nat := 0
  printed : String := ""
  /-- Text for standard error. -/
  messages : String := ""
  /-- Files written, with their text. -/
  written : List (Place × List Char) := []
deriving DecidableEq, Repr, Inhabited

namespace Outcome

def usage : String :=
  "Usage: cextract [OPTIONS] <FILE>\n"

def help : String :=
  "Extract self-contained C code for live patches\n\n" ++ usage ++
  "\nArguments:\n" ++
  "  <FILE>  C source file\n" ++
  "\nOptions:\n" ++
  "  -f, --functions <FUNCTIONS>            Functions to extract (comma separated)\n" ++
  "      --export-symbols <EXPORT_SYMBOLS>  " ++
    "Symbols to reach through `klp_` pointers even with external linkage\n" ++
  "  -o, --output <OUTPUT>                  Output file (default: stdout)\n" ++
  "      --no-externalization               Copy static callees instead of externalizing them\n" ++
  "      --dump-passes                      Write the closure report as JSON\n" ++
  "      --keep-includes                    Keep `#include` lines of local headers\n" ++
  "  -I, --include <DIR>                    Header search directory (repeatable)\n" ++
  "      --config <PATH>                    YAML configuration file; command-line options override it\n" ++
  "  -h, --help                             Print help\n" ++
  "  -V, --version                          Print version\n"

def ofNotice : Notice → Outcome
  | .help => { printed := help }
  | .version => { printed := "cextract 0.1.0\n" }

def ofUsageError (error : UsageError) : Outcome :=
  { status := 2
    messages := "error: " ++ error.message ++ "\n\n" ++ usage ++ "\nFor more information, try '--help'.\n" }

def fail (outcome : Outcome) (failure : Failure) : Outcome :=
  { outcome with status := 1, messages := outcome.messages ++ failure.render }

def write (outcome : Outcome) (files : FileSystem) (path : String) (text : List Char) : Except Outcome Outcome :=
  match files.writePlace path with
  | .ok place => .ok { outcome with written := outcome.written ++ [(place, text)] }
  | .error error => .error (outcome.fail ["failed to write " ++ path, error.message])

def reportPath (output : String) : String :=
  output ++ ".closure.json"

def deliver (files : FileSystem) (output : Option String) (text : List Char) : Except Outcome Outcome :=
  match output with
  | some path => write {} files path text
  | none => .ok { printed := String.ofList text }

/-- Writes the report beside the output file or prints it as a message. -/
def deliverReport (outcome : Outcome) (files : FileSystem) (output : Option String) (report : String) :
    Except Outcome Outcome :=
  match output with
  | some path => outcome.write files (reportPath path) report.toList
  | none => .ok { outcome with messages := outcome.messages ++ report ++ "\n" }

/-- The configuration of a run: that of the file, if one is named, with the options in place of it. -/
def loadConfig (files : FileSystem) (options : Options) : Except Failure Config :=
  let base : Except Failure Config := match options.config with
    | none => .ok {}
    | some path =>
      let loaded := match files.read path with
        | .ok document => Config.ofYaml document.text
        | .error error => .error (.io error.message)
      loaded.mapError fun error => ("failed to load " ++ path) :: error.failure
  match base with
  | .error failure => .error failure
  | .ok config => (options.override config).validate.mapError Error.failure

def extract (files : FileSystem) (file : String) (config : Config) : Except Outcome Outcome := do
  let program ← (Program.ofFile files (SearchPath.ofList config.includePaths) file).mapError fun error =>
    fail {} (("failed to parse " ++ file) :: error.failure)
  let session := config.session program
  let extraction ← (session.extract config.functions).mapError fun error => fail {} error.failure
  let outcome ← deliver files config.output extraction.text
  if config.dumpPasses then outcome.deliverReport files config.output (session.report extraction).render
  else return outcome

def settle : Except Outcome Outcome → Outcome
  | .ok outcome => outcome
  | .error outcome => outcome

def run (files : FileSystem) (arguments : List String) : Outcome :=
  match Options.read (Arguments.ofOptions arguments).known with
  | .error error => ofUsageError error
  | .ok (.notice notice) => ofNotice notice
  | .ok (.extract file options) =>
    match loadConfig files options with
    | .error failure => fail {} failure
    | .ok config => settle (extract files file config)

/-- The files that the run created or changed, each with the pieces of a path to it. -/
def changes (outcome : Outcome) (files : FileSystem) : List (List String × List Char) :=
  let changed := outcome.written.filter fun (place, text) =>
    match files.content? place with
    | some (.document document) => document.text != text
    | _ => true
  changed.map fun (place, text) => (files.piecesTo place, text)

end Outcome

end Excerpt
