import Excerpt.Span

namespace Excerpt

/-- Why a requested name cannot be extracted. -/
inductive UnresolvedReason where
  | notFound
  | notAFunction
  | ambiguous
deriving DecidableEq, Repr

def UnresolvedReason.message : UnresolvedReason → String
  | notFound => "not found"
  | notAFunction => "not a function"
  | ambiguous => "ambiguous"

inductive Error where
  | io (cause : String)
  | parse (cause : String)
  | config (cause : String)
  | fileNotFound (path : String)
  /-- A requested name does not stand for exactly one function of the unit in `file`. -/
  | unresolvedSymbol (name : String) (reason : UnresolvedReason) (file : String) (candidates : List Location)
  | noVisibleDefinition (name : String) (location : Location)
  | malformedConstantFold (value : Int64) (location : Location)
  /-- Two declarations overlap and neither contains the other. -/
  | redundantDeclConflict (first second : Location)
  | other (cause : String)
deriving DecidableEq, Repr

namespace Error

def renderCandidates : List Location → String
  | [] => ""
  | candidates => "; candidates: " ++ String.intercalate ", " (candidates.map (·.render))

def message : Error → String
  | io cause => "IO error: " ++ cause
  | parse cause => "Parse error: " ++ cause
  | config cause => "Configuration error: " ++ cause
  | fileNotFound path => "File not found: " ++ path
  | unresolvedSymbol name reason file candidates =>
    "cannot extract `" ++ name ++ "` (" ++ reason.message ++ ") in " ++ file ++ renderCandidates candidates
  | noVisibleDefinition name location =>
    "no visible definition of macro `" ++ name ++ "` at " ++ location.render
  | malformedConstantFold value location =>
    "no enum constant folds to " ++ toString value.toInt ++ " at " ++ location.render
  | redundantDeclConflict first second =>
    "declarations at " ++ first.render ++ " and " ++ second.render ++ " partially overlap"
  | other cause => cause

/-- Errors that stop nothing: the search that met them goes on. -/
def isRecoverable : Error → Bool
  | noVisibleDefinition .. => true
  | malformedConstantFold .. => true
  | _ => false

end Error

end Excerpt
