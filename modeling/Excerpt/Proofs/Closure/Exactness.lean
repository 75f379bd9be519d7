import Excerpt.Config.Basic
import Excerpt.Proofs.Closure.Rules
import Excerpt.Proofs.Draft.Written

namespace Excerpt

/-- The closure of a request obeys the rules, and everything in it is forced by them. -/
theorem Session.closure_isLeast {session : Session} {requested : List String} {closure : Closure}
    (read : session.IsRead) (found : session.closure requested = .ok closure) :
    IsLeast { sets : Set DeclId × Set MacroId | session.Obeys requested sets.1 sets.2 }
      ({ id | id ∈ closure.decls }, { id | id ∈ closure.macros }) := by
  constructor
  · exact closure_obeys read.consistent found
  · intro sets obeys
    exact closure_subset read.consistent found obeys

def constantBehindMacro : Session :=
  ({} : Config).session (.ofDocument ⟨[], []⟩ ⟨[]⟩ "unit.c"
    (Written.document
      [("", .enumeration "E" "K"), ("", .token "';" ";"), ("\n", .define "M" "K"),
        ("", .function "f" (.reference "M"))]))

set_option maxRecDepth 10000 in
/-- The enumeration is reached only through the replacement of the macro. -/
theorem Session.closure_isLeast_constantBehindMacro :
    IsLeast { sets : Set DeclId × Set MacroId | constantBehindMacro.Obeys ["f"] sets.1 sets.2 }
      ({ id | id ∈ [0, 1, 2] }, { id | id ∈ [0] }) := by
  have found : constantBehindMacro.closure ["f"] = .ok
      { roots := [2], decls := [0, 1, 2], macros := [0], needsUndef := [], renames := [], passSizes := [3] } := by
    decide +kernel
  exact closure_isLeast ⟨_, _, _, _, rfl⟩ found

end Excerpt
