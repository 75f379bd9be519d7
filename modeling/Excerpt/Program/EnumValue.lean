import Excerpt.Program.Basic

namespace Excerpt.Program

variable (program : Program)

def enumValues : List ((Int64 × Option DeclId) × DeclId) :=
  (List.range program.decls.size).filterMap fun id =>
    match (program.decl id).kind with
    | .enumConstant value _ _ => some ((value, (program.decl id).context), id)
    | _ => none

/-- The last constant with this value in exactly this context. -/
def enumConstantIn? (value : Int64) (context : Option DeclId) : Option DeclId :=
  program.enumValues.reverse.lookup (value, context)

/-- The constant that a value stands for in a context; file scope is searched last. -/
def enumConstant? (value : Int64) (context : Option DeclId) : Option DeclId :=
  (program.enumConstantIn? value context).or (program.enumConstantIn? value none)

def enumValueCount : Nat :=
  (program.enumValues.map (·.1)).eraseDups.length

end Excerpt.Program
