import Excerpt.Emission.Basic
import Excerpt.Program.Outermost

namespace Excerpt

structure Extraction where
  closure : Closure
  /-- Outermost declarations of the closure. -/
  kept : IdSet
  text : List Char
deriving DecidableEq, Repr, Inhabited

def Session.extract (session : Session) (functions : List String) : Except Error Extraction :=
  match session.closure functions with
  | .error error => .error error
  | .ok closure =>
    match session.program.outermost closure.decls with
    | .error error => .error error
    | .ok kept => .ok ⟨closure, kept, session.emit closure kept⟩

end Excerpt
