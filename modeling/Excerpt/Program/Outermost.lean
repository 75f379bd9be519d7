import Excerpt.Data.Sorted
import Excerpt.Error
import Excerpt.Program.Basic

/-!
Outermost declarations. Printing a declaration prints those inside it. Spans that overlap without nesting cannot be
printed and are an error.
-/

namespace Excerpt.Program

variable (program : Program)

/-- Order by file, then start, then the longer span, then number. -/
def spanOrder (first second : DeclId) : Bool :=
  let a := (program.decl first).span
  let b := (program.decl second).span
  if a.file ≠ b.file then a.file < b.file
  else if a.start ≠ b.start then a.start < b.start
  else if a.stop ≠ b.stop then b.stop < a.stop
  else first ≤ second

/-- Goes through declarations in span order and keeps those that `outer`, the last one kept, does not contain. -/
def sweep (outer : Option DeclId) : List DeclId → Except Error (List DeclId)
  | [] => .ok []
  | id :: rest =>
    match outer with
    | none => (sweep (some id) rest).map (id :: ·)
    | some kept =>
      let span := (program.decl id).span
      let outerSpan := (program.decl kept).span
      if span.isWithin outerSpan then sweep outer rest
      else if span.overlaps outerSpan then
        .error (.redundantDeclConflict (program.location outerSpan) (program.location span))
      else (sweep (some id) rest).map (id :: ·)

def outermost (decls : IdSet) : Except Error IdSet :=
  (program.sweep none (stableSort program.spanOrder decls)).map IdSet.ofList

end Excerpt.Program
