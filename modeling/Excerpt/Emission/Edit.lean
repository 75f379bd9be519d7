import Excerpt.Closure.Basic

namespace Excerpt

structure Edit where
  span : Span
  text : List Char
deriving DecidableEq, Repr, Inhabited

namespace Edit

def atOrBefore (first second : Edit) : Bool :=
  first.span.file < second.span.file ||
    (first.span.file == second.span.file && first.span.start ≤ second.span.start)

/-- Leaves out an edit that equals the one before it. -/
def dropRepeats : List Edit → List Edit
  | first :: second :: rest =>
    if first = second then dropRepeats (second :: rest) else first :: dropRepeats (second :: rest)
  | edits => edits

/-- The text from `cursor` to the end of `span` with edits made; an edit that starts before the cursor is left out. -/
def applyFrom (program : Program) (span : Span) (cursor : Nat) : List Edit → List Char
  | [] => program.text ⟨span.file, cursor, span.stop⟩
  | edit :: rest =>
    if edit.span.start < cursor then applyFrom program span cursor rest
    else
      program.text ⟨span.file, cursor, edit.span.start⟩ ++ edit.text ++
        applyFrom program span edit.span.stop rest

def applyAll (program : Program) (span : Span) (edits : List Edit) : List Char :=
  applyFrom program span span.start (edits.filter (·.span.isWithin span))

end Edit

namespace Closure

variable (closure : Closure) (program : Program)

/-- The edit that a node calls for: a spelled use of a symbol behind a pointer. -/
def nodeEdit? (stmt : Stmt) : Option Edit :=
  match stmt.kind with
  | .declRef id true =>
    (closure.renameFor? program id).map fun rename => ⟨stmt.span, rename.useText.toList⟩
  | _ => none

/-- Function body or initializer in which uses are replaced. -/
def editedBody? (id : DeclId) : Option Stmt :=
  match (program.decl id).kind with
  | .function _ body _ => body
  | .var _ init => init
  | _ => none

def edits (ids : List DeclId) : List Edit :=
  let nodes := (ids.filterMap (editedBody? program)).reverse.flatMap program.reverseNodes
  Edit.dropRepeats (stableSort Edit.atOrBefore (nodes.filterMap (closure.nodeEdit? program)))

end Closure

end Excerpt
