namespace Excerpt

abbrev FileId := Nat

/-- The bytes of a file from `start` up to `stop`. -/
structure Span where
  file : FileId
  start : Nat
  stop : Nat
deriving DecidableEq, Repr, Inhabited

namespace Span

/-- Every byte of `inner` belongs to `outer`; equal bounds count. -/
def isWithin (inner outer : Span) : Bool :=
  inner.file == outer.file && outer.start ≤ inner.start && inner.stop ≤ outer.stop

def overlaps (first second : Span) : Bool :=
  first.file == second.file && first.start < second.stop && second.start < first.stop

def length (span : Span) : Nat :=
  span.stop - span.start

def isEmpty (span : Span) : Bool :=
  span.start == span.stop

end Span

/-- Position in the order of the flattened unit: the item that holds it, then the byte offset inside the item's file.
The items of an included file lie between the directive that includes it and the item after that directive. -/
structure SourcePos where
  seq : Nat
  offset : Nat
deriving DecidableEq, Repr, Inhabited

namespace SourcePos

def before (first second : SourcePos) : Bool :=
  first.seq < second.seq || (first.seq == second.seq && first.offset < second.offset)

def atOrBefore (first second : SourcePos) : Bool :=
  first.seq < second.seq || (first.seq == second.seq && first.offset ≤ second.offset)

end SourcePos

/-- A range of lines and columns in a named file. Lines count from 1, columns from 0. -/
structure Location where
  file : String
  line : Nat
  column : Nat
  endLine : Nat
  endColumn : Nat
deriving DecidableEq, Repr, Inhabited

namespace Location

def point (file : String) (line column : Nat) : Location :=
  ⟨file, line, column, line, column⟩

def render (location : Location) : String :=
  s!"{location.file}:{location.line}:{location.column}"

end Location

end Excerpt
