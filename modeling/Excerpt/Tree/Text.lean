import Excerpt.Text.Blank
import Excerpt.Text.Lines
import Excerpt.Tree.Node

/-!
Concrete trees as text: a line for each node in pre-order, with its depth, its byte range and its label.
-/

namespace Excerpt.Node

def natural? (digits : List Char) : Option Nat :=
  if digits.isEmpty then none
  else digits.foldlM (fun value c => if c.isDigit then some (10 * value + (c.toNat - 48)) else none) 0

/-- Reads `depth start stop label`. -/
def Line.ofText? (text : List Char) : Option Line :=
  match Text.words text with
  | depth :: start :: stop :: label => do
    let depth ← natural? depth
    let start ← natural? start
    let stop ← natural? stop
    return ⟨depth, Label.ofText (label.intersperse [' ']).flatten, ⟨start, stop⟩⟩
  | _ => none

/-- Reads a tree. Lines that are not nodes are passed over. -/
def ofText? (text : List Char) : Option Node :=
  ofLines ((Text.lines text).filterMap Line.ofText?)

end Excerpt.Node
