namespace Excerpt.Text

/-- Offsets just past each newline of a text that begins at `offset`. -/
def lineStartsFrom (offset : Nat) : List Char → List Nat
  | [] => []
  | c :: rest =>
    let next := offset + c.utf8Size
    if c = '\n' then next :: lineStartsFrom next rest else lineStartsFrom next rest

def lineStarts (text : List Char) : List Nat :=
  0 :: lineStartsFrom 0 text

/-- Line, counted from 1, and column in bytes, counted from 0. An offset past the end lies on the last line. -/
def lineColumn (text : List Char) (offset : Nat) : Nat × Nat :=
  let reached := (lineStarts text).takeWhile (· ≤ offset)
  (max 1 reached.length, offset - reached.getLastD 0)

/-- Lines of a text without their ends; `line` is the line read so far, last character first. -/
def linesFrom (line : List Char) : List Char → List (List Char)
  | [] => [line.reverse]
  | c :: rest => if c = '\n' then line.reverse :: linesFrom [] rest else linesFrom (c :: line) rest

def lines (text : List Char) : List (List Char) :=
  linesFrom [] text

/-- Joins the lines of a directive: a backslash at the end of a line becomes a space with its line end. -/
def spliceLines : List Char → List Char
  | '\\' :: '\r' :: '\n' :: rest => ' ' :: spliceLines rest
  | '\\' :: '\n' :: rest => ' ' :: spliceLines rest
  | c :: rest => c :: spliceLines rest
  | [] => []

end Excerpt.Text
