import Excerpt.Yaml.Basic

/-!
YAML text as characters with their places. A line ends at a newline, a carriage return, both together, U+0085, U+2028 or
U+2029. Lines, columns and the bytes of a line count from 0.
-/

namespace Excerpt.Yaml

/-- A character with the line and column in which it stands. -/
structure Placed where
  char : Char
  line : Nat
  column : Nat
  /-- Number of bytes before it in its line. -/
  offset : Nat
deriving DecidableEq, Repr, Inhabited

abbrev Source := List Placed

def isBreak (c : Char) : Bool :=
  c == '\n' || c.toNat == 0x2028 || c.toNat == 0x2029

def isBlank (c : Char) : Bool :=
  c == ' ' || c == '\t'

def isAllowed (c : Char) : Bool :=
  let code := c.toNat
  code == 9 || code == 10 || code == 13 || (0x20 ≤ code && code ≤ 0x7E) || code == 0x85 ||
    (0xA0 ≤ code && code ≤ 0xFFFD) || 0x10000 ≤ code

/-- Writes a newline for every line end but U+2028 and U+2029. -/
def unifyBreaks : List Char → List Char
  | '\r' :: '\n' :: rest => '\n' :: unifyBreaks rest
  | c :: rest => (if c = '\r' || c.toNat == 0x85 then '\n' else c) :: unifyBreaks rest
  | [] => []

/-- Places characters from a line, a column and the bytes before it on. -/
def placeFrom (line column offset : Nat) : List Char → Source
  | [] => []
  | c :: rest =>
    ⟨c, line, column, offset⟩ ::
      if isBreak c then placeFrom (line + 1) 0 0 rest else placeFrom line (column + 1) (offset + c.utf8Size) rest

namespace Source

/-- The placed characters of a text, all of which have to be allowed. -/
def ofText (text : List Char) : Except YamlError Source :=
  match text.find? (!isAllowed ·) with
  | some c => .error (.forbiddenCharacter c.toNat)
  | none => .ok (placeFrom 0 0 0 (unifyBreaks text))

def atGap (source : Source) : Bool :=
  source.head?.all fun placed => isBlank placed.char || isBreak placed.char

def atAny (characters : List Char) (source : Source) : Bool :=
  source.head?.any fun placed => characters.contains placed.char

/-- The mark of a document, three times the character at the start of a line, comes next. -/
def atMark (c : Char) (source : Source) : Bool :=
  source.head?.any (·.column == 0) && (source.take 3).map (·.char) == [c, c, c] && atGap (source.drop 3)

def atDocumentMark (source : Source) : Bool :=
  atMark '-' source || atMark '.' source

end Source

end Excerpt.Yaml
