import Excerpt.Yaml.Source

/-!
Scalars: text in quotes, and plain text. Between two words, blanks on one line stand for themselves; one line end is
read as a space, and of several all but the first are kept.
-/

namespace Excerpt.Yaml

/-- What stands between two words of a scalar, as far as it has been read. -/
inductive Gap where
  /-- Blanks on one line, the last first. -/
  | blanks (read : List Char)
  /-- The first line end, none if it was escaped, and the others, the last first. -/
  | lines (first : Option Char) (later : List Char)
deriving DecidableEq, Repr, Inhabited

namespace Gap

def empty : Gap :=
  .blanks []

def isEmpty : Gap → Bool
  | blanks [] => true
  | _ => false

def isFolded : Gap → Bool
  | blanks _ => false
  | lines _ _ => true

/-- Adds a blank or a line end. Blanks next to a line end do not count. -/
def add (gap : Gap) (c : Char) : Gap :=
  match gap with
  | blanks read => if isBreak c then lines (some c) [] else blanks (c :: read)
  | lines first later => if isBreak c then lines first (c :: later) else gap

def text : Gap → List Char
  | blanks read => read.reverse
  | lines none later => later.reverse
  | lines (some first) later =>
    if first = '\n' then if later.isEmpty then [' '] else later.reverse
    else first :: later.reverse

end Gap

abbrev ScalarReader := Source → Except YamlError (String × Source)

/-- The text read so far, last character first, with the gap behind it. -/
def closeGap (read : List Char) (gap : Gap) : List Char :=
  gap.text.reverse ++ read

/-- The text between single quotes; two of them stand for one. -/
def singleQuoted (read : List Char) (gap : Gap) : ScalarReader
  | [] => .error .unclosedQuote
  | placed :: rest =>
    if Source.atDocumentMark (placed :: rest) then .error .unclosedQuote
    else if isBlank placed.char || isBreak placed.char then singleQuoted read (gap.add placed.char) rest
    else if placed.char = '\'' then
      match rest with
      | second :: others =>
        if second.char = '\'' then singleQuoted ('\'' :: closeGap read gap) .empty others
        else .ok (String.ofList (closeGap read gap).reverse, rest)
      | [] => .ok (String.ofList (closeGap read gap).reverse, [])
    else singleQuoted (placed.char :: closeGap read gap) .empty rest

def escapeDigits : Char → Nat
  | 'x' => 2
  | 'u' => 4
  | 'U' => 8
  | _ => 0

def hexValue? (c : Char) : Option Nat :=
  if c.isDigit then some (c.toNat - 48)
  else if 'a' ≤ c ∧ c ≤ 'f' then some (c.toNat - 87)
  else if 'A' ≤ c ∧ c ≤ 'F' then some (c.toNat - 55)
  else none

def escaped? : Char → Option Char
  | '0' => some (Char.ofNat 0)
  | 'a' => some (Char.ofNat 7)
  | 'b' => some (Char.ofNat 8)
  | 't' => some '\t'
  | '\t' => some '\t'
  | 'n' => some '\n'
  | 'v' => some (Char.ofNat 11)
  | 'f' => some (Char.ofNat 12)
  | 'r' => some '\r'
  | 'e' => some (Char.ofNat 27)
  | ' ' => some ' '
  | '"' => some '"'
  | '/' => some '/'
  | '\\' => some '\\'
  | 'N' => some (Char.ofNat 0x85)
  | '_' => some (Char.ofNat 0xA0)
  | 'L' => some (Char.ofNat 0x2028)
  | 'P' => some (Char.ofNat 0x2029)
  | _ => none

/-- The text between double quotes. An escaped line end is left out. `pending` digits of the code `code` are still to
be read. -/
def doubleQuoted (read : List Char) (gap : Gap) (pending code : Nat) : ScalarReader
  | [] => .error .unclosedQuote
  | placed :: rest =>
    match pending with
    | pending + 1 =>
      match hexValue? placed.char with
      | none => .error .unknownEscape
      | some digit =>
        let code := code * 16 + digit
        if 0 < pending then doubleQuoted read .empty pending code rest
        else if code.isValidChar then doubleQuoted (Char.ofNat code :: read) .empty 0 0 rest
        else .error .unknownEscape
    | 0 =>
      if Source.atDocumentMark (placed :: rest) then .error .unclosedQuote
      else if isBlank placed.char || isBreak placed.char then doubleQuoted read (gap.add placed.char) 0 0 rest
      else if placed.char = '"' then .ok (String.ofList (closeGap read gap).reverse, rest)
      else if placed.char = '\\' then
        match rest with
        | [] => .error .unclosedQuote
        | escape :: rest =>
          if isBreak escape.char then doubleQuoted (closeGap read gap) (.lines none []) 0 0 rest
          else
            match escaped? escape.char with
            | some c => doubleQuoted (c :: closeGap read gap) .empty 0 0 rest
            | none =>
              if escapeDigits escape.char = 0 then .error .unknownEscape
              else doubleQuoted (closeGap read gap) .empty (escapeDigits escape.char) 0 rest
      else doubleQuoted (placed.char :: closeGap read gap) .empty 0 0 rest

def isFlowIndicator (c : Char) : Bool :=
  [',', '[', ']', '{', '}'].contains c

/-- A plain scalar is over before the character: at the mark of a document, a comment, or a line that is indented by
less than `least`, all of which come behind a gap; and at the colon of a key or an indicator of the brackets around
it. -/
def endsPlain (inFlow : Bool) (least : Nat) (gap : Gap) (placed : Placed) (rest : Source) : Bool :=
  (!gap.isEmpty && (Source.atDocumentMark (placed :: rest) || placed.char == '#' ||
      (!inFlow && placed.column < least))) ||
    (placed.char == ':' && rest.atGap) || (inFlow && isFlowIndicator placed.char)

/-- A plain scalar, what follows it, and whether lines ended in between. Inside brackets, a colon does not touch an
indicator behind it. -/
def plain (inFlow : Bool) (least : Nat) (read : List Char) (gap : Gap) :
    Source → Except YamlError (String × Source × Bool)
  | [] => .ok (String.ofList read.reverse, [], gap.isFolded)
  | placed :: rest =>
    if isBlank placed.char || isBreak placed.char then
      if gap.isFolded && placed.char = '\t' && placed.column < least then .error .tabIndentation
      else plain inFlow least read (gap.add placed.char) rest
    else if endsPlain inFlow least gap placed rest then
      .ok (String.ofList read.reverse, placed :: rest, gap.isFolded)
    else if inFlow && placed.char = ':' && Source.atAny ['?', ',', '[', ']', '{', '}'] rest then
      .error (.unexpectedCharacter ':')
    else plain inFlow least (placed.char :: closeGap read gap) .empty rest

end Excerpt.Yaml
