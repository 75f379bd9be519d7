import Excerpt.Yaml.Scalar

/-!
The tokens of a YAML document. A key is known only by the colon behind it, so the place of what may be one is kept until
the colon comes: on the same line, and at most 1024 bytes later.
-/

namespace Excerpt.Yaml

inductive Token where
  | documentStart
  | documentEnd
  | blockSequence
  | blockMapping
  /-- The end of a collection opened by indentation. -/
  | blockEnd
  | flowSequence
  | flowSequenceEnd
  | flowMapping
  | flowMappingEnd
  /-- A dash before an item. -/
  | blockEntry
  /-- A comma. -/
  | flowEntry
  | key
  | value
  | scalar (text : String) (quoted : Bool)
deriving DecidableEq, Repr, Inhabited

structure KeyStart where
  /-- Number of tokens before it. -/
  before : Nat
  line : Nat
  column : Nat
  /-- Number of bytes before it in its line. -/
  offset : Nat
  /-- It begins a line of an open block, so it has to be a key. -/
  required : Bool
deriving DecidableEq, Repr, Inhabited

/-- A colon at the place comes too late for the key. -/
def KeyStart.isStale (start : KeyStart) (placed : Placed) : Bool :=
  start.line < placed.line || start.offset + 1024 < placed.offset

structure Scan where
  /-- The tokens so far, the last first. -/
  tokens : List Token := []
  /-- Columns of the open blocks, the innermost first. -/
  blocks : List Nat := []
  /-- The key that may have begun inside the innermost brackets. -/
  start : Option KeyStart := none
  /-- Those outside them, one for each pair of brackets. -/
  outer : List (Option KeyStart) := []
  /-- A key may begin here. -/
  keyAllowed : Bool := true
deriving DecidableEq, Repr, Inhabited

namespace Scan

variable (scan : Scan)

def inFlow : Bool :=
  !scan.outer.isEmpty

def push (token : Token) : Scan :=
  { scan with tokens := token :: scan.tokens }

/-- Closes the blocks that are indented by more than a column. Inside brackets indentation does not count. -/
def closeBlocks (column : Nat) : Scan :=
  if scan.inFlow then scan
  else
    let closed := scan.blocks.takeWhile (column < ·)
    { scan with
      tokens := closed.map (fun _ => Token.blockEnd) ++ scan.tokens
      blocks := scan.blocks.drop closed.length }

def closeAll : Scan :=
  if scan.inFlow then scan
  else { scan with tokens := scan.blocks.map (fun _ => Token.blockEnd) ++ scan.tokens, blocks := [] }

def isNewBlock (column : Nat) : Bool :=
  !scan.inFlow && scan.blocks.head?.all (· < column)

def openBlock (column : Nat) (token : Token) : Scan :=
  if scan.isNewBlock column then { scan.push token with blocks := column :: scan.blocks } else scan

def dropStart : Except YamlError Scan :=
  if scan.start.any (·.required) then .error .missingColon else .ok { scan with start := none }

def dropStale (placed : Placed) : Except YamlError Scan :=
  if (scan.start :: scan.outer).any (·.any fun start => start.isStale placed && start.required) then
    .error .missingColon
  else
    let fresh := fun (start : Option KeyStart) => start.filter (!·.isStale placed)
    .ok { scan with start := fresh scan.start, outer := scan.outer.map fresh }

def saveStart (placed : Placed) : Except YamlError Scan :=
  if scan.keyAllowed then
    scan.dropStart.map fun scan =>
      { scan with
        start := some
          { before := scan.tokens.length
            line := placed.line
            column := placed.column
            offset := placed.offset
            required := !scan.inFlow && scan.blocks.head? == some placed.column } }
  else .ok scan

/-- Puts the mark of a key in front of what turned out to be one, and opens its mapping before it if need be. -/
def markKey (start : KeyStart) : Scan :=
  let since := scan.tokens.length - start.before
  let isNew := scan.isNewBlock start.column
  { scan with
    tokens := scan.tokens.take since ++ [.key] ++ (if isNew then [.blockMapping] else []) ++ scan.tokens.drop since
    blocks := if isNew then start.column :: scan.blocks else scan.blocks
    start := none
    keyAllowed := false }

def openFlow (placed : Placed) (token : Token) : Except YamlError Scan :=
  (scan.saveStart placed).map fun scan =>
    { scan.push token with start := none, outer := scan.start :: scan.outer, keyAllowed := true }

def closeFlow (token : Token) : Except YamlError Scan :=
  scan.dropStart.map fun scan =>
    { scan.push token with start := scan.outer.head?.join, outer := scan.outer.tail, keyAllowed := false }

/-- A dash, question mark or colon that begins an entry of a block. -/
def beginEntry (placed : Placed) (block : Token) : Except YamlError Scan :=
  if scan.inFlow then .ok scan
  else if scan.keyAllowed then .ok (scan.openBlock placed.column block)
  else .error (.misplaced placed.char)

def takeDash (placed : Placed) : Except YamlError Scan :=
  (scan.beginEntry placed .blockSequence).bind fun scan =>
    scan.dropStart.map fun scan => { scan.push .blockEntry with keyAllowed := true }

def takeQuestion (placed : Placed) : Except YamlError Scan :=
  (scan.beginEntry placed .blockMapping).bind fun scan =>
    scan.dropStart.map fun scan => { scan.push .key with keyAllowed := !scan.inFlow }

def takeColon (placed : Placed) : Except YamlError Scan :=
  match scan.start with
  | some start => .ok ((scan.markKey start).push .value)
  | none =>
    (scan.beginEntry placed .blockMapping).map fun scan => { scan.push .value with keyAllowed := !scan.inFlow }

def takeMark (token : Token) : Except YamlError Scan :=
  scan.closeAll.dropStart.map fun scan => { scan.push token with keyAllowed := false }

def takeScalar (placed : Placed) (text : String) (quoted : Bool) : Except YamlError Scan :=
  (scan.saveStart placed).map fun scan => { scan.push (.scalar text quoted) with keyAllowed := false }

/-- A plain scalar. After a line end a key may begin again. -/
def takePlain (placed : Placed) (rest : Source) : Except YamlError (Scan × Source) := do
  let least := (scan.blocks.head?.map (· + 1)).getD 0
  let (text, rest, folded) ← plain scan.inFlow least [] .empty (placed :: rest)
  let scan ← scan.takeScalar placed text false
  return (if folded then { scan with keyAllowed := true } else scan, rest)

def startsPlain (placed : Placed) (rest : Source) : Bool :=
  !"-?:,[]\x7b\x7d#&*!|>'\"%@`".toList.contains placed.char && !isBlank placed.char ||
    placed.char == '-' && !rest.atGap || !scan.inFlow && (placed.char == '?' || placed.char == ':') && !rest.atGap

def takeToken (placed : Placed) (rest : Source) : Except YamlError (Scan × Source) :=
  let entry := scan.inFlow || rest.atGap
  if Source.atMark '-' (placed :: rest) then (scan.takeMark .documentStart).map (·, rest.drop 2)
  else if Source.atMark '.' (placed :: rest) then (scan.takeMark .documentEnd).map (·, rest.drop 2)
  else
    match placed.char with
    | '[' => (scan.openFlow placed .flowSequence).map (·, rest)
    | '{' => (scan.openFlow placed .flowMapping).map (·, rest)
    | ']' => (scan.closeFlow .flowSequenceEnd).map (·, rest)
    | '}' => (scan.closeFlow .flowMappingEnd).map (·, rest)
    | ',' => scan.dropStart.map fun scan => ({ scan.push .flowEntry with keyAllowed := true }, rest)
    | '\'' => do
      let (text, rest) ← singleQuoted [] .empty rest
      return (← scan.takeScalar placed text true, rest)
    | '"' => do
      let (text, rest) ← doubleQuoted [] .empty 0 0 rest
      return (← scan.takeScalar placed text true, rest)
    | c =>
      if c = '-' && rest.atGap then (scan.takeDash placed).map (·, rest)
      else if c = '?' && entry then (scan.takeQuestion placed).map (·, rest)
      else if c = ':' && entry then (scan.takeColon placed).map (·, rest)
      else if scan.startsPlain placed rest then scan.takePlain placed rest
      else if ['&', '*', '!', '|', '>', '%'].contains c then .error (.unsupported c)
      else .error (.unexpectedCharacter c)

end Scan

/-- What follows blanks, line ends and comments, and whether a key may begin there: outside brackets, a new line allows
it. Where a key may begin outside brackets, a tab is no blank. -/
def skipBlanks (inFlow keyAllowed inComment : Bool) : Source → Bool × Source
  | [] => (keyAllowed, [])
  | placed :: rest =>
    if isBreak placed.char then skipBlanks inFlow (keyAllowed || !inFlow) false rest
    else if inComment then skipBlanks inFlow keyAllowed true rest
    else if placed.char = ' ' || placed.char = '\t' && (inFlow || !keyAllowed) ||
        placed.char.toNat == 0xFEFF && placed.column == 0 then
      skipBlanks inFlow keyAllowed false rest
    else if placed.char = '#' then skipBlanks inFlow keyAllowed true rest
    else (keyAllowed, placed :: rest)

/-- The tokens of a text behind those of `scan`, for at most `fuel` of them. -/
def scanFrom : Nat → Scan → Source → Except YamlError (List Token)
  | 0, _, _ => .error (.malformed "the document")
  | fuel + 1, scan, source => do
    match skipBlanks scan.inFlow scan.keyAllowed false source with
    | (_, []) => return (← scan.closeAll.dropStart).tokens.reverse
    | (keyAllowed, placed :: rest) =>
      let scan ← { scan with keyAllowed }.dropStale placed
      let (scan, rest) ← (scan.closeBlocks placed.column).takeToken placed rest
      scanFrom fuel scan rest

/-- The tokens of a text. Each takes a character. -/
def tokens (source : Source) : Except YamlError (List Token) :=
  scanFrom (source.length + 1) {} source

end Excerpt.Yaml
