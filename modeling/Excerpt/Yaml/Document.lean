import Excerpt.Yaml.Token

/-!
The value of a YAML document from its tokens. A sequence may stand at the indentation of the key before it; it has
dashes but no block of its own.
-/

namespace Excerpt.Yaml

abbrev Parsed := Except YamlError (Yaml × List Token)

def follows (next : List Token) (tokens : List Token) : Bool :=
  tokens.head?.any next.contains

mutual

/-- A value. `block` allows a block, and `indentless` a sequence without one. -/
def node (block indentless : Bool) : Nat → List Token → Parsed
  | 0, _ => .error (.malformed "a value")
  | fuel + 1, tokens =>
    match tokens with
    | .scalar text quoted :: rest => .ok (.scalar text quoted, rest)
    | .flowSequence :: rest => flowItems true fuel [] rest
    | .flowMapping :: rest => flowEntries true fuel [] rest
    | .blockSequence :: rest => if block then blockItems fuel [] rest else .error (.malformed "a value")
    | .blockMapping :: rest => if block then blockEntries fuel [] rest else .error (.malformed "a value")
    | .blockEntry :: _ => if indentless then indentlessItems fuel [] tokens else .error (.malformed "a value")
    | _ => .error (.malformed "a value")

/-- A value that is missing before one of the tokens `before`. -/
def optionalNode (block indentless : Bool) (before : List Token) : Nat → List Token → Parsed
  | 0, _ => .error (.malformed "a value")
  | fuel + 1, tokens => if follows before tokens then .ok (absent, tokens) else node block indentless fuel tokens

/-- Items of a block; `items` are those before, the last first. -/
def blockItems : Nat → List Yaml → List Token → Parsed
  | 0, _, _ => .error (.malformed "a sequence")
  | fuel + 1, items, tokens =>
    match tokens with
    | .blockEntry :: rest =>
      match optionalNode true false [.blockEntry, .blockEnd] fuel rest with
      | .ok (item, rest) => blockItems fuel (item :: items) rest
      | .error error => .error error
    | .blockEnd :: rest => .ok (.sequence items.reverse, rest)
    | _ => .error (.malformed "a sequence")

def indentlessItems : Nat → List Yaml → List Token → Parsed
  | 0, _, _ => .error (.malformed "a sequence")
  | fuel + 1, items, tokens =>
    match tokens with
    | .blockEntry :: rest =>
      match optionalNode true false [.blockEntry, .key, .value, .blockEnd] fuel rest with
      | .ok (item, rest) => indentlessItems fuel (item :: items) rest
      | .error error => .error error
    | _ => .ok (.sequence items.reverse, tokens)

def blockEntries : Nat → List (Yaml × Yaml) → List Token → Parsed
  | 0, _, _ => .error (.malformed "a mapping")
  | fuel + 1, entries, tokens =>
    match tokens with
    | .key :: rest =>
      match optionalNode true true [.key, .value, .blockEnd] fuel rest with
      | .error error => .error error
      | .ok (key, rest) =>
        match entryValue true [.key, .value, .blockEnd] fuel rest with
        | .ok (value, rest) => blockEntries fuel ((key, value) :: entries) rest
        | .error error => .error error
    | .blockEnd :: rest => .ok (.mapping entries.reverse, rest)
    | _ => .error (.malformed "a mapping")

def entryValue (block : Bool) (before : List Token) : Nat → List Token → Parsed
  | 0, _ => .error (.malformed "a value")
  | fuel + 1, tokens =>
    match tokens with
    | .value :: rest => optionalNode block block before fuel rest
    | _ => .ok (absent, tokens)

/-- Items in brackets; a comma stands before each but the first. An item may be a single entry. -/
def flowItems (first : Bool) : Nat → List Yaml → List Token → Parsed
  | 0, _, _ => .error (.malformed "a sequence")
  | fuel + 1, items, tokens =>
    match tokens with
    | .flowSequenceEnd :: rest => .ok (.sequence items.reverse, rest)
    | .flowEntry :: rest => if first then .error (.malformed "a sequence") else flowItem fuel items rest
    | _ => if first then flowItem fuel items tokens else .error (.malformed "a sequence")

/-- An item in brackets, or the closing bracket. A missing key takes the token behind it along. -/
def flowItem : Nat → List Yaml → List Token → Parsed
  | 0, _, _ => .error (.malformed "a sequence")
  | fuel + 1, items, tokens =>
    match tokens with
    | .flowSequenceEnd :: rest => .ok (.sequence items.reverse, rest)
    | .key :: rest =>
      let key :=
        if follows [.value, .flowEntry, .flowSequenceEnd] rest then .ok (absent, rest.tail)
        else node false false fuel rest
      match key with
      | .error error => .error error
      | .ok (key, rest) =>
        match entryValue false [.flowEntry, .flowSequenceEnd] fuel rest with
        | .ok (value, rest) => flowItems false fuel (.mapping [(key, value)] :: items) rest
        | .error error => .error error
    | _ =>
      match node false false fuel tokens with
      | .ok (item, rest) => flowItems false fuel (item :: items) rest
      | .error error => .error error

def flowEntries (first : Bool) : Nat → List (Yaml × Yaml) → List Token → Parsed
  | 0, _, _ => .error (.malformed "a mapping")
  | fuel + 1, entries, tokens =>
    match tokens with
    | .flowMappingEnd :: rest => .ok (.mapping entries.reverse, rest)
    | .flowEntry :: rest => if first then .error (.malformed "a mapping") else flowPair fuel entries rest
    | _ => if first then flowPair fuel entries tokens else .error (.malformed "a mapping")

/-- An entry in braces, or the closing brace. An entry without a colon has no value. -/
def flowPair : Nat → List (Yaml × Yaml) → List Token → Parsed
  | 0, _, _ => .error (.malformed "a mapping")
  | fuel + 1, entries, tokens =>
    match tokens with
    | .flowMappingEnd :: rest => .ok (.mapping entries.reverse, rest)
    | .key :: rest =>
      match optionalNode false false [.value, .flowEntry, .flowMappingEnd] fuel rest with
      | .error error => .error error
      | .ok (key, rest) =>
        match entryValue false [.flowEntry, .flowMappingEnd] fuel rest with
        | .ok (value, rest) => flowEntries false fuel ((key, value) :: entries) rest
        | .error error => .error error
    | _ =>
      match node false false fuel tokens with
      | .ok (key, rest) => flowEntries false fuel ((key, absent) :: entries) rest
      | .error error => .error error

end

/-- The value of one document, and the tokens behind it. After the mark of its start it may be missing. -/
def document (fuel : Nat) : List Token → Parsed
  | [] => .ok (absent, [])
  | .documentStart :: rest =>
    if rest.isEmpty || follows [.documentStart, .documentEnd] rest then .ok (absent, rest)
    else node true false fuel rest
  | tokens => node true false fuel tokens

/-- The value of the one document that the tokens make up. A token is reached by at most four nested calls. -/
def ofTokens (tokens : List Token) : Except YamlError Yaml :=
  match document (4 * (tokens.length + 1)) tokens with
  | .error error => .error error
  | .ok (value, rest) =>
    match rest.dropWhile (· == .documentEnd) with
    | [] => .ok value
    | .documentStart :: _ => .error .severalDocuments
    | _ => .error (.malformed "the document")

def parse (text : List Char) : Except YamlError Yaml :=
  ((Source.ofText text).bind tokens).bind ofTokens

end Excerpt.Yaml
