/-!
Indented JSON text. Each level of nesting indents by two spaces, and characters outside ASCII stand for themselves.
-/

namespace Excerpt.Json

/-- Text of a value, given the number of spaces before the line that it starts on. -/
abbrev Layout := Nat → String

def hexDigit (n : Nat) : Char :=
  (Nat.toDigits 16 n).headD '0'

def escapeChar (c : Char) : List Char :=
  if c = '"' then ['\\', '"']
  else if c = '\\' then ['\\', '\\']
  else if c = '\n' then ['\\', 'n']
  else if c = '\r' then ['\\', 'r']
  else if c = '\t' then ['\\', 't']
  else if c.toNat = 8 then ['\\', 'b']
  else if c.toNat = 12 then ['\\', 'f']
  else if c.toNat < 32 then ['\\', 'u', '0', '0', hexDigit (c.toNat / 16), hexDigit (c.toNat % 16)]
  else [c]

def quote (text : String) : String :=
  "\"" ++ String.ofList (text.toList.flatMap escapeChar) ++ "\""

def string (text : String) : Layout :=
  fun _ => quote text

def number (n : Nat) : Layout :=
  fun _ => toString n

def bool (b : Bool) : Layout :=
  fun _ => if b then "true" else "false"

def null : Layout :=
  fun _ => "null"

def spaces (n : Nat) : String :=
  String.ofList (List.replicate n ' ')

/-- Lines between an opening and a closing bracket, each with a comma but the last. -/
def block (opening closing : String) (indent : Nat) : List String → String
  | [] => opening ++ closing
  | lines =>
    opening ++ "\n" ++ String.intercalate ",\n" (lines.map (spaces (indent + 2) ++ ·)) ++ "\n" ++ spaces indent ++
      closing

def array (values : List Layout) : Layout :=
  fun indent => block "[" "]" indent (values.map fun value => value (indent + 2))

def object (fields : List (String × Layout)) : Layout :=
  fun indent => block "\x7b" "\x7d" indent (fields.map fun field => quote field.1 ++ ": " ++ field.2 (indent + 2))

end Excerpt.Json
