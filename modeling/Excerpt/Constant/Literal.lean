import Excerpt.Text.Blank

namespace Excerpt.Constant

def digitValue? (c : Char) : Option Nat :=
  if c.isDigit then some (c.toNat - '0'.toNat)
  else if 'a' ≤ c ∧ c ≤ 'f' then some (c.toNat - 'a'.toNat + 10)
  else if 'A' ≤ c ∧ c ≤ 'F' then some (c.toNat - 'A'.toNat + 10)
  else none

/-- Reads digits after the value `value` of those already read. -/
def digitsFrom? (radix value : Nat) : List Char → Option Nat
  | [] => some value
  | c :: rest =>
    match digitValue? c with
    | some digit => if digit < radix then digitsFrom? radix (value * radix + digit) rest else none
    | none => none

/-- Reads a number that has a digit and fits 64 bits; one leading plus sign is allowed. -/
def natural? (radix : Nat) (text : List Char) : Option Nat :=
  let digits := match text with
    | '+' :: rest => rest
    | _ => text
  if digits.isEmpty then none
  else (digitsFrom? radix 0 digits).filter (· < UInt64.size)

def splitRadix : List Char → Nat × List Char
  | '0' :: 'x' :: rest => (16, rest)
  | '0' :: 'X' :: rest => (16, rest)
  | '0' :: 'b' :: rest => (2, rest)
  | '0' :: 'B' :: rest => (2, rest)
  | '0' :: c :: rest => (8, c :: rest)
  | text => (10, text)

/-- Value of an integer literal: hexadecimal, binary, octal or decimal, with any run of `u` and `l` behind it and
digit separators left out. A value of 2^63 or more wraps to a negative one. -/
def intLiteral? (text : List Char) : Option Int64 :=
  let (radix, digits) := splitRadix (Text.dropEndWhile (· ∈ ['u', 'U', 'l', 'L']) text)
  (natural? radix (digits.filter (· ≠ '\''))).map Int64.ofNat

def escapeValue? : Char → Option Nat
  | 'n' => some 10
  | 't' => some 9
  | 'r' => some 13
  | '0' => some 0
  | '\\' => some 92
  | '\'' => some 39
  | '"' => some 34
  | _ => none

/-- Value of the text between the quotes of a character literal: one character, or a simple escape. -/
def charValue? : List Char → Option Nat
  | ['\\', c] => escapeValue? c
  | ['\\'] => none
  | [c] => some c.toNat
  | _ => none

def charLiteral? : List Char → Option Int64
  | '\'' :: rest =>
    if rest.getLast? = some '\'' then (charValue? rest.dropLast).map Int64.ofNat else none
  | _ => none

end Excerpt.Constant
