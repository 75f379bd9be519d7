import Excerpt.Text.Blank
import Excerpt.Text.Bytes

/-!
Tokens of C text. At each place the first of these that fits is taken: a comment, a string, a character constant, a
number, an identifier, a punctuator. A quote or `/*` that is never closed is a punctuator.
-/

namespace Excerpt

inductive TokenKind where
  | identifier
  | number
  | char
  | str
  | punct
deriving DecidableEq, Repr

structure Token where
  kind : TokenKind
  text : String
  /-- Byte offset of the first character. -/
  start : Nat
deriving DecidableEq, Repr

namespace Token

def stop (token : Token) : Nat :=
  token.start + Text.byteLength token.text.toList

def isIdentifierStart (c : Char) : Bool :=
  c.isAlpha || c == '_'

def isIdentifierChar (c : Char) : Bool :=
  c.isAlphanum || c == '_'

def commentEnd? : List Char → Option Nat
  | '*' :: '/' :: _ => some 2
  | _ :: rest => (commentEnd? rest).map (· + 1)
  | [] => none

def comment? : List Char → Option Nat
  | '/' :: '*' :: rest => (commentEnd? rest).map (· + 2)
  | '/' :: '/' :: rest => some ((rest.takeWhile (· ≠ '\n')).length + 2)
  | _ => none

/-- Characters up to and including the closing quote. A backslash hides the character after it; a bare newline
ends the search. -/
def quoteEnd? (quote : Char) : List Char → Option Nat
  | '\\' :: _ :: rest => (quoteEnd? quote rest).map (· + 2)
  | c :: rest =>
    if c = quote then some 1
    else if c = '\\' ∨ c = '\n' then none
    else (quoteEnd? quote rest).map (· + 1)
  | [] => none

def quoted? (quote : Char) : List Char → Option Nat
  | c :: rest => if c = quote then (quoteEnd? quote rest).map (· + 1) else none
  | [] => none

/-- Characters of a number after its first digit: an exponent mark takes its sign along. -/
def numberTail : List Char → Nat
  | mark :: sign :: rest =>
    if (mark ∈ ['e', 'E', 'p', 'P']) ∧ (sign ∈ ['+', '-']) then numberTail rest + 2
    else if isIdentifierChar mark || mark == '.' then numberTail (sign :: rest) + 1
    else 0
  | [c] => if isIdentifierChar c || c == '.' then 1 else 0
  | [] => 0

def number? : List Char → Option Nat
  | '.' :: digit :: rest => if digit.isDigit then some (numberTail rest + 2) else none
  | digit :: rest => if digit.isDigit then some (numberTail rest + 1) else none
  | [] => none

def identifier? : List Char → Option Nat
  | c :: rest => if isIdentifierStart c then some ((rest.takeWhile isIdentifierChar).length + 1) else none
  | [] => none

/-- Punctuators of two characters; every other punctuator is one character. -/
def pairs : List (Char × Char) :=
  [('<', '<'), ('>', '>'), ('<', '='), ('>', '='), ('=', '='), ('!', '='), ('&', '&'), ('|', '|'), ('#', '#'),
    ('-', '>')]

def punctuator? : List Char → Option Nat
  | c :: d :: _ =>
    if (c, d) ∈ pairs then some 2
    else if Text.isBlank c || isIdentifierChar c then none
    else some 1
  | [c] => if Text.isBlank c || isIdentifierChar c then none else some 1
  | [] => none

inductive Lexeme where
  | comment (length : Nat)
  | token (kind : TokenKind) (length : Nat)
deriving DecidableEq, Repr

def Lexeme.length : Lexeme → Nat
  | .comment length => length
  | .token _ length => length

/-- The lexeme at the head of a text; a blank has none. -/
def lexeme? (text : List Char) : Option Lexeme :=
  (comment? text).map .comment
    <|> (quoted? '"' text).map (.token .str)
    <|> (quoted? '\'' text).map (.token .char)
    <|> (number? text).map (.token .number)
    <|> (identifier? text).map (.token .identifier)
    <|> (punctuator? text).map (.token .punct)

/-- Tokens of a text that begins at `offset`; the first `skip` characters belong to a lexeme already taken. -/
def scanFrom (skip offset : Nat) : List Char → List Token
  | [] => []
  | c :: rest =>
    let next := offset + c.utf8Size
    match skip with
    | skip + 1 => scanFrom skip next rest
    | 0 =>
      match lexeme? (c :: rest) with
      | none => scanFrom 0 next rest
      | some (.comment length) => scanFrom (length - 1) next rest
      | some (.token kind length) =>
        ⟨kind, String.ofList ((c :: rest).take length), offset⟩ :: scanFrom (length - 1) next rest

end Token

def tokenize (text : List Char) : List Token :=
  Token.scanFrom 0 0 text

def identifiers (text : List Char) : List (Nat × String) :=
  ((tokenize text).filter (·.kind = .identifier)).map fun token => (token.start, token.text)

/-- The next character at or after `offset` that is not blank is an opening parenthesis. -/
def followedByParen (text : List Char) (offset : Nat) : Bool :=
  match Text.dropBytes? offset text with
  | some rest => (Text.trimStart rest).head? == some '('
  | none => false

end Excerpt
