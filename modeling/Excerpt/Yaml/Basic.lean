namespace Excerpt

inductive Yaml where
  /-- A scalar is quoted or plain; a missing value is a plain scalar without text. -/
  | scalar (text : String) (quoted : Bool)
  | sequence (items : List Yaml)
  | mapping (entries : List (Yaml × Yaml))
deriving Repr, Inhabited

def Yaml.absent : Yaml :=
  .scalar "" false

inductive YamlError where
  | forbiddenCharacter (code : Nat)
  | tabIndentation
  /-- Anchors, aliases, tags, directives and block scalars are not read. -/
  | unsupported (indicator : Char)
  | unexpectedCharacter (c : Char)
  | unknownEscape
  | unclosedQuote
  /-- A line of a block mapping has no colon behind its key. -/
  | missingColon
  /-- An indicator stands where no entry can begin. -/
  | misplaced (indicator : Char)
  /-- The parts of a collection do not follow each other as they should. -/
  | malformed (collection : String)
  | severalDocuments
  /-- A value of another type is expected. -/
  | wrongType (expected : String)
  | duplicateField (name : String)
deriving DecidableEq, Repr

def YamlError.message : YamlError → String
  | forbiddenCharacter code => "character " ++ toString code ++ " is not allowed"
  | tabIndentation => "a tab cannot indent a line"
  | unsupported indicator => "'" ++ indicator.toString ++ "' is not supported here"
  | unexpectedCharacter c => "did not expect '" ++ c.toString ++ "'"
  | unknownEscape => "unknown escape"
  | unclosedQuote => "a quote is not closed"
  | missingColon => "did not find ':' behind a key"
  | misplaced indicator => "'" ++ indicator.toString ++ "' is not allowed in this place"
  | malformed collection => "did not find the next part of " ++ collection
  | severalDocuments => "there is more than one document"
  | wrongType expected => "expected " ++ expected
  | duplicateField name => "duplicate field " ++ name

end Excerpt
