import Excerpt.Text.Blank
import Excerpt.Text.Word

/-!
Removing keywords from declaration specifiers. A keyword counts only as a whole word; the blanks behind it go too.
-/

namespace Excerpt.Text

/-- The keyword that begins here and is not continued by a word character. -/
def keywordAt? (keywords : List (List Char)) (text : List Char) : Option (List Char) :=
  keywords.find? fun keyword =>
    keyword.isPrefixOf text && isWordBoundary keyword.getLast? (text.drop keyword.length).head?

/-- Copies a text without the keywords in it. The first `skip` characters are dropped; `before` is the character in
front of the text. -/
def removeFrom (keywords : List (List Char)) (skip : Nat) (before : Option Char) : List Char → List Char
  | [] => []
  | c :: rest =>
    match skip with
    | skip + 1 => removeFrom keywords skip (some c) rest
    | 0 =>
      let found :=
        if isWordBoundary before (some c) then keywordAt? keywords (c :: rest) else none
      match found with
      | some keyword =>
        let blanks := (((c :: rest).drop keyword.length).takeWhile isBlank).length
        removeFrom keywords (keyword.length + blanks - 1) (some c) rest
      | none => c :: removeFrom keywords 0 (some c) rest

def removeKeywords (keywords : List String) (text : List Char) : List Char :=
  trim (removeFrom (keywords.map (·.toList)) 0 none text)

def storageKeywords : List String :=
  ["static", "extern", "inline", "__inline", "__inline__", "register", "auto"]

def stripStorage (specifiers : List Char) : List Char :=
  removeKeywords storageKeywords specifiers

/-- Specifiers reduced to the tag types that they define. -/
def stripStorageAndTypedef (specifiers : List Char) : List Char :=
  removeKeywords ["typedef"] (stripStorage specifiers)

end Excerpt.Text
