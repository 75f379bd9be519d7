import Excerpt.Program.Basic
import Excerpt.Text.Keyword

/-!
Symbols reached through pointers. A patch cannot link against the internal symbols of the code that it patches. Such a
symbol becomes a pointer, `klp_` and the name, which the loader fills in.
-/

namespace Excerpt

inductive SymbolKind where
  | function
  | var
deriving DecidableEq, Repr, Inhabited

def SymbolKind.name : SymbolKind → String
  | function => "function"
  | var => "variable"

/-- A symbol that is replaced by a pointer. -/
structure Rename where
  symbol : String
  kind : SymbolKind
  chain : ChainId
deriving DecidableEq, Repr, Inhabited

namespace Rename

def pointer (rename : Rename) : String :=
  "klp_" ++ rename.symbol

def useText (rename : Rename) : String :=
  match rename.kind with
  | .function => rename.pointer
  | .var => "(*" ++ rename.pointer ++ ")"

end Rename

/-- Which symbols are reached through pointers. -/
structure PointerPolicy where
  enabled : Bool
  /-- Names that become pointers though they are not internal. -/
  exported : List String
deriving DecidableEq, Repr, Inhabited

namespace Program

variable (program : Program)

/-- Some declaration of the entity is `static`. -/
def isInternal (id : DeclId) : Bool :=
  (program.redecls id).any fun member => (program.decl member).storage == .static

def symbolKind? (id : DeclId) : Option SymbolKind :=
  match (program.decl id).kind with
  | .function .. => some .function
  | .var .. => some .var
  | _ => none

/-- The pointer for a declaration: for a function or variable at file scope that is internal or exported. -/
def rename? (policy : PointerPolicy) (id : DeclId) : Option Rename :=
  let decl := program.decl id
  if policy.enabled && decl.isFileScope then
    match program.symbolKind? id, decl.name with
    | some kind, some name =>
      if program.isInternal id || policy.exported.contains name then some ⟨name, kind, decl.chain⟩ else none
    | _, _ => none
  else none

/-- A declarator with its name replaced by the pointer in parentheses. -/
def pointerDeclarator? (spans : DeclaratorSpans) (rename : Rename) : Option (List Char) :=
  let bare := program.text spans.bare
  if spans.bare.start ≤ spans.name.start ∧ spans.bare.start ≤ spans.name.stop then
    match Text.takeBytes? (spans.name.start - spans.bare.start) bare,
        Text.dropBytes? (spans.name.stop - spans.bare.start) bare with
    | some before, some after => some (before ++ "(*".toList ++ rename.pointer.toList ++ ")".toList ++ after)
    | _, _ => none
  else none

/-- The declaration of the pointer, made from the specifiers and the declarator of the symbol. -/
def pointerDeclaration? (id : DeclId) (specifiers : Span) (rename : Rename) : Option (List Char) :=
  (program.decl id).declarator.bind fun spans =>
    (program.pointerDeclarator? spans rename).map fun declarator =>
      "static ".toList ++ Text.stripStorage (program.text specifiers) ++ " ".toList ++ declarator ++ ";".toList

end Program

end Excerpt
