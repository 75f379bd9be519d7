import Excerpt.Program.Basic
import Excerpt.Tree.Node

/-!
Surface forms of C: what the nodes of a concrete tree say, before names are resolved. A declarator is written from the
outside in: the outermost form is applied to the base type first.
-/

namespace Excerpt.Surface

inductive TagKind where
  | struct
  | union
  | enumeration
deriving DecidableEq, Repr, Inhabited

mutual

inductive TypeSpec where
  | builtin (name : String)
  /-- A type name that a `typedef` may declare. -/
  | named (name : String)
  /-- A type that only the preprocessor knows. -/
  | unknown (name : String)
  /-- A tag without a body. -/
  | tag (kind : TagKind) (name : String) (start : Nat)
  | record (isUnion : Bool) (name : Option String) (start : Nat) (fields : List FieldDecl)
  | enumeration (name : Option String) (start : Nat) (constants : List Enumerator)

inductive FieldDecl where
  | mk (extent : Extent) (base : TypeSpec) (declarators : List Declarator)

inductive Enumerator where
  | mk (name : String) (start : Nat) (value : Option (List Char)) (init : Expr)

inductive Declarator where
  | anonymous
  | name (name : String) (extent : Extent)
  | pointer (inner : Declarator)
  | array (size : Option (List Char)) (inner : Declarator)
  | function (params : List Param) (variadic : Bool) (inner : Declarator)

inductive Param where
  | mk (extent : Extent) (base : TypeSpec) (declarator : Declarator)

inductive Expr where
  /-- Refers to nothing. -/
  | empty
  /-- A block with a scope of its own. -/
  | scope (extent : Extent) (children : List Expr)
  /-- All branches of a conditional group. -/
  | group (extent : Extent) (children : List Expr)
  | declaration (extent : Extent) (declaration : Declaration)
  | name (name : String) (extent : Extent)
  | call (extent : Extent) (function : Expr) (arguments : List Expr)
  /-- A member of `argument`. -/
  | member (extent : Extent) (argument : Expr)
  | typeName (extent : Extent) (base : TypeSpec) (declarator : Declarator)
  | number (text : List Char) (extent : Extent)
  | other (extent : Extent) (children : List Expr)

inductive Declaration where
  /-- Functions and variables; without declarators, the declaration of a tag. -/
  | objects (storage : StorageClass) (isInline : Bool) (base : TypeSpec) (declarators : List InitDeclarator)
  | typedefs (base : TypeSpec) (declarators : List InitDeclarator)
  /-- A tag by itself. -/
  | tag (spec : TypeSpec)

/-- A declarator with its initializer; `bare` is its extent without it. -/
inductive InitDeclarator where
  | mk (full bare : Extent) (declarator : Declarator) (init : Expr)

end

instance : Inhabited TypeSpec := ⟨.builtin "int"⟩

instance : Inhabited Declarator := ⟨.anonymous⟩

instance : Inhabited Expr := ⟨.empty⟩

instance : Inhabited Declaration := ⟨.tag default⟩

inductive Form where
  | inclusion (header : String) (system : Bool)
  | define (name : String) (params : Option (List String)) (body : List Char)
  | undef (name : String)
  /-- A directive of no consequence. -/
  | directive
  | function (storage : StorageClass) (isInline : Bool) (base : TypeSpec) (declarator : Declarator)
      (extent : Extent) (body : Expr)
  | declaration (declaration : Declaration)
  | other

instance : Inhabited Form := ⟨.other⟩

structure Item where
  extent : Extent
  form : Form
deriving Inhabited

end Excerpt.Surface
