import Excerpt.Program.Build
import Excerpt.File.System
import Excerpt.Surface.Basic

/-!
A program under construction. Bindings are kept with the latest first, so a look-up finds the one in force.
-/

namespace Excerpt

/-- Bindings of one scope; ordinary names and tags are apart. -/
structure Scope where
  ordinary : List (String × DeclId) := []
  tags : List (String × DeclId) := []
deriving DecidableEq, Repr, Inhabited

structure Draft where
  program : Program := {}
  fileScope : Scope := {}
  /-- Block scopes in force, the innermost first. -/
  blocks : List Scope := []
  /-- Chains that have a function definition. -/
  defined : List ChainId := []
  /-- Headers that have been read. -/
  read : List Place := []
  file : FileId := 0
  item : ItemId := 0
  /-- Span of the declarations made now. -/
  span : Span := ⟨0, 0, 0⟩
  /-- The function whose body is being read. -/
  function : Option DeclId := none
deriving Inhabited

namespace Draft

variable (draft : Draft)

/-- The last directive of a name that was read, if it is a definition. -/
def definition? (name : String) : Option MacroId :=
  (((List.range draft.program.macros.size).filter fun id => (draft.program.directive id).name == name).getLast?).filter
    fun id => (draft.program.directive id).isDefine

def scopes : List Scope :=
  draft.blocks ++ [draft.fileScope]

def ordinary? (name : String) : Option DeclId :=
  draft.scopes.findSome? fun scope => scope.ordinary.lookup name

def tag? (name : String) : Option DeclId :=
  draft.scopes.findSome? fun scope => scope.tags.lookup name

def innermost : Scope :=
  draft.blocks.headD draft.fileScope

def modifyInnermost (change : Scope → Scope) : Draft :=
  match draft.blocks with
  | [] => { draft with fileScope := change draft.fileScope }
  | scope :: rest => { draft with blocks := change scope :: rest }

def bindOrdinary (name : String) (id : DeclId) : Draft :=
  draft.modifyInnermost fun scope => { scope with ordinary := (name, id) :: scope.ordinary }

def bindTag (name : String) (id : DeclId) : Draft :=
  draft.modifyInnermost fun scope => { scope with tags := (name, id) :: scope.tags }

def bindFileTag (name : String) (id : DeclId) : Draft :=
  { draft with fileScope := { draft.fileScope with tags := (name, id) :: draft.fileScope.tags } }

def enterScope : Draft :=
  { draft with blocks := {} :: draft.blocks }

def leaveScope : Draft :=
  { draft with blocks := draft.blocks.tail }

def spanOf (extent : Extent) : Span :=
  ⟨draft.file, extent.start, extent.stop⟩

end Draft

abbrev Drafting := StateM Draft

namespace Drafting

def addType (type : CType) : Drafting TypeId :=
  modifyGet fun draft =>
    let (id, program) := draft.program.addType type
    (id, { draft with program })

def addDecl (decl : Decl) (previous : Option DeclId) : Drafting DeclId :=
  modifyGet fun draft => (draft.program.decls.size, { draft with program := draft.program.addDecl decl previous })

/-- Adds a declaration with the span and in the function at hand. -/
def declare (name : Option String) (kind : DeclKind) (storage : StorageClass) (offset : Nat)
    (declarator : Option DeclaratorSpans) (previous : Option DeclId) : Drafting DeclId := do
  let draft ← get
  addDecl
    { name, kind, storage, declarator
      span := draft.span
      pos := ⟨draft.item, offset⟩
      context := draft.function
      item := draft.item
      chain := 0 }
    previous

def modifyDecl (id : DeclId) (change : Decl → Decl) : Drafting PUnit :=
  modify fun draft => { draft with program := draft.program.modifyDecl id change }

end Drafting

end Excerpt
