import Excerpt.Draft.Macro

namespace Excerpt

structure TypedParam where
  name : Option (String × Extent)
  type : TypeId
  extent : Extent
deriving DecidableEq, Repr, Inhabited

structure TypedName where
  name : Option (String × Extent)
  type : TypeId
  /-- Parameters of the innermost function declarator. -/
  params : List TypedParam
deriving DecidableEq, Repr, Inhabited

namespace Surface.TagKind

def incomplete : TagKind → DeclKind
  | struct => .record false [] false
  | union => .record true [] false
  | enumeration => .enumeration [] false

def typeOf (id : DeclId) : TagKind → CType
  | struct => .record id
  | union => .record id
  | enumeration => .enumeration id

end Surface.TagKind

namespace Draft

variable (draft : Draft)

/-- The declaration of a tag in the innermost scope that still lacks a body. -/
def incompleteTag? (name : Option String) : Option DeclId :=
  (name.bind fun name => draft.innermost.tags.lookup name).filter fun id =>
    match (draft.program.decl id).kind with
    | .record _ _ complete => !complete
    | .enumeration _ complete => !complete
    | _ => false

def namedType (name : String) : CType :=
  match draft.ordinary? name with
  | some id =>
    match (draft.program.decl id).kind with
    | .typedef _ => .typedef id
    | _ => .unresolved name
  | none => .unresolved name

/-- The declaration at file scope that a new function or variable redeclares. A variable in a block does so only when it
is `extern`. -/
def redeclared? (name : String) (isFunction : Bool) (storage : StorageClass) : Option DeclId :=
  if draft.function.isSome && !isFunction && storage != .external then none
  else
    (draft.fileScope.ordinary.lookup name).filter fun id =>
      if isFunction then (draft.program.decl id).kind.isFunction else (draft.program.decl id).kind.isVar

def isFunctionType (type : TypeId) : Bool :=
  match draft.program.type type with
  | .function .. => true
  | _ => false

/-- One parameter without a name whose type is `void` stands for no parameters. -/
def withoutVoid (params : List TypedParam) : List TypedParam :=
  match params with
  | [param] => if param.name.isNone && draft.program.type param.type == .builtin "void" then [] else params
  | _ => params

/-- The declarations from number `first` on that belong to the function at hand. -/
def declaredSince (first : Nat) : List DeclId :=
  (List.range draft.program.decls.size).filter fun id =>
    first ≤ id && (draft.program.decl id).context == draft.function

end Draft

namespace Drafting

/-- The declaration that a tag without a body refers to. By itself it declares the tag in the innermost scope; elsewhere
the first mention of an unknown tag declares it at file scope. -/
def tagReference (standalone : Bool) (kind : Surface.TagKind) (name : String) (start : Nat) : Drafting DeclId := do
  let draft ← get
  if standalone then
    let id ← declare (some name) kind.incomplete .unspecified start none (draft.innermost.tags.lookup name)
    modify (·.bindTag name id)
    return id
  else
    match draft.tag? name with
    | some id => return id
    | none =>
      let id ← addDecl
        { name := some name
          kind := kind.incomplete
          storage := .unspecified
          span := draft.span
          pos := ⟨draft.item, start⟩
          declarator := none
          context := none
          item := draft.item
          chain := 0 }
        none
      modify (·.bindFileTag name id)
      return id

def defineTag (name : Option String) (start : Nat) (kind : DeclKind) : Drafting DeclId := do
  let draft ← get
  let id ← declare name kind .unspecified start none (draft.incompleteTag? name)
  match name with
  | some name => modify (·.bindTag name id)
  | none => pure ()
  return id

def declareObject (storage : StorageClass) (isInline : Bool) (full bare : Extent) (name : String) (nameExtent : Extent)
    (type : TypeId) : Drafting DeclId := do
  let draft ← get
  let isFunction := draft.isFunctionType type
  let kind := if isFunction then DeclKind.function type none isInline else .var type none
  let id ← declare (some name) kind storage nameExtent.start
    (some ⟨draft.spanOf full, draft.spanOf bare, draft.spanOf nameExtent⟩)
    (draft.redeclared? name isFunction storage)
  modify (·.bindOrdinary name id)
  return id

def declareTypedef (extent : Extent) (name : String) (nameExtent : Extent) (type : TypeId) : Drafting DeclId := do
  let draft ← get
  let previous := (draft.innermost.ordinary.lookup name).filter fun id =>
    match (draft.program.decl id).kind with
    | .typedef _ => true
    | _ => false
  let id ← declare (some name) (.typedef type) .unspecified nameExtent.start
    (some ⟨draft.spanOf extent, draft.spanOf extent, draft.spanOf nameExtent⟩) previous
  modify (·.bindOrdinary name id)
  return id

def setFields (id : DeclId) (fields : List Field) : Drafting PUnit :=
  modifyDecl id fun decl =>
    match decl.kind with
    | .record isUnion _ complete => { decl with kind := .record isUnion fields complete }
    | _ => decl

def setConstants (id : DeclId) (constants : List DeclId) : Drafting PUnit :=
  modifyDecl id fun decl =>
    match decl.kind with
    | .enumeration _ complete => { decl with kind := .enumeration constants complete }
    | _ => decl

def setInit (id : DeclId) (init : Option Stmt) : Drafting PUnit :=
  modifyDecl id fun decl =>
    match decl.kind with
    | .var type _ => { decl with kind := .var type init }
    | _ => decl

def setBody (id : DeclId) (body : Option Stmt) : Drafting PUnit :=
  modifyDecl id fun decl =>
    match decl.kind with
    | .function type _ isInline => { decl with kind := .function type body isInline }
    | _ => decl

open Surface

mutual

/-- Enters a type; a tag that stands by itself is declared rather than used. -/
def enterType (standalone : Bool) : TypeSpec → Drafting TypeId
  | .builtin name => addType (.builtin name)
  | .named name => do addType ((← get).namedType name)
  | .unknown name => addType (.unresolved name)
  | .tag kind name start => do
    let id ← tagReference standalone kind name start
    addType (kind.typeOf id)
  | .record isUnion name start fields => do
    let id ← defineTag name start (.record isUnion [] true)
    let fields ← enterFields fields
    setFields id fields
    addType (.record id)
  | .enumeration name start constants => do
    let id ← defineTag name start (.enumeration [] true)
    let constants ← enterEnumerators id 0 constants
    setConstants id constants
    addType (.enumeration id)

def enterFields : List FieldDecl → Drafting (List Field)
  | [] => pure []
  | field :: rest => do
    let fields ← enterField field
    let others ← enterFields rest
    return fields ++ others

def enterField : FieldDecl → Drafting (List Field)
  | .mk extent base declarators => do
    let span := (← get).spanOf extent
    let base ← enterType false base
    if declarators.isEmpty then return [⟨none, base, span⟩]
    enterFieldDeclarators base span declarators

def enterFieldDeclarators (base : TypeId) (span : Span) : List Declarator → Drafting (List Field)
  | [] => pure []
  | declarator :: rest => do
    let typed ← enterDeclarator base [] declarator
    let others ← enterFieldDeclarators base span rest
    return ⟨typed.name.map (·.1), typed.type, span⟩ :: others

/-- Enters enumerators; one without a value that can be folded is `next`. -/
def enterEnumerators (owner : DeclId) (next : Int64) : List Enumerator → Drafting (List DeclId)
  | [] => pure []
  | constant :: rest => do
    let (id, value) ← enterEnumerator owner next constant
    let others ← enterEnumerators owner (value + 1) rest
    return id :: others

def enterEnumerator (owner : DeclId) (next : Int64) : Enumerator → Drafting (DeclId × Int64)
  | .mk name start text init => do
    let draft ← get
    let value := (text.bind draft.fold).getD next
    let init ← enterExpr init
    let id ← declare (some name) (.enumConstant value owner init) .unspecified start none none
    modify (·.bindOrdinary name id)
    return (id, value)

/-- Applies a declarator to a base type, from the outside in. -/
def enterDeclarator (base : TypeId) (params : List TypedParam) : Declarator → Drafting TypedName
  | .anonymous => pure ⟨none, base, params⟩
  | .name name extent => pure ⟨some (name, extent), base, params⟩
  | .pointer inner => do
    let type ← addType (.pointer base)
    enterDeclarator type params inner
  | .array size inner => do
    let draft ← get
    let type ← addType (.array base (size.bind draft.fold))
    enterDeclarator type params inner
  | .function list variadic inner => do
    let list ← enterParams list
    let params := (← get).withoutVoid list
    let type ← addType (.function base (params.map (·.type)) variadic)
    enterDeclarator type params inner

def enterParams : List Param → Drafting (List TypedParam)
  | [] => pure []
  | param :: rest => do
    let param ← enterParam param
    let others ← enterParams rest
    return param :: others

def enterParam : Param → Drafting TypedParam
  | .mk extent base declarator => do
    let base ← enterType false base
    let typed ← enterDeclarator base [] declarator
    return ⟨typed.name, typed.type, extent⟩

/-- Enters a statement or expression; one that refers to nothing leaves no tree. -/
def enterExpr : Expr → Drafting (Option Stmt)
  | .empty => pure none
  | .scope extent children => do
    modify (·.enterScope)
    let children ← enterExprs children
    modify (·.leaveScope)
    return some (.node .block ((← get).spanOf extent) children)
  | .group extent children => do
    let children ← enterExprs children
    return some (.node .block ((← get).spanOf extent) children)
  | .declaration extent declaration => do
    let before ← get
    let span := before.spanOf extent
    set { before with span }
    enterDeclaration declaration
    modify fun draft => { draft with span := before.span }
    let declared := (← get).declaredSince before.program.decls.size
    return some (.node .block span (declared.map fun id => .leaf (.localDecl id) span))
  | .name name extent => do
    let draft ← get
    return draft.nameStmt? name (draft.spanOf extent)
  | .call extent function arguments => do
    let callee ← match (← get).macroCallee? function with
      | some callee => pure (some callee)
      | none => enterExpr function
    let arguments ← enterExprs arguments
    return some (.node .call ((← get).spanOf extent) (callee.toList ++ arguments))
  | .member extent argument => do
    match ← enterExpr argument with
    | some argument => return some (.node .other ((← get).spanOf extent) [argument])
    | none => return none
  | .typeName extent base declarator => do
    let base ← enterType false base
    let typed ← enterDeclarator base [] declarator
    return some (.leaf (.typeRef typed.type) ((← get).spanOf extent))
  | .number text extent => do
    let kind := ((Constant.intLiteral? text).map StmtKind.intLiteral).getD .other
    return some (.leaf kind ((← get).spanOf extent))
  | .other extent children => do
    let children ← enterExprs children
    if children.isEmpty then return none
    return some (.node .other ((← get).spanOf extent) children)

def enterExprs : List Expr → Drafting (List Stmt)
  | [] => pure []
  | expr :: rest => do
    let stmt ← enterExpr expr
    let others ← enterExprs rest
    return stmt.toList ++ others

def enterDeclaration : Declaration → Drafting PUnit
  | .objects storage isInline base declarators => do
    let base ← enterType declarators.isEmpty base
    enterObjects storage isInline base declarators
  | .typedefs base declarators => do
    let base ← enterType false base
    enterTypedefs base declarators
  | .tag spec => do
    let _ ← enterType true spec

def enterObjects (storage : StorageClass) (isInline : Bool) (base : TypeId) : List InitDeclarator → Drafting PUnit
  | [] => pure ()
  | declarator :: rest => do
    enterObject storage isInline base declarator
    enterObjects storage isInline base rest

/-- Declares a function or variable and then reads its initializer, in which the name is known. -/
def enterObject (storage : StorageClass) (isInline : Bool) (base : TypeId) : InitDeclarator → Drafting PUnit
  | .mk full bare declarator init => do
    let typed ← enterDeclarator base [] declarator
    match typed.name with
    | none => pure ()
    | some (name, extent) =>
      let id ← declareObject storage isInline full bare name extent typed.type
      let init ← enterExpr init
      setInit id init

def enterTypedefs (base : TypeId) : List InitDeclarator → Drafting PUnit
  | [] => pure ()
  | declarator :: rest => do
    enterTypedef base declarator
    enterTypedefs base rest

def enterTypedef (base : TypeId) : InitDeclarator → Drafting PUnit
  | .mk full _ declarator _ => do
    let typed ← enterDeclarator base [] declarator
    match typed.name with
    | none => pure ()
    | some (name, extent) =>
      let _ ← declareTypedef full name extent typed.type

end

end Drafting

end Excerpt
