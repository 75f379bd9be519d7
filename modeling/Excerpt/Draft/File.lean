import Excerpt.Draft.Declare
import Excerpt.Error
import Excerpt.File.Header
import Excerpt.Surface.Reading

/-!
Files entered into a draft, item by item. A quoted header that is found and has not been read yet is read in place of
its directive.
-/

namespace Excerpt

namespace Draft

variable (draft : Draft)

/-- The function definition at hand continues the chain of `name`, unless that chain is defined already. -/
def definedAs? (name : String) : Option DeclId :=
  (draft.fileScope.ordinary.lookup name).filter fun id =>
    (draft.program.decl id).kind.isFunction && !draft.defined.contains (draft.program.decl id).chain

/-- Uses of macros in a span. A macro with parameters is used only before an opening parenthesis. -/
def usesIn (span : Span) : List MacroUse :=
  let text := draft.program.text span
  (identifiers text).filterMap fun (offset, name) =>
    let length := Text.byteLength name.toList
    match draft.definition? name with
    | some id =>
      if (draft.program.directive id).isFunctionLike && !followedByParen text (offset + length) then none
      else
        some
          { name
            pos := ⟨draft.item, span.start + offset⟩
            span := ⟨draft.file, span.start + offset, span.start + offset + length⟩ }
    | none => none

/-- Identifiers of a replacement, each once, without the parameters and the macro itself. -/
def replacementNames (name : String) (params : Option (List String)) (body : List Char) : List String :=
  (((identifiers body).map (·.2)).filter fun word => word ≠ name && !(params.getD []).contains word).eraseDups

end Draft

namespace Drafting

open Surface

def declareParams (function : DeclId) : List TypedParam → Drafting PUnit
  | [] => pure ()
  | param :: rest => do
    match param.name with
    | none => pure ()
    | some (name, extent) =>
      let draft ← get
      let id ← addDecl
        { name := some name
          kind := .var param.type none
          storage := .unspecified
          span := draft.spanOf param.extent
          pos := ⟨draft.item, extent.start⟩
          declarator := none
          context := some function
          item := draft.item
          chain := 0 }
        none
      modify (·.bindOrdinary name id)
    declareParams function rest

def enterFunction (storage : StorageClass) (isInline : Bool) (base : TypeSpec) (declarator : Declarator)
    (extent : Extent) (body : Expr) : Drafting PUnit := do
  let base ← enterType false base
  let typed ← enterDeclarator base [] declarator
  match typed.name with
  | none => pure ()
  | some (name, nameExtent) =>
    let draft ← get
    let span := draft.spanOf extent
    let id ← declare (some name) (.function typed.type none isInline) storage nameExtent.start
      (some ⟨span, span, draft.spanOf nameExtent⟩) (draft.definedAs? name)
    modify fun draft => { draft with defined := (draft.program.decl id).chain :: draft.defined }
    modify (·.bindOrdinary name id)
    modify fun draft => { draft.enterScope with function := some id }
    declareParams id typed.params
    let body ← enterExpr body
    modify fun draft => { draft.leaveScope with function := none }
    setBody id body

def addDirective (name : String) (kind : MacroKind) : Drafting MacroId :=
  modifyGet fun draft =>
    (draft.program.macros.size,
      { draft with
        program := draft.program.addMacro
          { name, kind, span := draft.span, pos := ⟨draft.item, draft.span.start⟩, item := draft.item } })

/-- Enters the code of an item: macro uses first, then declarations. The item holds those at file scope. -/
def enterCode (enter : Drafting PUnit) : Drafting ItemKind := do
  modify fun draft =>
    { draft with program := (draft.usesIn draft.span).foldl Program.addUse draft.program }
  let first := (← get).program.decls.size
  enter
  match (← get).declaredSince first with
  | [] => return .other
  | members => return .decls members

/-- Enters a directive that includes a header. `enter` reads a file that a directive brings in. -/
def enterInclusion (files : FileSystem) (search : SearchPath)
    (enter : String → Document → Option IncludeId → Drafting (Option FileId)) (header : String) (system : Bool) :
    Drafting ItemKind := do
  let before ← get
  let includer := before.program.file before.file
  let found : Option (String × Document) :=
    if system then none else (search.read files header (some includer.path)).toOption
  let id := before.program.includes.size
  set { before with
    program := before.program.addInclude
      { spelled := header
        system
        resolved := found.map Prod.fst
        file := none
        parent := includer.includedBy
        item := before.item } }
  match found with
  | none => pure ()
  | some (path, document) =>
    match files.locate path with
    | .error _ => pure ()
    | .ok place =>
      if !before.read.contains place then
        modify fun draft => { draft with read := place :: draft.read }
        let file ← enter path document (some id)
        modify fun draft =>
          { draft with
            program := (file.map fun file => draft.program.setIncludedFile id file).getD draft.program
            file := before.file
            item := before.item
            span := before.span
            function := before.function }
  return .inclusion id

def enterForm (files : FileSystem) (search : SearchPath)
    (enter : String → Document → Option IncludeId → Drafting (Option FileId)) : Form → Drafting ItemKind
  | .inclusion header system => enterInclusion files search enter header system
  | .define name params body => do
    let id ← addDirective name (.define params body (Draft.replacementNames name params body))
    return .directive id
  | .undef name => do
    let id ← addDirective name .undef
    return .directive id
  | .directive => pure .other
  | .function storage isInline base declarator extent body =>
    enterCode (enterFunction storage isInline base declarator extent body)
  | .declaration declaration => enterCode (enterDeclaration declaration)
  | .other => enterCode (pure ())

def enterItem (files : FileSystem) (search : SearchPath)
    (enter : String → Document → Option IncludeId → Drafting (Option FileId)) (file : FileId)
    (item : Surface.Item) :
    Drafting PUnit := do
  let draft ← get
  let id := draft.program.items.size
  let span : Span := ⟨file, item.extent.start, item.extent.stop⟩
  set { draft with program := draft.program.addItem file span .other, file, item := id, span, function := none }
  let kind ← enterForm files search enter item.form
  modify fun draft => { draft with program := draft.program.setItemKind id kind }

def enterItems (files : FileSystem) (search : SearchPath)
    (enter : String → Document → Option IncludeId → Drafting (Option FileId)) (file : FileId) :
    List Surface.Item → Drafting PUnit
  | [] => pure ()
  | item :: rest => do
    enterItem files search enter file item
    enterItems files search enter file rest

/-- Enters a file and the headers in it, down to `depth` files inside each other. -/
def enterFile (files : FileSystem) (search : SearchPath) :
    Nat → String → Document → Option IncludeId → Drafting (Option FileId)
  | 0, _, _, _ => pure none
  | depth + 1, path, document, includedBy => do
    let draft ← get
    let file := draft.program.files.size
    modify fun draft => { draft with program := draft.program.addFile path document.text includedBy }
    enterItems files search (enterFile files search depth) file (itemsOf document.text document.tree)
    return some file

end Drafting

/-- The program of a main file. Files inside each other are distinct headers below the main file. -/
def Program.ofDocument (files : FileSystem) (search : SearchPath) (path : String) (document : Document) : Program :=
  ((Drafting.enterFile files search (files.files.length + 1) path document none).run {}).2.program.finish

def Program.ofFile (files : FileSystem) (search : SearchPath) (path : String) : Except Error Program :=
  if files.isFile path then
    match files.read path with
    | .ok document => .ok (.ofDocument files search path document)
    | .error cause => .error (.io cause.message)
  else .error (.fileNotFound path)

end Excerpt
