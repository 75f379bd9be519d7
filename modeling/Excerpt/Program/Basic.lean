import Excerpt.Text.Blank
import Excerpt.Text.Bytes
import Excerpt.Text.Lines
import Excerpt.Program.Stmt

/-!
The tables of one compilation unit, its headers included. Entries are named by their place, given out as the unit is
read, so the order of `DeclId`s is the order of the source. Reading a place outside a table gives an empty entry.
-/

namespace Excerpt

abbrev MacroId := Nat
abbrev ItemId := Nat
abbrev IncludeId := Nat
/-- Number of a redeclaration chain: all declarations of one entity. -/
abbrev ChainId := Nat

structure SourceFile where
  path : String
  text : List Char
  /-- The directive that brought the file in; none for the main file. -/
  includedBy : Option IncludeId
deriving Repr, Inhabited

inductive StorageClass where
  | unspecified
  | static
  | external
  | automatic
  | register
deriving DecidableEq, Repr, Inhabited

/-- Parts of one declarator. -/
structure DeclaratorSpans where
  /-- With the initializer. -/
  full : Span
  /-- Without the initializer. -/
  bare : Span
  /-- The declared name. -/
  name : Span
deriving DecidableEq, Repr, Inhabited

structure Field where
  name : Option String
  type : TypeId
  span : Span
deriving DecidableEq, Repr, Inhabited

inductive DeclKind where
  | function (type : TypeId) (body : Option Stmt) (isInline : Bool)
  | var (type : TypeId) (init : Option Stmt)
  | record (isUnion : Bool) (fields : List Field) (complete : Bool)
  | enumeration (constants : List DeclId) (complete : Bool)
  | enumConstant (value : Int64) (owner : DeclId) (init : Option Stmt)
  | typedef (underlying : TypeId)
deriving Repr, Inhabited

namespace DeclKind

def isFunction : DeclKind → Bool
  | function .. => true
  | _ => false

def isVar : DeclKind → Bool
  | var .. => true
  | _ => false

/-- Structures, unions and enumerations: what a tag names. -/
def isTag : DeclKind → Bool
  | record .. => true
  | enumeration .. => true
  | _ => false

def body? : DeclKind → Option Stmt
  | function _ body _ => body
  | var _ init => init
  | enumConstant _ _ init => init
  | _ => none

def hasBody : DeclKind → Bool
  | function _ (some _) _ => true
  | _ => false

/-- A function body, a member list or an enumerator list is present. -/
def isDefinition : DeclKind → Bool
  | function _ (some _) _ => true
  | record _ _ true => true
  | enumeration _ true => true
  | _ => false

def name : DeclKind → String
  | function .. => "function"
  | var .. => "variable"
  | record true .. => "union"
  | record false .. => "struct"
  | enumeration .. => "enum"
  | enumConstant .. => "enum constant"
  | typedef .. => "typedef"

end DeclKind

structure Decl where
  name : Option String
  kind : DeclKind
  storage : StorageClass
  span : Span
  pos : SourcePos
  declarator : Option DeclaratorSpans
  /-- The function around a declaration at block scope. -/
  context : Option DeclId
  item : ItemId
  chain : ChainId
deriving Repr, Inhabited

namespace Decl

def isFileScope (decl : Decl) : Bool :=
  decl.context.isNone

/-- Declared at file scope in the name space of ordinary identifiers. -/
def isOrdinaryFileScope (decl : Decl) : Bool :=
  decl.isFileScope && !decl.kind.isTag

end Decl

/-- Types without qualifiers. Of an array's size only the value is kept. -/
inductive CType where
  | builtin (name : String)
  | pointer (target : TypeId)
  | array (element : TypeId) (size : Option Int64)
  | function (result : TypeId) (params : List TypeId) (variadic : Bool)
  | record (decl : DeclId)
  | enumeration (decl : DeclId)
  | typedef (decl : DeclId)
  /-- A type name that the unit does not declare. -/
  | unresolved (name : String)
deriving DecidableEq, Hashable, Repr, Inhabited

inductive MacroKind where
  /-- `params` is none for a macro without parameter list; `names` are the identifiers of the replacement, without
  the parameters. -/
  | define (params : Option (List String)) (body : List Char) (names : List String)
  | undef
deriving DecidableEq, Repr, Inhabited

structure MacroDirective where
  name : String
  kind : MacroKind
  span : Span
  pos : SourcePos
  item : ItemId
deriving Repr, Inhabited

namespace MacroDirective

def isDefine (directive : MacroDirective) : Bool :=
  match directive.kind with
  | .define .. => true
  | .undef => false

def isFunctionLike (directive : MacroDirective) : Bool :=
  match directive.kind with
  | .define (some _) _ _ => true
  | _ => false

def names (directive : MacroDirective) : List String :=
  match directive.kind with
  | .define _ _ names => names
  | .undef => []

/-- Two definitions with the same parameters and the same words of replacement. -/
def sameDefinition (first second : MacroDirective) : Bool :=
  match first.kind, second.kind with
  | .define params body _, .define params₂ body₂ _ => params == params₂ && Text.words body == Text.words body₂
  | _, _ => false

end MacroDirective

structure MacroUse where
  name : String
  pos : SourcePos
  span : Span
deriving DecidableEq, Repr, Inhabited

structure Inclusion where
  /-- The header's name without its delimiters. -/
  spelled : String
  /-- Written with angle brackets. -/
  system : Bool
  resolved : Option String
  /-- The file, when it was read here. -/
  file : Option FileId
  /-- The inclusion of the file that holds the directive. -/
  parent : Option IncludeId
  item : ItemId
deriving DecidableEq, Repr, Inhabited

inductive ItemKind where
  /-- The declarations of one top-level construct. -/
  | decls (members : List DeclId)
  | directive (id : MacroId)
  | inclusion (id : IncludeId)
  | other
deriving DecidableEq, Repr, Inhabited

structure Item where
  file : FileId
  span : Span
  kind : ItemKind
deriving DecidableEq, Repr, Inhabited

structure Program where
  files : Array SourceFile := #[]
  items : Array Item := #[]
  decls : Array Decl := #[]
  types : Array CType := #[]
  chains : Array (List DeclId) := #[]
  macros : Array MacroDirective := #[]
  /-- Ascending by position once the program is finished. -/
  uses : List MacroUse := []
  includes : Array Inclusion := #[]
deriving Inhabited

namespace Program

variable (program : Program)

def file (id : FileId) : SourceFile :=
  program.files.getD id default

def item (id : ItemId) : Item :=
  program.items.getD id default

def decl (id : DeclId) : Decl :=
  program.decls.getD id default

def type (id : TypeId) : CType :=
  program.types.getD id default

def directive (id : MacroId) : MacroDirective :=
  program.macros.getD id default

def inclusion (id : IncludeId) : Inclusion :=
  program.includes.getD id default

def chain (id : ChainId) : List DeclId :=
  program.chains.getD id []

/-- All declarations of the entity that `id` declares. -/
def redecls (id : DeclId) : List DeclId :=
  program.chain (program.decl id).chain

/-- Text of a span; nothing when the span does not cut its file at characters. -/
def text (span : Span) : List Char :=
  Text.slice (program.file span.file).text span.start span.stop

def location (span : Span) : Location :=
  let file := program.file span.file
  let (line, column) := Text.lineColumn file.text span.start
  let (endLine, endColumn) := Text.lineColumn file.text span.stop
  ⟨file.path, line, column, endLine, endColumn⟩

def fileOf (pos : SourcePos) : FileId :=
  (program.item pos.seq).file

def posLocation (pos : SourcePos) : Location :=
  program.location ⟨program.fileOf pos, pos.offset, pos.offset⟩

def usesBetween (start stop : SourcePos) : List MacroUse :=
  program.uses.filter fun occurrence => start.atOrBefore occurrence.pos && occurrence.pos.before stop

def usesInDecl (id : DeclId) : List MacroUse :=
  let decl := program.decl id
  program.usesBetween ⟨decl.item, decl.span.start⟩ ⟨decl.item, decl.span.stop⟩

/-- File-scope declarations of an ordinary identifier, in order. -/
def fileScope (name : String) : List DeclId :=
  (List.range program.decls.size).filter fun id =>
    (program.decl id).isOrdinaryFileScope && (program.decl id).name == some name

/-- The ordinary identifiers declared at file scope, each once, in order of their first declaration. -/
def fileScopeNames : List String :=
  ((program.decls.toList.filter (·.isOrdinaryFileScope)).filterMap (·.name)).eraseDups

/-- The chains of functions declared at file scope under a name, each once. -/
def functionChains (name : String) : List ChainId :=
  (((program.fileScope name).filter fun id => (program.decl id).kind.isFunction).map
    fun id => (program.decl id).chain).eraseDups

/-- The definition in a chain, or its latest member when it has none. -/
def representative? (id : ChainId) : Option DeclId :=
  let members := program.chain id
  (members.find? fun member => (program.decl member).kind.isDefinition).or members.getLast?

end Program

end Excerpt
