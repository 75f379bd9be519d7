import Excerpt.Closure.Dependency
import Excerpt.Data.Sorted

/-!
The closure of requested functions. A marked declaration waits in a queue until what it needs is marked too. Bodies are
walked in passes. A function or variable that is reached through a pointer keeps its body out of the closure.
-/

namespace Excerpt

/-- What was found to be needed. Sets are ascending. -/
structure Closure where
  /-- The declarations of the requested functions, in order of the request. -/
  roots : List DeclId
  decls : IdSet
  macros : IdSet
  /-- Definitions that a later, different definition replaces. -/
  needsUndef : IdSet
  /-- Symbols that become pointers, ascending by name. -/
  renames : List Rename
  /-- Number of marked declarations in expanded text after each pass. -/
  passSizes : List Nat
deriving DecidableEq, Repr, Inhabited

namespace Closure

/-- The pointer that stands for the entity of a declaration. -/
def renameFor? (closure : Closure) (program : Program) (id : DeclId) : Option Rename :=
  let decl := program.decl id
  (closure.renames.find? fun rename => some rename.symbol == decl.name).filter
    fun rename => rename.chain == decl.chain

end Closure

/-- Adds a pointer, unless its symbol has one, in order of the symbols. -/
def insertRename (rename : Rename) : List Rename → List Rename
  | [] => [rename]
  | first :: rest =>
    if rename.symbol < first.symbol then rename :: first :: rest
    else if rename.symbol = first.symbol then first :: rest
    else first :: insertRename rename rest

structure Marking where
  /-- Every marked declaration. -/
  decls : IdSet := []
  macros : IdSet := []
  renames : List Rename := []
  /-- Marked declarations whose needs are not marked yet, the oldest first. -/
  queue : List DeclId := []
  /-- Declarations whose bodies are due. -/
  pending : IdSet := []
  passSizes : List Nat := []
deriving Repr, Inhabited

namespace Marking

def mark (marking : Marking) (id : DeclId) : Marking :=
  if marking.decls.contains id then marking
  else { marking with decls := marking.decls.insert id, queue := marking.queue ++ [id] }

def markAll (marking : Marking) (ids : List DeclId) : Marking :=
  ids.foldl mark marking

end Marking

namespace Session

variable (session : Session)

/-- The pointer under which a marked declaration is reached. A kept directive still provides what it hides. -/
def renameOf? (rootChains : List ChainId) (id : DeclId) : Option Rename :=
  if rootChains.contains (session.program.decl id).chain || !session.isDeclExpanded id then none
  else session.program.rename? session.policy id

def needsBody (rootChains : List ChainId) (id : DeclId) : Bool :=
  match (session.program.decl id).kind with
  | .function _ body _ => body.isSome && (session.renameOf? rootChains id).isNone
  | .var _ init => init.isSome && (session.renameOf? rootChains id).isNone
  | .enumConstant _ _ init => init.isSome
  | _ => false

/-- Macro directives that a marked declaration needs. Of a symbol behind a pointer only the declarator counts. -/
def declMacros (rootChains : List ChainId) (id : DeclId) : List MacroId :=
  let decl := session.program.decl id
  let stop := match session.renameOf? rootChains id, decl.declarator with
    | some _, some spans => spans.bare.stop
    | _, _ => decl.span.stop
  session.macrosBetween decl.item decl.span.start stop

/-- Marks what a marked declaration needs, its body apart. -/
def process (rootChains : List ChainId) (marking : Marking) (id : DeclId) : Marking :=
  let marked := marking.markAll (session.declDecls id)
  { marked with
    macros := marked.macros.insertAll (session.declMacros rootChains id)
    pending := if session.needsBody rootChains id then marked.pending.insert id else marked.pending
    renames :=
      match session.renameOf? rootChains id with
      | some rename => insertRename rename marked.renames
      | none => marked.renames }

def drainFor (rootChains : List ChainId) : Nat → Marking → Marking
  | 0, marking => marking
  | fuel + 1, marking =>
    match marking.queue with
    | [] => marking
    | id :: queue => drainFor rootChains fuel (session.process rootChains { marking with queue } id)

/-- Processes the queue until it is empty. Each declaration enters the queue once. -/
def drain (rootChains : List ChainId) (marking : Marking) : Marking :=
  session.drainFor rootChains session.program.decls.size marking

def walkBody (rootChains : List ChainId) (marking : Marking) (id : DeclId) : Marking :=
  session.drain rootChains (marking.markAll (session.bodyDecls id))

def expandedCount (marking : Marking) : Nat :=
  (marking.decls.filter session.isDeclExpanded).length

def pass (rootChains : List ChainId) (marking : Marking) : Marking :=
  let walked := marking.pending.foldl (session.walkBody rootChains) { marking with pending := [] }
  { walked with passSizes := walked.passSizes ++ [session.expandedCount walked] }

def passesFor (rootChains : List ChainId) : Nat → Marking → Marking
  | 0, marking => marking
  | fuel + 1, marking =>
    if marking.pending.isEmpty then marking else passesFor rootChains fuel (session.pass rootChains marking)

/-- Marks until neither the queue nor a due body is left. Each body is walked once. -/
def settle (rootChains : List ChainId) (marking : Marking) : Marking :=
  session.passesFor rootChains session.program.decls.size (session.drain rootChains marking)

/-- Marks the enumerations that marked macros in expanded text refer to. -/
def markMacroEnums (rootChains : List ChainId) (marking : Marking) : Marking :=
  session.drain rootChains
    (marking.markAll ((marking.macros.filter session.isMacroExpanded).flatMap session.macroDecls))

def saturateFor (rootChains : List ChainId) : Nat → Marking → Marking
  | 0, marking => marking
  | fuel + 1, marking =>
    let settled := session.settle rootChains marking
    let extended := session.markMacroEnums rootChains settled
    if extended.decls.length = settled.decls.length ∧ extended.pending = [] then extended
    else saturateFor rootChains fuel extended

/-- Marks everything that the marked declarations need. Each round but the last marks a declaration. -/
def saturate (rootChains : List ChainId) (marking : Marking) : Marking :=
  session.saturateFor rootChains (session.program.decls.size + 1) marking

/-- A marked definition in expanded text that a later, different definition replaces. -/
def isReplaced (id : MacroId) : Bool :=
  let directive := session.program.directive id
  directive.isDefine && session.isMacroExpanded id &&
    (session.program.laterDefinitions id).any fun later =>
      !(session.program.directive later).sameDefinition directive

def unresolved (name : String) (reason : UnresolvedReason) (candidates : List DeclId) : Error :=
  .unresolvedSymbol name reason session.mainPath
    (candidates.map fun id => session.program.location (session.program.decl id).span)

def root (name : String) : Except Error DeclId :=
  match session.program.functionChains name with
  | [] =>
    match session.program.fileScope name with
    | [] => .error (session.unresolved name .notFound [])
    | decls => .error (session.unresolved name .notAFunction decls)
  | [chain] =>
    match session.program.representative? chain with
    | some id => .ok id
    | none => .error (session.unresolved name .notFound [])
  | chains => .error (session.unresolved name .ambiguous (chains.filterMap session.program.representative?))

def closureOf (roots : List DeclId) : Closure :=
  let rootChains := roots.map fun id => (session.program.decl id).chain
  let marking := session.saturate rootChains (({} : Marking).markAll (roots.flatMap session.upTo))
  { roots
    decls := marking.decls
    macros := marking.macros
    needsUndef := marking.macros.filter session.isReplaced
    renames := marking.renames
    passSizes := marking.passSizes }

def closure (functions : List String) : Except Error Closure :=
  (functions.mapM session.root).map session.closureOf

end Session

end Excerpt
