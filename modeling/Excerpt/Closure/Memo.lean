import Excerpt.Closure.Basic

/-!
Marking that remembers what it has met, through all the loops of a request.
-/

namespace Excerpt

/-- A marking with what was met on the way to it. -/
structure Memo where
  marking : Marking := {}
  /-- Types, with the context in which their array sizes were looked up. -/
  types : List (TypeId × Option DeclId) := []
  expansions : List (MacroId × SourcePos) := []
  walked : List DeclId := []
deriving Repr, Inhabited

/-- What marks declarations when it is met. -/
inductive Need where
  | decls (ids : List DeclId)
  | type (id : TypeId) (context : Option DeclId)
deriving DecidableEq, Repr

namespace Session

variable (session : Session)

def declNeeds (id : DeclId) : List Need :=
  let context := session.lookupContext id
  match (session.program.decl id).kind with
  | .function type _ _ => [.type type context]
  | .var type _ => [.type type context]
  | .record _ fields _ => fields.map fun field => .type field.type context
  | .enumeration constants _ => constants.map fun constant => .decls (session.upTo constant)
  | .enumConstant _ owner _ => [.decls (session.entity owner)]
  | .typedef underlying => [.type underlying context]

def nodeNeeds (id : DeclId) : StmtKind → List Need
  | .localDecl decl =>
    match (session.program.decl decl).kind with
    | .var type _ => [.type type (session.lookupContext decl)]
    | _ => [.decls (session.upTo decl)]
  | .typeRef type => [.type type (session.lookupContext id)]
  | kind => [.decls (session.nodeDecls id kind)]

def bodyNeeds (id : DeclId) : List Need :=
  match (session.program.decl id).kind.body? with
  | some body => (session.program.nodes body).flatMap fun stmt => session.nodeNeeds id stmt.kind
  | none => []

def declUses (rootChains : List ChainId) (id : DeclId) : List MacroUse :=
  let decl := session.program.decl id
  let stop := match session.renameOf? rootChains id, decl.declarator with
    | some _, some spans => spans.bare.stop
    | _, _ => decl.span.stop
  session.program.usesBetween ⟨decl.item, decl.span.start⟩ ⟨decl.item, stop⟩

end Session

namespace Memo

variable (session : Session) (rootChains : List ChainId)

def knownTypes (memo : Memo) (context : Option DeclId) : List TypeId :=
  (memo.types.filter (·.2 == context)).map (·.1)

/-- The parts of a type, down to those that were met in the same context. -/
def freshTypes (memo : Memo) (id : TypeId) (context : Option DeclId) : List TypeId :=
  session.program.componentsFrom (1 + (session.program.types.toList.flatMap (·.parts)).length) (memo.knownTypes context)
    [id]

def visitType (memo : Memo) (id : TypeId) (context : Option DeclId) : Memo :=
  { memo with
    marking := memo.marking.markAll ((memo.freshTypes session id context).flatMap fun part =>
      session.typeNodeDecls context (session.program.type part))
    types := (memo.freshTypes session id context).map (·, context) ++ memo.types }

def meet (memo : Memo) : Need → Memo
  | .decls ids => { memo with marking := memo.marking.markAll ids }
  | .type id context => memo.visitType session id context

def knownMacros (memo : Memo) (pos : SourcePos) : List MacroId :=
  (memo.expansions.filter (·.2 == pos)).map (·.1)

/-- The definitions that a name uses at a position, down to those that were followed there. -/
def freshMacros (memo : Memo) (name : String) (pos : SourcePos) : List MacroId :=
  session.expansionFrom pos (1 + (session.program.macros.toList.flatMap (·.names)).length) (memo.knownMacros pos) [name]

def expand (memo : Memo) (occurrence : MacroUse) : Memo :=
  let fresh := memo.freshMacros session occurrence.name occurrence.pos
  { memo with
    marking := { memo.marking with macros := memo.marking.macros.insertAll fresh }
    expansions := fresh.map (·, occurrence.pos) ++ memo.expansions }

/-- Meets what a marked declaration needs, its body apart. -/
def process (memo : Memo) (id : DeclId) : Memo :=
  let met := (session.declUses rootChains id).foldl (expand session) ((session.declNeeds id).foldl (meet session) memo)
  let marked := met.marking
  { met with
    marking := { marked with
      pending := if session.needsBody rootChains id then marked.pending.insert id else marked.pending
      renames :=
        match session.renameOf? rootChains id with
        | some rename => insertRename rename marked.renames
        | none => marked.renames } }

def drainFor : Nat → Memo → Memo
  | 0, memo => memo
  | fuel + 1, memo =>
    match memo.marking.queue with
    | [] => memo
    | id :: queue => drainFor fuel (process session rootChains { memo with marking := { memo.marking with queue } } id)

def drain (memo : Memo) : Memo :=
  drainFor session rootChains session.program.decls.size memo

/-- Meets what one body needs, unless it was walked, and then what that needs. -/
def walkBody (memo : Memo) (id : DeclId) : Memo :=
  if memo.walked.contains id then drain session rootChains memo
  else
    let met := (session.bodyNeeds id).foldl (meet session) memo
    drain session rootChains { met with walked := id :: met.walked }

def pass (memo : Memo) : Memo :=
  let walked := memo.marking.pending.foldl (walkBody session rootChains)
    { memo with marking := { memo.marking with pending := [] } }
  { walked with
    marking := { walked.marking with
      passSizes := walked.marking.passSizes ++ [session.expandedCount walked.marking] } }

def passesFor : Nat → Memo → Memo
  | 0, memo => memo
  | fuel + 1, memo =>
    if memo.marking.pending.isEmpty then memo else passesFor fuel (pass session rootChains memo)

def settle (memo : Memo) : Memo :=
  passesFor session rootChains session.program.decls.size (drain session rootChains memo)

def markMacroEnums (memo : Memo) : Memo :=
  let decls := (memo.marking.macros.filter session.isMacroExpanded).flatMap session.macroDecls
  drain session rootChains { memo with marking := memo.marking.markAll decls }

def saturateFor : Nat → Memo → Memo
  | 0, memo => memo
  | fuel + 1, memo =>
    let settled := settle session rootChains memo
    let extended := markMacroEnums session rootChains settled
    if extended.marking.decls.length = settled.marking.decls.length ∧ extended.marking.pending = [] then extended
    else saturateFor fuel extended

def closureOf (roots : List DeclId) : Closure :=
  let rootChains := roots.map fun id => (session.program.decl id).chain
  let start : Memo := { marking := ({} : Marking).markAll (roots.flatMap session.upTo) }
  let marking := (saturateFor session rootChains (session.program.decls.size + 1) start).marking
  { roots
    decls := marking.decls
    macros := marking.macros
    needsUndef := marking.macros.filter session.isReplaced
    renames := marking.renames
    passSizes := marking.passSizes }

def closure (functions : List String) : Except Error Closure :=
  (functions.mapM session.root).map (closureOf session)

end Memo

end Excerpt
