import Excerpt.Emission.Edit

/-!
The emitted text of a closure: chunks in the order of the items that they come from, an empty line between two of them.
-/

namespace Excerpt

/-- Where a chunk of output comes from. -/
inductive ChunkOrigin where
  /-- A line that removes a macro before an item. -/
  | undef (name : String) (item : ItemId)
  | inclusion (id : IncludeId) (item : ItemId)
  | directive (id : MacroId) (item : ItemId)
  /-- A pointer in place of a declaration. -/
  | pointer (id : DeclId) (item : ItemId)
  /-- An item with all its declarations, uses of pointers replaced. -/
  | whole (item : ItemId)
  /-- Some declarators of an item behind its specifiers. -/
  | selection (item : ItemId)
  /-- The tags that the specifiers of an item define. -/
  | tags (item : ItemId)
deriving DecidableEq, Repr, Inhabited

structure Chunk where
  origin : ChunkOrigin
  text : List Char
deriving DecidableEq, Repr, Inhabited

namespace Session

variable (session : Session) (closure : Closure)

/-- Where the removal of a macro goes: before the item that stands for the next directive of its name. -/
def undefSlot? (id : MacroId) : Option ItemId :=
  (session.program.nextDirective? id).map fun next =>
    session.program.emissionSlot session.keepIncludes (session.program.directive next).item

/-- Macros to remove before an item, ascending and each once. -/
def undefsBefore (item : ItemId) : List String :=
  (stableSort (fun first second => decide (first ≤ second))
    ((closure.needsUndef.filter fun id => session.undefSlot? id == some item).map
      fun id => (session.program.directive id).name)).eraseDups

/-- A file that holds something of the closure. -/
def isNeeded (file : FileId) : Bool :=
  (closure.decls.any fun id => (session.program.decl id).span.file == file) ||
    closure.macros.any fun id => (session.program.directive id).span.file == file

/-- The directive stays in the output: it is not expanded, and its header is unknown or brings in a needed file. -/
def keepsInclusion (id : IncludeId) : Bool :=
  !session.program.isInclusionExpanded session.keepIncludes id &&
    ((session.program.inclusion id).resolved.isNone ||
      (List.range session.program.files.size).any fun file =>
        session.isNeeded closure file && session.program.inSubtree id file)

def pointerChunk? (item : ItemId) (id : DeclId) (rename : Rename) : Option Chunk :=
  (session.program.decl id).declarator.bind fun spans =>
    let host := session.program.item item
    (session.program.pointerDeclaration? id ⟨host.file, host.span.start, spans.full.start⟩ rename).map
      fun text => ⟨.pointer id item, text⟩

/-- What becomes of the declarators of an item. -/
structure ItemParts where
  /-- Declarations that stay as they are. -/
  printed : List DeclId := []
  pointers : List Chunk := []
  /-- Chains whose pointer has been printed. -/
  done : List ChainId

/-- Splits marked declarations into those that stay and those behind a pointer, which is printed once. -/
def splitParts (item : ItemId) (done : List ChainId) : List DeclId → ItemParts
  | [] => { done }
  | id :: rest =>
    match closure.renameFor? session.program id with
    | none =>
      let parts := splitParts item done rest
      { parts with printed := id :: parts.printed }
    | some rename =>
      let chain := (session.program.decl id).chain
      if done.contains chain then splitParts item done rest
      else
        let parts := splitParts item (chain :: done) rest
        { parts with pointers := (session.pointerChunk? item id rename).toList ++ parts.pointers }

def declarators (decls : List DeclId) : List DeclId :=
  decls.filter fun id => (session.program.decl id).declarator.isSome

/-- The chunk for the declarations of an item that stay, if any. -/
def printedChunk? (item : ItemId) (decls : List DeclId) (parts : ItemParts) : Option Chunk :=
  let program := session.program
  let host := program.item item
  let named := session.declarators decls
  if (parts.printed.any fun id => (program.decl id).kind.hasBody) || parts.printed.length = named.length then
    some ⟨.whole item, Edit.applyAll program host.span (closure.edits program parts.printed)⟩
  else
    let spans := named.filterMap fun id => (program.decl id).declarator
    let first := (spans.head?.map (·.full.start)).getD host.span.stop
    let specifiers := program.text ⟨host.file, host.span.start, first⟩
    if parts.printed.isEmpty then
      if parts.pointers.isEmpty &&
          decls.any fun id => closure.decls.contains id && (program.decl id).kind.isTag then
        some ⟨.tags item, Text.stripStorageAndTypedef specifiers ++ [';']⟩
      else none
    else
      let edits := closure.edits program parts.printed
      let texts := (parts.printed.filterMap fun id => (program.decl id).declarator).map
        fun spans => Edit.applyAll program spans.full edits
      some ⟨.selection item, specifiers ++ List.intercalate [',', ' '] texts ++ [';']⟩

/-- The chunks of an item's declarations, and the chains whose pointer has been printed. -/
def declChunks (done : List ChainId) (item : ItemId) (decls : List DeclId) : List Chunk × List ChainId :=
  let parts := session.splitParts closure item done ((session.declarators decls).filter closure.decls.contains)
  (parts.pointers ++ (session.printedChunk? closure item decls parts).toList, parts.done)

/-- The chunks of an item, and the chains whose pointer has been printed. `kept` are the declarations to print. -/
def itemChunks (kept : IdSet) (done : List ChainId) (item : ItemId) : List Chunk × List ChainId :=
  let host := session.program.item item
  let undefs := (session.undefsBefore closure item).map
    fun name => Chunk.mk (.undef name item) ("#undef " ++ name).toList
  if session.program.isFileExpanded session.keepIncludes host.file then
    match host.kind with
    | .inclusion id =>
      if session.keepsInclusion closure id then
        (undefs ++ [⟨.inclusion id item, session.program.text host.span⟩], done)
      else (undefs, done)
    | .directive id =>
      if closure.macros.contains id then
        (undefs ++ [⟨.directive id item, session.program.text host.span⟩], done)
      else (undefs, done)
    | .decls members =>
      if members.any kept.contains then
        let (chunks, done) := session.declChunks closure done item members
        (undefs ++ chunks, done)
      else (undefs, done)
    | .other => (undefs, done)
  else (undefs, done)

def chunksFrom (kept : IdSet) (done : List ChainId) : List ItemId → List Chunk
  | [] => []
  | item :: rest =>
    let (chunks, done) := session.itemChunks closure kept done item
    chunks ++ chunksFrom kept done rest

def chunks (kept : IdSet) : List Chunk :=
  session.chunksFrom closure kept [] (List.range session.program.items.size)

end Session

/-- The chunks' texts without blanks around them, an empty line between two of them. -/
def renderChunks (chunks : List Chunk) : List Char :=
  match (chunks.map fun chunk => Text.trim chunk.text).filter (!·.isEmpty) with
  | [] => []
  | texts => List.intercalate ['\n', '\n'] texts ++ ['\n']

namespace Session

variable (session : Session)

def emit (closure : Closure) (kept : IdSet) : List Char :=
  renderChunks (session.chunks closure kept)

end Session

end Excerpt
