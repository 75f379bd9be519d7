import Excerpt.Data.Sorted
import Excerpt.Program.Basic

/-!
Growing a program. A new entry's number is the size of its table before the call.
-/

namespace Excerpt.Program

variable (program : Program)

def addFile (path : String) (text : List Char) (includedBy : Option IncludeId) : Program :=
  { program with files := program.files.push ⟨path, text, includedBy⟩ }

def addItem (file : FileId) (span : Span) (kind : ItemKind) : Program :=
  { program with items := program.items.push ⟨file, span, kind⟩ }

/-- The number of a type; equal types share one. -/
def addType (type : CType) : TypeId × Program :=
  match program.types.findIdx? (· == type) with
  | some id => (id, program)
  | none => (program.types.size, { program with types := program.types.push type })

/-- Adds a declaration, to the chain of `previous` or to a chain of its own. -/
def addDecl (decl : Decl) (previous : Option DeclId) : Program :=
  let id := program.decls.size
  match previous with
  | some earlier =>
    let chain := (program.decl earlier).chain
    { program with
      decls := program.decls.push { decl with chain }
      chains := program.chains.modify chain (· ++ [id]) }
  | none =>
    { program with
      decls := program.decls.push { decl with chain := program.chains.size }
      chains := program.chains.push [id] }

def addMacro (directive : MacroDirective) : Program :=
  { program with macros := program.macros.push directive }

def addUse (occurrence : MacroUse) : Program :=
  { program with uses := program.uses ++ [occurrence] }

def addInclude (inclusion : Inclusion) : Program :=
  { program with includes := program.includes.push inclusion }

def setItemKind (id : ItemId) (kind : ItemKind) : Program :=
  { program with items := program.items.modify id fun item => { item with kind } }

def setIncludedFile (id : IncludeId) (file : FileId) : Program :=
  { program with includes := program.includes.modify id fun inclusion => { inclusion with file := some file } }

def modifyDecl (id : DeclId) (change : Decl → Decl) : Program :=
  { program with decls := program.decls.modify id change }

/-- Orders the macro uses by position; uses at one position keep their order. -/
def finish : Program :=
  { program with uses := stableSort (fun first second => first.pos.atOrBefore second.pos) program.uses }

end Excerpt.Program
