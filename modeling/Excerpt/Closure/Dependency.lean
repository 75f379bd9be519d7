import Excerpt.Program.EnumValue
import Excerpt.Program.Timeline
import Excerpt.Program.Walk
import Excerpt.Session

/-!
What a declaration needs. Each rule is a list of declarations in the order in which they are met. Using an entity needs
its definition, or its latest declaration, and all declarations of it before that.
-/

namespace Excerpt.Session

variable (session : Session)

def upTo (id : DeclId) : List DeclId :=
  (session.program.redecls id).takeWhile (· ≤ id)

/-- What a use of `id` needs: its entity up to the representative, and up to `id` itself. -/
def entity (id : DeclId) : List DeclId :=
  match session.program.representative? (session.program.decl id).chain with
  | some representative =>
    session.upTo representative ++ (if representative < id then session.upTo id else [])
  | none => []

/-- The function in which `id` looks up enum constants. -/
def lookupContext (id : DeclId) : Option DeclId :=
  let decl := session.program.decl id
  match decl.context with
  | some function => some function
  | none => if decl.kind.hasBody then some id else none

def owner? (id : DeclId) : Option DeclId :=
  match (session.program.decl id).kind with
  | .enumConstant _ owner _ => some owner
  | _ => none

def arraySizeDecls (value : Int64) (context : Option DeclId) : List DeclId :=
  match (session.program.enumConstant? value context).bind session.owner? with
  | some owner => session.entity owner
  | none => []

def typeNodeDecls (context : Option DeclId) : CType → List DeclId
  | .array _ (some value) => session.arraySizeDecls value context
  | .record decl => session.entity decl
  | .enumeration decl => session.entity decl
  | .typedef decl => session.entity decl
  | _ => []

def typeDecls (id : TypeId) (context : Option DeclId) : List DeclId :=
  (session.program.components id).flatMap fun part => session.typeNodeDecls context (session.program.type part)

def declDecls (id : DeclId) : List DeclId :=
  let context := session.lookupContext id
  match (session.program.decl id).kind with
  | .function type _ _ => session.typeDecls type context
  | .var type _ => session.typeDecls type context
  | .record _ fields _ => fields.flatMap fun field => session.typeDecls field.type context
  | .enumeration constants _ => constants.flatMap session.upTo
  | .enumConstant _ owner _ => session.entity owner
  | .typedef underlying => session.typeDecls underlying context

/-- What one node of the body of `id` needs. Local names count only when the entity also stands at file scope. -/
def nodeDecls (id : DeclId) : StmtKind → List DeclId
  | .declRef decl _ =>
    if (session.program.redecls decl).any fun member => (session.program.decl member).isFileScope then
      session.entity decl
    else []
  | .localDecl decl =>
    match (session.program.decl decl).kind with
    | .var type _ => session.typeDecls type (session.lookupContext decl)
    | _ => session.upTo decl
  | .typeRef type => session.typeDecls type (session.lookupContext id)
  | _ => []

def bodyDecls (id : DeclId) : List DeclId :=
  match (session.program.decl id).kind.body? with
  | some body => (session.program.nodes body).flatMap fun stmt => session.nodeDecls id stmt.kind
  | none => []

/-- The definitions visible at `pos` under the names on `stack`, and those that their replacements use there, for at
most `fuel` steps. -/
def expansionFrom (pos : SourcePos) : Nat → List MacroId → List String → List MacroId
  | fuel + 1, seen, name :: stack =>
    match session.program.visibleDefinition? name pos with
    | some id =>
      if seen.contains id then expansionFrom pos fuel seen stack
      else id :: expansionFrom pos fuel (id :: seen) ((session.program.directive id).names ++ stack)
    | none => expansionFrom pos fuel seen stack
  | _, _, _ => []

/-- The definitions that expanding `name` at `pos` uses, each once. Every step takes a name from a replacement met for
the first time. -/
def expansion (name : String) (pos : SourcePos) : List MacroId :=
  session.expansionFrom pos (1 + (session.program.macros.toList.flatMap (·.names)).length) [] [name]

def macrosBetween (item : ItemId) (start stop : Nat) : List MacroId :=
  (session.program.usesBetween ⟨item, start⟩ ⟨item, stop⟩).flatMap
    fun occurrence => session.expansion occurrence.name occurrence.pos

/-- Enumerations whose constants the replacement of a macro names. -/
def macroDecls (id : MacroId) : List DeclId :=
  (session.program.directive id).names.flatMap fun name =>
    ((session.program.fileScope name).filterMap session.owner?).flatMap session.entity

end Excerpt.Session
