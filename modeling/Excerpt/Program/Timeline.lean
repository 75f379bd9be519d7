import Excerpt.Data.Sorted
import Excerpt.Error
import Excerpt.Program.Basic

/-!
The directives of a macro name in order of position. One is in force from its own position up to the next.
-/

namespace Excerpt.Program

variable (program : Program)

/-- The directives of a name by position; those at one position keep the order of the table. -/
def timeline (name : String) : List MacroId :=
  stableSort (fun first second => (program.directive first).pos.atOrBefore (program.directive second).pos)
    ((List.range program.macros.size).filter fun id => (program.directive id).name == name)

def isMacro (name : String) : Bool :=
  program.macros.any (·.name == name)

def directiveAt? (name : String) (pos : SourcePos) : Option MacroId :=
  ((program.timeline name).takeWhile fun id => (program.directive id).pos.atOrBefore pos).getLast?

def visibleDefinition? (name : String) (pos : SourcePos) : Option MacroId :=
  (program.directiveAt? name pos).filter fun id => (program.directive id).isDefine

/-- The visible definition, or an error that names the position. -/
def resolveMacro (name : String) (pos : SourcePos) : Except Error MacroId :=
  match program.visibleDefinition? name pos with
  | some id => .ok id
  | none => .error (.noVisibleDefinition name (program.posLocation pos))

def laterDirectives (id : MacroId) : List MacroId :=
  (program.timeline (program.directive id).name).dropWhile
    fun other => (program.directive other).pos.atOrBefore (program.directive id).pos

def nextDirective? (id : MacroId) : Option MacroId :=
  (program.laterDirectives id).head?

def laterDefinitions (id : MacroId) : List MacroId :=
  (program.laterDirectives id).filter fun other => (program.directive other).isDefine

end Excerpt.Program
