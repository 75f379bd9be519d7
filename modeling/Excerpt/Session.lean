import Excerpt.Program.Pointer
import Excerpt.Program.Region

namespace Excerpt

structure Session where
  program : Program
  /-- Headers stay behind their directives. -/
  keepIncludes : Bool
  policy : PointerPolicy

namespace Session

variable (session : Session)

def isExpanded (pos : SourcePos) : Bool :=
  session.program.isExpanded session.keepIncludes pos

def isDeclExpanded (id : DeclId) : Bool :=
  session.isExpanded (session.program.decl id).pos

def isMacroExpanded (id : MacroId) : Bool :=
  session.isExpanded (session.program.directive id).pos

def mainPath : String :=
  (session.program.files[0]?.map (·.path)).getD ""

end Session

end Excerpt
