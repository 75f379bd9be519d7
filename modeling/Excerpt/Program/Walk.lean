import Excerpt.Program.Basic

namespace Excerpt

namespace CType

/-- The types that a type is made of directly, the last parameter of a function first and its result last. -/
def parts : CType → List TypeId
  | pointer target => [target]
  | array element _ => [element]
  | function result params _ => params.reverse ++ [result]
  | _ => []

end CType

namespace Stmt

mutual

/-- Every node, a parent before its children, with the nodes that `after` adds behind the children. -/
def nodesWith (after : StmtKind → List Stmt) : Stmt → List Stmt
  | .node kind span children => .node kind span children :: (nodesAllWith after children ++ after kind)

def nodesAllWith (after : StmtKind → List Stmt) : List Stmt → List Stmt
  | [] => []
  | stmt :: rest => stmt.nodesWith after ++ nodesAllWith after rest

end

mutual

def reverseNodesWith (after : StmtKind → List Stmt) : Stmt → List Stmt
  | .node kind span children => .node kind span children :: (reverseNodesAllWith after children ++ after kind)

def reverseNodesAllWith (after : StmtKind → List Stmt) : List Stmt → List Stmt
  | [] => []
  | stmt :: rest => reverseNodesAllWith after rest ++ stmt.reverseNodesWith after

end

end Stmt

namespace Program

variable (program : Program)

/-- Depth-first search over `stack` that leaves out the types in `seen`, for at most `fuel` steps. -/
def componentsFrom : Nat → List TypeId → List TypeId → List TypeId
  | fuel + 1, seen, id :: stack =>
    if seen.contains id then componentsFrom fuel seen stack
    else id :: componentsFrom fuel (id :: seen) ((program.type id).parts ++ stack)
  | _, _, _ => []

/-- A type and the types that it is made of, each once. Every step takes a part of a type met for the first time. -/
def components (id : TypeId) : List TypeId :=
  program.componentsFrom (1 + (program.types.toList.flatMap (·.parts)).length) [] [id]

/-- Initializer of a local variable that a node declares. -/
def localInit? : StmtKind → Option Stmt
  | .localDecl id =>
    match (program.decl id).kind with
    | .var _ init => init
    | _ => none
  | _ => none

/-- The nodes of a body down to `depth` initializers inside each other. -/
def nodesTo : Nat → Stmt → List Stmt
  | 0 => Stmt.nodesWith fun _ => []
  | depth + 1 => Stmt.nodesWith fun kind => ((program.localInit? kind).map (nodesTo depth)).getD []

/-- The nodes of a body and of the initializers of its local variables. -/
def nodes (stmt : Stmt) : List Stmt :=
  program.nodesTo program.decls.size stmt

def reverseNodesTo : Nat → Stmt → List Stmt
  | 0 => Stmt.reverseNodesWith fun _ => []
  | depth + 1 => Stmt.reverseNodesWith fun kind => ((program.localInit? kind).map (reverseNodesTo depth)).getD []

def reverseNodes (stmt : Stmt) : List Stmt :=
  program.reverseNodesTo program.decls.size stmt

end Program

end Excerpt
