import Excerpt.Span

namespace Excerpt

abbrev DeclId := Nat
abbrev TypeId := Nat

inductive StmtKind where
  | block
  /-- A use of a declaration; it is spelled when it has a token of its own in the text. -/
  | declRef (decl : DeclId) (spelled : Bool)
  | localDecl (decl : DeclId)
  | typeRef (type : TypeId)
  | intLiteral (value : Int64)
  | call
  /-- A use of a macro; the children are what its replacement refers to. -/
  | expansion (name : String)
  | other
deriving DecidableEq, Repr, Inhabited

inductive Stmt where
  | node (kind : StmtKind) (span : Span) (children : List Stmt)
deriving Repr, Inhabited

namespace Stmt

def leaf (kind : StmtKind) (span : Span) : Stmt :=
  .node kind span []

def kind : Stmt → StmtKind
  | .node kind _ _ => kind

def span : Stmt → Span
  | .node _ span _ => span

def children : Stmt → List Stmt
  | .node _ _ children => children

mutual

def size : Stmt → Nat
  | .node _ _ children => 1 + sizeAll children

def sizeAll : List Stmt → Nat
  | [] => 0
  | stmt :: rest => stmt.size + sizeAll rest

end

mutual

/-- Every node, a parent before its children and the children from left to right. -/
def preorder : Stmt → List Stmt
  | .node kind span children => .node kind span children :: preorderAll children

def preorderAll : List Stmt → List Stmt
  | [] => []
  | stmt :: rest => stmt.preorder ++ preorderAll rest

end

theorem sizeAll_append (first second : List Stmt) : sizeAll (first ++ second) = sizeAll first + sizeAll second := by
  induction first with
  | nil => simp [sizeAll]
  | cons stmt rest ih => simp [sizeAll, ih, Nat.add_assoc]

/-- Takes nodes off a stack, the top first, and puts their children in their place. -/
def visitStack : List Stmt → List Stmt
  | [] => []
  | .node kind span children :: rest => .node kind span children :: visitStack (children ++ rest)
termination_by stack => sizeAll stack
decreasing_by simp [sizeAll, size, sizeAll_append]

/-- The nodes of a tree in the order in which a stack yields them. -/
def visit (stmt : Stmt) : List Stmt :=
  visitStack [stmt]

end Stmt

end Excerpt
