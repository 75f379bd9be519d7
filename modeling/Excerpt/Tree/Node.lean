/-!
Concrete trees of C text, as a grammar delivers them. Keywords and punctuation are nodes without a name of their own.
-/

namespace Excerpt

structure Extent where
  start : Nat
  stop : Nat
deriving DecidableEq, Repr, Inhabited

structure Label where
  /-- Field of the parent that the node fills. -/
  field : Option String
  /-- False for keywords and punctuation. -/
  named : Bool
  kind : String
deriving DecidableEq, Repr, Inhabited

namespace Label

/-- Reads `field.kind` or `kind`; an apostrophe before the kind marks keywords and punctuation. -/
def ofText (text : List Char) : Label :=
  let (field, kind) :=
    if text.head? = some '\'' ∨ '.' ∉ text then (none, text)
    else (some (String.ofList (text.takeWhile (· ≠ '.'))), (text.dropWhile (· ≠ '.')).drop 1)
  match kind with
  | '\'' :: kind => ⟨field, false, String.ofList kind⟩
  | kind => ⟨field, true, String.ofList kind⟩

end Label

inductive Node where
  | node (label : Label) (extent : Extent) (children : List Node)
deriving Repr, Inhabited

namespace Node

def label : Node → Label
  | .node label _ _ => label

def extent : Node → Extent
  | .node _ extent _ => extent

def children : Node → List Node
  | .node _ _ children => children

def kind (node : Node) : String :=
  node.label.kind

def named (node : Node) : Bool :=
  node.label.named

def child? (node : Node) (field : String) : Option Node :=
  node.children.find? fun child => child.label.field == some field

/-- One node of a tree written in pre-order. -/
structure Line where
  depth : Nat
  label : Label
  extent : Extent
deriving DecidableEq, Repr, Inhabited

/-- Puts a line in front of the subtrees after it: those deeper than the line become its children. -/
def graft (line : Line) (forest : List (Nat × Node)) : List (Nat × Node) :=
  let deeper := forest.takeWhile (line.depth < ·.1)
  let rest := forest.dropWhile (line.depth < ·.1)
  (line.depth, .node line.label line.extent (deeper.map (·.2))) :: rest

/-- The tree whose nodes are listed in pre-order with their depths. -/
def ofLines (lines : List Line) : Option Node :=
  (lines.foldr graft []).head?.map (·.2)

end Node

end Excerpt
