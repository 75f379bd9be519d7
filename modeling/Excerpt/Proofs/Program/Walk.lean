import Excerpt.Program.Walk
import Excerpt.Proofs.Data.Search

namespace Excerpt

namespace Program

variable (program : Program)

def HasPart (first second : TypeId) : Prop :=
  second ∈ (program.type first).parts

theorem type_of_size_le {id : TypeId} (outside : program.types.size ≤ id) : program.type id = .builtin "" := by
  simp only [type, Array.getD, Nat.not_lt.mpr outside, ↓reduceDIte]
  rfl

theorem componentsFrom_eq_searchFrom (fuel : Nat) (seen stack : List TypeId) :
    program.componentsFrom fuel seen stack =
      searchFrom some (fun id => (program.type id).parts) fuel seen stack := by
  induction fuel generalizing seen stack with
  | zero => simp [componentsFrom, searchFrom]
  | succ fuel ih =>
    cases stack with
    | nil => simp [componentsFrom, searchFrom]
    | cons id stack => simp only [componentsFrom, searchFrom, ih]

theorem parts_of_size_le (id : TypeId) (outside : program.types.size ≤ id) : (program.type id).parts = [] := by
  rw [program.type_of_size_le outside]
  rfl

theorem unseenKeys_parts : unseenKeys (fun id => (program.type id).parts) program.types.size [] =
    (program.types.toList.flatMap (·.parts)).length := by
  rw [List.length_flatMap, sum_weights_eq_sum_range _ _ default, unseenKeys]
  simp [type, Array.getD_eq_getD_getElem?, List.getD_eq_getElem?_getD]

theorem mem_components_iff {id part : TypeId} :
    part ∈ program.components id ↔ Relation.ReflTransGen program.HasPart id part := by
  have steps : KeyStep some (fun id => (program.type id).parts) = program.HasPart := by
    funext first second
    simp [KeyStep, HasPart]
  rw [components, componentsFrom_eq_searchFrom, mem_searchFrom_iff program.parts_of_size_le, Leads, steps]
  · simp
  · rw [unseenKeys_parts]

end Program

namespace Stmt

variable {node : Stmt} {after : StmtKind → List Stmt}

def HasChild (first second : Stmt) : Prop :=
  second ∈ first.children

def Declares (stmt : Stmt) (id : DeclId) : Prop :=
  ∃ node ∈ stmt.preorder, node.kind = .localDecl id

theorem mem_preorderAll {stmts : List Stmt} :
    node ∈ preorderAll stmts ↔ ∃ stmt ∈ stmts, node ∈ stmt.preorder := by
  induction stmts with
  | nil => simp [preorderAll]
  | cons stmt rest ih => simp [preorderAll, ih]

theorem mem_preorder {stmt : Stmt} :
    node ∈ stmt.preorder ↔ node = stmt ∨ ∃ child ∈ stmt.children, node ∈ child.preorder := by
  cases stmt with
  | node kind span children => simp [preorder, mem_preorderAll, Stmt.children]

theorem self_mem_preorder (stmt : Stmt) : stmt ∈ stmt.preorder :=
  mem_preorder.mpr (.inl rfl)

theorem exists_mem_preorder {kind : StmtKind} {span : Span} {children : List Stmt} (holds : StmtKind → Prop) :
    (∃ inner ∈ (Stmt.node kind span children).preorder, holds inner.kind) ↔
      holds kind ∨ ∃ child ∈ children, ∃ inner ∈ child.preorder, holds inner.kind := by
  simp only [preorder, List.exists_mem_cons_iff, Stmt.kind, mem_preorderAll]
  refine or_congr_right ⟨?_, ?_⟩
  · rintro ⟨inner, ⟨child, isChild, member⟩, here⟩
    exact ⟨child, isChild, inner, member, here⟩
  · rintro ⟨child, isChild, inner, member, here⟩
    exact ⟨inner, ⟨child, isChild, member⟩, here⟩

theorem declares_node {kind : StmtKind} {span : Span} {children : List Stmt} {id : DeclId} :
    (Stmt.node kind span children).Declares id ↔ kind = .localDecl id ∨ ∃ child ∈ children, child.Declares id :=
  exists_mem_preorder (· = .localDecl id)

theorem declares_leaf {kind : StmtKind} {span : Span} {id : DeclId} :
    (leaf kind span).Declares id ↔ kind = .localDecl id := by
  simp [leaf, declares_node]

mutual

theorem mem_nodesWith :
    ∀ {stmt : Stmt}, node ∈ stmt.nodesWith after ↔ ∃ inner ∈ stmt.preorder, node = inner ∨ node ∈ after inner.kind
  | .node kind span children => by
    rw [nodesWith, preorder, List.mem_cons, List.mem_append, mem_nodesAllWith, List.exists_mem_cons_iff]
    exact (or_congr_right or_comm).trans or_assoc.symm

theorem mem_nodesAllWith : ∀ {stmts : List Stmt},
      node ∈ nodesAllWith after stmts ↔ ∃ inner ∈ preorderAll stmts, node = inner ∨ node ∈ after inner.kind
  | [] => by simp [nodesAllWith, preorderAll]
  | stmt :: rest => by
    rw [nodesAllWith, preorderAll, List.mem_append, mem_nodesWith, mem_nodesAllWith]
    simp only [List.mem_append, or_and_right, exists_or]

end

mutual

theorem mem_reverseNodesWith :
    ∀ {stmt : Stmt}, node ∈ stmt.reverseNodesWith after ↔ node ∈ stmt.nodesWith after
  | .node kind span children => by
    rw [reverseNodesWith, nodesWith, List.mem_cons, List.mem_append, mem_reverseNodesAllWith, List.mem_cons,
      List.mem_append]

theorem mem_reverseNodesAllWith :
    ∀ {stmts : List Stmt}, node ∈ reverseNodesAllWith after stmts ↔ node ∈ nodesAllWith after stmts
  | [] => by simp [reverseNodesAllWith, nodesAllWith]
  | stmt :: rest => by
    rw [reverseNodesAllWith, nodesAllWith, List.mem_append, List.mem_append, mem_reverseNodesWith,
      mem_reverseNodesAllWith]
    exact or_comm

end

mutual

theorem reaches_of_mem_preorder :
    ∀ {stmt : Stmt}, node ∈ stmt.preorder → Relation.ReflTransGen HasChild stmt node
  | .node kind span children => by
    intro member
    rw [preorder, List.mem_cons] at member
    rcases member with same | member
    · rw [same]
    · obtain ⟨child, isChild, chain⟩ := reaches_of_mem_preorderAll member
      exact .head isChild chain

theorem reaches_of_mem_preorderAll :
    ∀ {stmts : List Stmt}, node ∈ preorderAll stmts → ∃ stmt ∈ stmts, Relation.ReflTransGen HasChild stmt node
  | [] => by simp [preorderAll]
  | stmt :: rest => by
    intro member
    rw [preorderAll, List.mem_append] at member
    rcases member with member | member
    · exact ⟨stmt, List.mem_cons_self, reaches_of_mem_preorder member⟩
    · obtain ⟨other, isOther, chain⟩ := reaches_of_mem_preorderAll member
      exact ⟨other, List.mem_cons_of_mem _ isOther, chain⟩

end

end Stmt

namespace Program

variable (program : Program) {stmt node : Stmt} {depth : Nat}

/-- The second node is a child of the first, or the initializer of the variable that the first declares. -/
def StmtStep (first second : Stmt) : Prop :=
  first.HasChild second ∨ program.localInit? first.kind = some second

/-- A variable declared inside the initializer of another is declared after it. -/
def LocalsAscend : Prop :=
  ∀ (id : Nat) type init, (program.decl id).kind = .var type (some init) → ∀ inner, init.Declares inner → id < inner

variable {program}

theorem decl_of_size_le {id : DeclId} (outside : program.decls.size ≤ id) : program.decl id = default := by
  simp only [decl, Array.getD, Nat.not_lt.mpr outside, ↓reduceDIte]

theorem localInit?_eq_some {kind : StmtKind} {init : Stmt} (found : program.localInit? kind = some init) :
    ∃ (id : Nat) (type : TypeId), kind = .localDecl id ∧ id < program.decls.size ∧
      (program.decl id).kind = .var type (some init) := by
  cases kind with
  | localDecl id =>
    cases declared : (program.decl id).kind with
    | var type value =>
      simp only [localInit?, declared] at found
      refine ⟨id, type, rfl, ?_, by rw [found] at declared; exact declared⟩
      by_contra outside
      rw [program.decl_of_size_le (Nat.not_lt.mp outside)] at declared
      cases declared
    | function => simp [localInit?, declared] at found
    | record => simp [localInit?, declared] at found
    | enumeration => simp [localInit?, declared] at found
    | enumConstant => simp [localInit?, declared] at found
    | typedef => simp [localInit?, declared] at found
  | block => simp [localInit?] at found
  | declRef => simp [localInit?] at found
  | typeRef => simp [localInit?] at found
  | intLiteral => simp [localInit?] at found
  | call => simp [localInit?] at found
  | expansion => simp [localInit?] at found
  | other => simp [localInit?] at found

theorem mem_nodesTo_zero : node ∈ program.nodesTo 0 stmt ↔ node ∈ stmt.preorder := by
  simp [nodesTo, Stmt.mem_nodesWith]

theorem mem_nodesTo_succ : node ∈ program.nodesTo (depth + 1) stmt ↔
      ∃ inner ∈ stmt.preorder,
        node = inner ∨ ∃ init, program.localInit? inner.kind = some init ∧ node ∈ program.nodesTo depth init := by
  rw [nodesTo, Stmt.mem_nodesWith]
  refine exists_congr fun inner => and_congr_right fun _ => or_congr_right ?_
  cases program.localInit? inner.kind <;> simp

theorem mem_reverseNodesTo :
    node ∈ program.reverseNodesTo depth stmt ↔ node ∈ program.nodesTo depth stmt := by
  induction depth generalizing stmt with
  | zero => simp [reverseNodesTo, nodesTo, Stmt.mem_reverseNodesWith]
  | succ depth ih =>
    rw [mem_nodesTo_succ, reverseNodesTo, Stmt.mem_reverseNodesWith, Stmt.mem_nodesWith]
    refine exists_congr fun inner => and_congr_right fun _ => or_congr_right ?_
    cases program.localInit? inner.kind <;> simp [ih]

theorem reaches_of_hasChild (chain : Relation.ReflTransGen Stmt.HasChild stmt node) :
    Relation.ReflTransGen program.StmtStep stmt node :=
  Relation.ReflTransGen.mono (fun _ _ isChild => Or.inl isChild) _ _ chain

theorem reaches_of_mem_nodesTo (member : node ∈ program.nodesTo depth stmt) :
    Relation.ReflTransGen program.StmtStep stmt node := by
  induction depth generalizing stmt with
  | zero => exact reaches_of_hasChild (Stmt.reaches_of_mem_preorder (mem_nodesTo_zero.mp member))
  | succ depth ih =>
    obtain ⟨inner, isInner, same | ⟨init, found, member⟩⟩ := mem_nodesTo_succ.mp member
    · rw [same]
      exact reaches_of_hasChild (Stmt.reaches_of_mem_preorder isInner)
    · exact (reaches_of_hasChild (Stmt.reaches_of_mem_preorder isInner)).trans (.head (.inr found) (ih member))

/-- A chain of steps stays in the tree, or leaves it once through an initializer. -/
theorem preorder_of_reaches (chain : Relation.ReflTransGen program.StmtStep stmt node) :
    ∃ inner ∈ stmt.preorder, node = inner ∨
      ∃ init, program.localInit? inner.kind = some init ∧ Relation.ReflTransGen program.StmtStep init node := by
  induction chain using Relation.ReflTransGen.head_induction_on with
  | refl => exact ⟨node, node.self_mem_preorder, .inl rfl⟩
  | head step rest ih =>
    rcases step with isChild | found
    · obtain ⟨inner, isInner, split⟩ := ih
      exact ⟨inner, Stmt.mem_preorder.mpr (.inr ⟨_, isChild, isInner⟩), split⟩
    · exact ⟨_, Stmt.self_mem_preorder _, .inr ⟨_, found, rest⟩⟩

/-- Each initializer on the way is that of a later variable, so a depth of as many steps as there are declarations
reaches every node. -/
theorem mem_nodesTo_of_reaches (ordered : program.LocalsAscend)
    (late : ∀ id : Nat, stmt.Declares id → program.decls.size ≤ id + depth)
    (chain : Relation.ReflTransGen program.StmtStep stmt node) :
    node ∈ program.nodesTo depth stmt := by
  induction depth generalizing stmt with
  | zero =>
    obtain ⟨inner, isInner, same | ⟨init, found, -⟩⟩ := preorder_of_reaches chain
    · exact mem_nodesTo_zero.mpr (same ▸ isInner)
    · obtain ⟨id, type, declares, inside, -⟩ := localInit?_eq_some found
      have := late id ⟨inner, isInner, declares⟩
      omega
  | succ depth ih =>
    obtain ⟨inner, isInner, same | ⟨init, found, rest⟩⟩ := preorder_of_reaches chain
    · exact mem_nodesTo_succ.mpr ⟨inner, isInner, .inl same⟩
    · refine mem_nodesTo_succ.mpr ⟨inner, isInner, .inr ⟨init, found, ih ?_ rest⟩⟩
      -- The variables of the initializer come after the one that it belongs to.
      intro later declared
      obtain ⟨id, type, declares, -, kind⟩ := localInit?_eq_some found
      have := late id ⟨inner, isInner, declares⟩
      have := ordered id type init kind later declared
      omega

theorem mem_nodes_iff (ordered : program.LocalsAscend) :
    node ∈ program.nodes stmt ↔ Relation.ReflTransGen program.StmtStep stmt node :=
  ⟨reaches_of_mem_nodesTo, mem_nodesTo_of_reaches ordered fun id _ => Nat.le_add_left _ id⟩

theorem mem_reverseNodes_iff (ordered : program.LocalsAscend) :
    node ∈ program.reverseNodes stmt ↔ Relation.ReflTransGen program.StmtStep stmt node :=
  mem_reverseNodesTo.trans (mem_nodes_iff ordered)

end Program

end Excerpt
