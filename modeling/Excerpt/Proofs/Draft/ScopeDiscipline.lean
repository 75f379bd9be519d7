import Excerpt.Proofs.Draft.Tracing
import Excerpt.Proofs.Draft.Written

/-!
Functions refer to nothing inside each other. Between items only the scope of the file is open, and its names stand for
declarations outside all functions.
-/

namespace Excerpt

theorem Draft.Settled.scopes {draft : Draft} (settled : draft.Settled) : draft.scopes = [draft.fileScope] := by
  rw [Draft.scopes, settled.blocks]
  rfl

theorem Drafting.kept_settled : Kept (fun _ => True) Draft.Settled where
  names settled same := settled.congr same
  code item draft _ settled outside here := by
    have placed : item.Placed Extent.Anywhere Surface.AnyName :=
      ⟨trivial, Surface.Form.placed_anywhere _ fun _ _ => trivial⟩
    exact (item_coded settled outside here ⟨fun _ => trivial, fun _ _ => trivial⟩ placed).mono
      fun _ _ coded => coded.settled settled

namespace Program

/-- A type names a declaration, itself or through the types that it is made of. -/
def TypeNames (program : Program) (type : TypeId) (id : DeclId) : Prop :=
  ∃ part, Relation.ReflTransGen program.HasPart type part ∧ (program.type part).named? = some id

end Program

/-- A node refers to a declaration: by its name, by declaring it or in a type. -/
def StmtKind.RefersTo (program : Program) (id : DeclId) : StmtKind → Prop
  | .declRef decl _ => decl = id
  | .localDecl decl => decl = id
  | .typeRef type => program.TypeNames type id
  | _ => False

namespace Program

/-- A function refers to a declaration: in its body or in the initializers of its variables, or in its own type or that
of a parameter or of anything declared in it. -/
inductive FunctionRefersTo (program : Program) (function id : DeclId) : Prop
  | code {body node : Stmt} (found : (program.decl function).kind.body? = some body)
      (reached : Relation.ReflTransGen program.StmtStep body node) (refers : node.kind.RefersTo program id) :
      FunctionRefersTo program function id
  | type {inner : DeclId} {type : TypeId} (own : inner = function ∨ (program.decl inner).context = some function)
      (listed : type ∈ (program.decl inner).kind.declaredTypes) (named : program.TypeNames type id) :
      FunctionRefersTo program function id

section Confined

variable {program : Program} {function : Option DeclId}

theorem TypeVisible.visible {type : TypeId} {id : DeclId} (visible : program.TypeVisible function type)
    (names : program.TypeNames type id) : program.Visible function id := by
  obtain ⟨part, reached, found⟩ := names
  exact visible.named_of_part reached found

theorem visible_of_refersTo {kind : StmtKind} {span : Span} {id : DeclId} (sees : kind.Sees program function span)
    (refers : kind.RefersTo program id) : program.Visible function id := by
  cases kind with
  | declRef decl spelled => exact refers ▸ sees.1
  | localDecl decl => exact refers ▸ ⟨sees.1, .inr sees.2⟩
  | typeRef type => exact TypeVisible.visible sees refers
  | _ => cases refers

variable (confined : ∀ id : Nat, id < program.decls.size → program.Confined id)
include confined

theorem sees_of_stmtStep {stmt next : Stmt} (sees : stmt.Sees program function) (step : program.StmtStep stmt next) :
    next.Sees program function := by
  rcases step with isChild | found
  · exact fun node member => sees node (Stmt.mem_preorder.mpr (.inr ⟨next, isChild, member⟩))
  · obtain ⟨id, type, declares, known, kind⟩ := localInit?_eq_some found
    have own := sees stmt stmt.self_mem_preorder
    rw [declares] at own
    have body := (confined id known).body next (by rw [kind]; rfl)
    rw [home, kind] at body
    exact own.2 ▸ body

theorem sees_of_reaches {stmt node : Stmt} (sees : stmt.Sees program function)
    (reached : Relation.ReflTransGen program.StmtStep stmt node) : node.Sees program function := by
  induction reached with
  | refl => exact sees
  | tail _ step ih => exact sees_of_stmtStep confined ih step

/-- What a function refers to is visible in it: a name, a local declaration or a type in it stands for something of the
function or of the file. -/
theorem visible_of_functionRefersTo {owner id : DeclId} (hasBody : (program.decl owner).kind.hasBody = true)
    (refers : program.FunctionRefersTo owner id) : program.Visible (some owner) id := by
  have known : owner < program.decls.size := lt_size_of_ne fun missing => by
    rw [missing] at hasBody
    cases hasBody
  have own := confined owner known
  cases refers with
  | @code body node found reached refers =>
    have sees := own.body body found
    rw [home, (DeclKind.of_hasBody hasBody).1] at sees
    exact visible_of_refersTo (sees_of_reaches confined sees reached node node.self_mem_preorder) refers
  | @type inner type inside listed names =>
    rcases inside with rfl | inside
    · have visible := own.types type listed
      rw [own.outermost hasBody] at visible
      exact (visible.visible names).widen
    · have innerKnown : inner < program.decls.size := lt_size_of_ne fun missing => by
        rw [missing] at inside
        cases inside
      have visible := (confined inner innerKnown).types type listed
      rw [inside] at visible
      exact visible.visible names

end Confined

end Program

/-- Functions refer to what is their own and to what is outside all functions, and names that are spelled out stand for
declarations of that name. -/
structure Program.KeepsApart (program : Program) : Prop where
  functions : ∀ function id : DeclId, (program.decl function).kind.hasBody = true →
    program.FunctionRefersTo function id →
    id < program.decls.size ∧ ((program.decl id).context = none ∨ (program.decl id).context = some function)
  spelled : ∀ (id decl : DeclId) (stmt node : Stmt), (program.decl id).kind.body? = some stmt → node ∈ stmt.preorder →
    node.kind = .declRef decl true → (program.decl decl).name = some (String.ofList (program.text node.span))

/-- Only the scope of the file is open where an item begins and behind it, headers to any depth included, and nothing
leaks from one function into another. -/
theorem scopes_keep_apart (files : FileSystem) (search : SearchPath) (path : String) (document : Document) :
    (∀ opening ∈ Program.openingsOf files search path document, ∀ depth,
      opening.draft.scopes = [opening.draft.fileScope] ∧ Drafting.Gives
        (Drafting.enterForm files search (Drafting.enterFile files search depth) opening.item.form) opening.draft
        fun _ after => after.scopes = [after.fileScope]) ∧
      (Program.ofDocument files search path document).KeepsApart := by
  refine ⟨fun opening member depth => ?_, fun function id hasBody refers => ?_,
    fun id decl stmt node found member kind => ?_⟩
  · have sound := (Program.ofDocument_opened files search path document).sound opening member
    refine ⟨sound.settled.scopes, (Drafting.enterForm_keeps Drafting.kept_settled ?_ trivial sound.function sound.span
      sound.settled).mono fun _ _ settled => settled.scopes⟩
    intro path document inclusion draft _ settled
    exact Drafting.enterFile_keeps Drafting.kept_settled (fun _ _ _ _ _ => trivial) depth path inclusion
      (fun _ _ => trivial) settled
  · have visible :=
      Program.visible_of_functionRefersTo (fun _ => (Program.ofDocument_opened files search path document).confined)
      hasBody refers
    exact ⟨visible.known, visible.context⟩
  · have known : id < (Program.ofDocument files search path document).decls.size :=
      Program.lt_size_of_ne fun missing => by
      rw [missing] at found
      cases found
    have own := ((Program.ofDocument_opened files search path document).confined known).body stmt found node member
    rw [kind] at own
    exact (own.2 rfl).2

/-- A macro stands for a local variable in one function and for a variable of the file in another. -/
def shadowingUnit : Program :=
  .ofDocument ⟨[], []⟩ ⟨[]⟩ "unit.c"
    (Written.document
      [("", .define "M" "n"), ("", .object "n"),
        ("\n", .function "f"
          (.blockValue "parenthesized_expression" (.initialized "n" (.token "value.identifier" "n")) (.reference "M"))),
        ("\n", .function "g" (.reference "M"))])

theorem scopes_keep_apart_shadowing :
    (shadowingUnit.decls.toList.map fun decl => (decl.name, decl.context)) =
      [(some "n", none), (some "f", none), (some "n", some 1), (some "g", none)] ∧
    (shadowingUnit.decl 1).kind.hasBody = true ∧ shadowingUnit.FunctionRefersTo 1 2 ∧
    ((shadowingUnit.decl 2).context = none ∨ (shadowingUnit.decl 2).context = some 1) ∧
    (shadowingUnit.decl 3).kind.hasBody = true ∧ shadowingUnit.FunctionRefersTo 3 0 ∧
    ((shadowingUnit.decl 0).context = none ∨ (shadowingUnit.decl 0).context = some 3) ∧
    ∃ node : Stmt, node.kind = .declRef 2 true ∧
      (shadowingUnit.decl 2).name = some (String.ofList (shadowingUnit.text node.span)) := by
  have apart : shadowingUnit.KeepsApart := (scopes_keep_apart ⟨[], []⟩ ⟨[]⟩ "unit.c" _).2
  have refers : ∀ function id, (∃ body ∈ (shadowingUnit.decl function).kind.body?.toList, ∃ node ∈ body.preorder,
      node.kind = .declRef id false) → shadowingUnit.FunctionRefersTo function id := by
    rintro function id ⟨body, found, node, member, kind⟩
    refine .code (Option.mem_toList.mp found) (Program.reaches_of_hasChild (Stmt.reaches_of_mem_preorder member)) ?_
    rw [kind]
    rfl
  -- One evaluation of the unit serves all the facts about it.
  obtain ⟨decls, first, second, own, shared, init, found, node, member, kind⟩ :
      (shadowingUnit.decls.toList.map fun decl => (decl.name, decl.context)) =
        [(some "n", none), (some "f", none), (some "n", some 1), (some "g", none)] ∧
      (shadowingUnit.decl 1).kind.hasBody = true ∧ (shadowingUnit.decl 3).kind.hasBody = true ∧
      (∃ body ∈ (shadowingUnit.decl 1).kind.body?.toList, ∃ node ∈ body.preorder, node.kind = .declRef 2 false) ∧
      (∃ body ∈ (shadowingUnit.decl 3).kind.body?.toList, ∃ node ∈ body.preorder, node.kind = .declRef 0 false) ∧
      ∃ init ∈ (shadowingUnit.decl 2).kind.body?.toList, ∃ node ∈ init.preorder, node.kind = .declRef 2 true := by
    decide +kernel
  have inner := refers 1 2 own
  have outer := refers 3 0 shared
  exact ⟨decls, first, inner, (apart.functions 1 2 first inner).2, second, outer,
    (apart.functions 3 0 second outer).2, node, kind,
      apart.spelled 2 2 init node (Option.mem_toList.mp found) member kind⟩

end Excerpt
