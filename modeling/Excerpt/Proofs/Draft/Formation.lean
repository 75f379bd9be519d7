import Excerpt.Proofs.Draft.Consistency
import Excerpt.Proofs.Draft.Sizes

/-!
Types, fields and bodies are well formed when they are made. The code of an item is read in a `Scene`, which says what
holds of the item as a whole.
-/

namespace Excerpt

namespace Stmt

mutual

/-- The macro uses of a body that are not inside another one, each with its span. -/
def outermostExpansions : Stmt → List (String × Span)
  | .node (.expansion name) span _ => [(name, span)]
  | .node _ _ children => outermostExpansionsAll children

def outermostExpansionsAll : List Stmt → List (String × Span)
  | [] => []
  | stmt :: rest => stmt.outermostExpansions ++ outermostExpansionsAll rest

end

theorem mem_outermostExpansionsAll {stmts : List Stmt} {occurrence : String × Span} :
    occurrence ∈ outermostExpansionsAll stmts ↔ ∃ stmt ∈ stmts, occurrence ∈ stmt.outermostExpansions := by
  induction stmts with
  | nil => simp [outermostExpansionsAll]
  | cons stmt rest ih => simp [outermostExpansionsAll, ih]

theorem outermostExpansions_node {kind : StmtKind} {span : Span} {children : List Stmt}
    (plain : ∀ name, kind ≠ .expansion name) :
    (Stmt.node kind span children).outermostExpansions = outermostExpansionsAll children := by
  rw [outermostExpansions]
  exact plain

end Stmt

/-- Where code is read: its file, the macros in force, and the places where a macro may be used. The declarations from
`base` on belong to the code. -/
structure Scene where
  file : FileId
  base : Nat
  table : String → Option MacroId
  expands : String → Span → Prop

def Scene.Allows (scene : Scene) (name : String) (extent : Extent) : Prop :=
  ∀ id, scene.table name = some id → scene.expands name ⟨scene.file, extent.start, extent.stop⟩

def DeclKind.isEnumeration : DeclKind → Bool
  | .enumeration .. => true
  | _ => false

theorem DeclKind.sort_of_isEnumeration {kind : DeclKind} (isEnumeration : kind.isEnumeration = true) :
    kind.sort = .tag := by
  cases kind with
  | enumeration => rfl
  | function | var | record | enumConstant | typedef => cases isEnumeration

/-- The numbers in a type stand for types, and for declarations of the kind that it names. -/
def CType.Formed (program : Program) : CType → Prop
  | .builtin _ => True
  | .pointer target => target < program.types.size
  | .array element _ => element < program.types.size
  | .function result params _ => result < program.types.size ∧ ∀ param ∈ params, param < program.types.size
  | .record decl => (program.decl decl).kind.sort = .tag
  | .enumeration decl => (program.decl decl).kind.sort = .tag
  | .typedef decl => (program.decl decl).kind.sort = .typeName
  | .unresolved _ => True

def Program.TypesFormed (program : Program) : Prop :=
  ∀ id : Nat, id < program.types.size → (program.type id).Formed program

/-- The types in a body are in the table, and macros are used where the scene has it. -/
structure Stmt.Formed (scene : Scene) (program : Program) (stmt : Stmt) : Prop where
  types : ∀ node ∈ stmt.preorder, ∀ type, node.kind = .typeRef type → type < program.types.size
  expansions : ∀ occurrence ∈ stmt.outermostExpansions, scene.expands occurrence.1 occurrence.2

structure DeclKind.Formed (scene : Scene) (program : Program) (kind : DeclKind) : Prop where
  types : ∀ type ∈ kind.declaredTypes, type < program.types.size
  body : ∀ stmt, kind.body? = some stmt → stmt.Formed scene program
  fields : ∀ isUnion fields complete, kind = .record isUnion fields complete →
    ∀ field ∈ fields, field.span.file = scene.file
  owner : ∀ value owner init, kind = .enumConstant value owner init → (program.decl owner).kind.isEnumeration = true

/-- No type is lost, and declarations keep their kind, in a later program. -/
structure Program.Upholds (before after : Program) : Prop where
  types : before.types.size ≤ after.types.size
  sort : ∀ id, id < before.decls.size → (after.decl id).kind.sort = (before.decl id).kind.sort
  isEnumeration : ∀ id, id < before.decls.size →
    (after.decl id).kind.isEnumeration = (before.decl id).kind.isEnumeration

section Upholds

variable {scene : Scene} {before after : Program} (upholds : before.Upholds after)
include upholds

theorem Program.Upholds.sort_eq {id : DeclId} {sort : DeclSort} (same : (before.decl id).kind.sort = sort)
    (plain : sort ≠ .symbol) : (after.decl id).kind.sort = sort := by
  rw [upholds.sort id (Program.lt_size_of_sort same plain), same]

theorem CType.Formed.mono {type : CType} (formed : type.Formed before) : type.Formed after := by
  cases type with
  | builtin | unresolved => trivial
  | pointer target => exact Nat.lt_of_lt_of_le formed upholds.types
  | array element size => exact Nat.lt_of_lt_of_le formed upholds.types
  | function result params variadic =>
    exact ⟨formed.1.trans_le upholds.types, fun param member => (formed.2 param member).trans_le upholds.types⟩
  | record decl | enumeration decl => exact upholds.sort_eq formed (by decide)
  | typedef decl => exact upholds.sort_eq formed (by decide)

theorem Stmt.Formed.mono {stmt : Stmt} (formed : stmt.Formed scene before) : stmt.Formed scene after :=
  ⟨fun node member type same => (formed.types node member type same).trans_le upholds.types, formed.expansions⟩

theorem DeclKind.Formed.mono {kind : DeclKind} (formed : kind.Formed scene before) : kind.Formed scene after := by
  refine ⟨fun type member => (formed.types type member).trans_le upholds.types,
    fun stmt found => (formed.body stmt found).mono upholds, formed.fields, fun value owner init same => ?_⟩
  have owned := formed.owner value owner init same
  have inside : owner < before.decls.size :=
    Program.lt_size_of_sort (DeclKind.sort_of_isEnumeration owned) (by decide)
  rw [upholds.isEnumeration owner inside, owned]

end Upholds

theorem Program.TypesStay.count {before after : Program} (stay : before.TypesStay after) :
    before.types.size ≤ after.types.size := by
  by_contra fewer
  exact absurd (stay _ (Nat.not_le.mp fewer)).1 (Nat.lt_irrefl _)

theorem Program.Upholds.of_decl {before after : Program} (types : before.types.size ≤ after.types.size)
    (decl : ∀ id, id < before.decls.size → after.decl id = before.decl id) : before.Upholds after :=
  ⟨types, fun id inside => by rw [decl id inside], fun id inside => by rw [decl id inside]⟩

theorem Program.TypesFormed.congr {program other : Program} (formed : program.TypesFormed)
    (types : other.types = program.types) (decls : other.decls = program.decls) : other.TypesFormed := by
  have upholds : program.Upholds other :=
    .of_decl (congrArg Array.size types).ge fun id _ => by rw [Program.decl, decls, ← Program.decl]
  intro id inside
  rw [Program.type, types, ← Program.type]
  exact (formed id (types ▸ inside)).mono upholds

theorem Draft.Steps.upholds {before after : Draft} (steps : before.Steps after) :
    before.program.Upholds after.program :=
  .of_decl steps.typesStay.count fun _ => steps.decl_of_lt

def Stmt.AllFormed (scene : Scene) (program : Program) (stmts : List Stmt) : Prop :=
  ∀ stmt ∈ stmts, stmt.Formed scene program

section Stmts

variable {scene : Scene} {program : Program}

theorem Stmt.AllFormed.node {kind : StmtKind} {span : Span} {children : List Stmt}
    (formed : AllFormed scene program children) (plain : ∀ name, kind ≠ .expansion name)
    (types : ∀ type, kind = .typeRef type → type < program.types.size) :
    AllFormed scene program [.node kind span children] := by
  intro stmt member
  rw [List.mem_singleton.mp member]
  constructor
  · intro node inside type same
    rcases Stmt.mem_preorder.mp inside with rfl | ⟨child, isChild, below⟩
    · exact types type same
    · exact (formed child isChild).types node below type same
  · intro occurrence inside
    rw [Stmt.outermostExpansions_node plain, Stmt.mem_outermostExpansionsAll] at inside
    obtain ⟨child, isChild, below⟩ := inside
    exact (formed child isChild).expansions occurrence below

theorem Stmt.formed_expansion {draft : Draft} {span : Span} {depth : Nat} {active : List MacroId} {id : MacroId}
    (allowed : scene.expands (draft.program.directive id).name span) :
    (draft.expansionFrom span depth active id).Formed scene program := by
  have noTypes : ∀ depth active id, ∀ node ∈ (draft.expansionFrom span depth active id).preorder, ∀ type,
      node.kind ≠ .typeRef type := by
    intro depth
    induction depth with
    | zero =>
      intro active id node member type same
      rcases Stmt.mem_preorder.mp member with rfl | ⟨child, isChild, -⟩
      · cases same
      · cases isChild
    | succ depth ih =>
      intro active id node member type same
      rcases Stmt.mem_preorder.mp member with rfl | ⟨child, isChild, below⟩
      · cases same
      · obtain ⟨name, -, found⟩ := List.mem_filterMap.mp isChild
        split at found
        · cases found
          exact ih _ _ node below type same
        · obtain ⟨decl, -, rfl⟩ := Option.map_eq_some_iff.mp found
          rcases Stmt.mem_preorder.mp below with rfl | ⟨inner, isInner, -⟩
          · cases same
          · cases isInner
  refine ⟨fun node member type same => absurd same (noTypes depth active id node member type), ?_⟩
  intro occurrence member
  have own : (draft.expansionFrom span depth active id).outermostExpansions =
      [((draft.program.directive id).name, span)] := by
    cases depth <;> rfl
  rw [own] at member
  rw [List.mem_singleton.mp member]
  exact allowed

end Stmts

namespace Draft

theorem name_of_definition {draft : Draft} {name : String} {id : MacroId} (found : draft.definition? name = some id) :
    (draft.program.directive id).name = name := by
  obtain ⟨last, -⟩ := Option.filter_eq_some_iff.mp found
  obtain ⟨-, same⟩ := List.mem_filter.mp (List.mem_of_getLast? last)
  exact beq_iff_eq.mp same

theorem lt_of_definition {draft : Draft} {name : String} {id : MacroId} (found : draft.definition? name = some id) :
    id < draft.program.macros.size :=
  List.mem_range.mp (List.mem_of_mem_filter (List.mem_of_getLast? (Option.filter_eq_some_iff.mp found).1))

/-- Code is about to be read in a scene, and what has been read is well formed. -/
structure Formed (scene : Scene) (draft : Draft) : Prop where
  consistent : draft.Consistent
  file : draft.file = scene.file
  table : draft.definition? = scene.table
  since : scene.base ≤ draft.program.decls.size
  types : draft.program.TypesFormed
  decls : ∀ id : Nat, scene.base ≤ id → id < draft.program.decls.size →
    (draft.program.decl id).kind.Formed scene draft.program

section Formed

variable {scene : Scene} {before after draft : Draft}

/-- Old entries stay as they are, so only the new ones have to be well formed. -/
theorem Formed.advance (formed : before.Formed scene) (steps : before.Steps after)
    (types : ∀ id : Nat, before.program.types.size ≤ id → id < after.program.types.size →
      (after.program.type id).Formed after.program)
    (decls : ∀ id : Nat, before.program.decls.size ≤ id → id < after.program.decls.size →
      (after.program.decl id).kind.Formed scene after.program) : after.Formed scene := by
  have layout := steps.sameLayout
  refine ⟨steps.consistent formed.consistent, layout.file.trans formed.file, ?_, formed.since.trans steps.size_le,
    fun id inside => ?_, fun id since inside => ?_⟩
  · rw [← formed.table]
    funext name
    simp only [definition?, Program.directive, layout.macros]
  · by_cases old : id < before.program.types.size
    · rw [(steps.typesStay id old).2]
      exact (formed.types id old).mono steps.upholds
    · exact types id (Nat.not_lt.mp old) inside
  · by_cases old : id < before.program.decls.size
    · rw [steps.decl_of_lt old]
      exact (formed.decls id since old).mono steps.upholds
    · exact decls id (Nat.not_lt.mp old) inside

theorem Formed.same (formed : before.Formed scene) (steps : before.Steps after)
    (program : after.program = before.program) : after.Formed scene := by
  refine formed.advance steps (fun id new inside => ?_) fun id new inside => ?_
  · rw [program] at inside
    exact absurd inside (Nat.not_lt.mpr new)
  · rw [program] at inside
    exact absurd inside (Nat.not_lt.mpr new)

structure AddsOne (kind : DeclKind) (before after : Draft) : Prop where
  types : after.program.types = before.program.types
  size : after.program.decls.size = before.program.decls.size + 1
  kind : (after.program.decl before.program.decls.size).kind = kind

theorem AddsOne.same {kind : DeclKind} {later : Draft} (adds : AddsOne kind before after)
    (program : later.program = after.program) : AddsOne kind before later := by
  constructor <;> rw [program]
  · exact adds.types
  · exact adds.size
  · exact adds.kind

theorem Formed.added (formed : before.Formed scene) {kind : DeclKind} (steps : before.Steps after)
    (adds : AddsOne kind before after) (own : kind.Formed scene before.program) : after.Formed scene := by
  refine formed.advance steps (fun type new inside => ?_) fun id new inside => ?_
  · rw [adds.types] at inside
    exact absurd inside (Nat.not_lt.mpr new)
  · have size := adds.size
    obtain rfl : id = before.program.decls.size := by omega
    rw [adds.kind]
    exact own.mono steps.upholds

/-- A revision replaces parts by parts that are well formed. -/
theorem Formed.revise (formed : draft.Formed scene) {base : Nat} {id : DeclId} {change : Decl → Decl}
    (step : Step base draft { draft with program := draft.program.modifyDecl id change })
    (isEnumeration : (change (draft.program.decl id)).kind.isEnumeration = (draft.program.decl id).kind.isEnumeration)
    (own : (change (draft.program.decl id)).kind.Formed scene draft.program) :
    ({ draft with program := draft.program.modifyDecl id change } : Draft).Formed scene := by
  have upholds : draft.program.Upholds (draft.program.modifyDecl id change) := by
    refine ⟨Nat.le_refl _, fun other inside => step.sort_eq inside, fun other inside => ?_⟩
    rw [Program.decl_modifyDecl]
    split
    · next same => rw [isEnumeration, same.1]
    · rfl
  refine ⟨step.consistent formed.consistent, formed.file, formed.table, by simpa using formed.since,
    fun type inside => (formed.types type inside).mono upholds, fun other since inside => ?_⟩
  rw [Program.modifyDecl_size] at inside
  dsimp only
  rw [Program.decl_modifyDecl]
  split
  · exact own.mono upholds
  · exact (formed.decls other since inside).mono upholds

end Formed

end Draft

namespace Drafting

open Surface

section AddsOne

variable (draft : Draft)

theorem addDecl_addsOne (decl : Decl) (previous : Option DeclId) :
    Gives (addDecl decl previous) draft fun _ after => Draft.AddsOne decl.kind draft after := by
  refine ⟨by cases previous <;> rfl, Program.addDecl_size, ?_⟩
  change ((Program.addDecl _ decl previous).decl draft.program.decls.size).kind = decl.kind
  rw [Program.decl_addDecl_size]

theorem declare_addsOne (name : Option String) (kind : DeclKind) (storage : StorageClass) (offset : Nat)
    (declarator : Option DeclaratorSpans) (previous : Option DeclId) :
    Gives (declare name kind storage offset declarator previous) draft fun _ after => Draft.AddsOne kind draft after :=
  addDecl_addsOne draft
    ⟨name, kind, storage, draft.span, ⟨draft.item, offset⟩, declarator, draft.function, draft.item, 0⟩ previous

theorem defineTag_addsOne (name : Option String) (start : Nat) (kind : DeclKind) :
    Gives (defineTag name start kind) draft fun _ after => Draft.AddsOne kind draft after := by
  simp only [defineTag, gives_bind, gives_get]
  refine (declare_addsOne draft _ _ _ _ _ _).mono fun id after adds => ?_
  cases name with
  | none => exact adds
  | some name => exact adds.same (Draft.bindTag_program _ _ _)

theorem declareNamed_addsOne {name : String} {kind : DeclKind} {storage : StorageClass} {offset : Nat}
    {declarator : Option DeclaratorSpans} {previous : Option DeclId} :
    Gives (do
      let id ← declare (some name) kind storage offset declarator previous
      modify (·.bindOrdinary name id)
      return id) draft fun _ after => Draft.AddsOne kind draft after := by
  simp only [gives_bind, gives_modify, gives_pure]
  exact (declare_addsOne draft _ _ _ _ _ _).mono fun id after adds => adds.same (Draft.bindOrdinary_program _ _ _)

theorem tagReference_addsOne (standalone : Bool) (kind : TagKind) (name : String) (start : Nat) :
    Gives (tagReference standalone kind name start) draft fun id after =>
      after = draft ∧ draft.tag? name = some id ∨ id = draft.program.decls.size ∧
        Draft.AddsOne kind.incomplete draft after := by
  simp only [tagReference, gives_bind, gives_get]
  split
  · exact .inr ⟨rfl, (declare_addsOne draft _ _ _ _ _ _).same (Draft.bindTag_program _ _ _)⟩
  · split
    · next found => exact .inl ⟨rfl, found⟩
    · have adds := addDecl_addsOne draft
        ⟨some name, kind.incomplete, .unspecified, draft.span, ⟨draft.item, start⟩, none, none, draft.item, 0⟩ none
      exact .inr ⟨rfl, Draft.AddsOne.same adds (by rfl)⟩

end AddsOne

section Kinds

variable {scene : Scene} {program : Program}

theorem formed_of_bare {kind : DeclKind} (types : kind.declaredTypes = []) (body : kind.body? = none)
    (fields : ∀ isUnion fields complete, kind = .record isUnion fields complete → fields = [])
    (plain : kind.isEnumConstant = false) : kind.Formed scene program := by
  refine ⟨by simp [types], by simp [body], fun isUnion list complete same field member => ?_,
    fun value owner init same => ?_⟩
  · rw [fields isUnion list complete same] at member
    cases member
  · rw [same] at plain
    cases plain

theorem formed_incomplete (kind : TagKind) : kind.incomplete.Formed scene program := by
  cases kind with
  | struct | union => exact formed_of_bare rfl rfl (fun _ _ _ same => by cases same; rfl) rfl
  | enumeration => exact formed_of_bare rfl rfl (fun _ _ _ same => by cases same) rfl

theorem formed_of_declared {kind : DeclKind} (noTag : kind.sort ≠ .tag) (noConstant : kind.sort ≠ .constant)
    (types : ∀ type ∈ kind.declaredTypes, type < program.types.size)
    (body : ∀ stmt, kind.body? = some stmt → stmt.Formed scene program) : kind.Formed scene program := by
  refine ⟨types, body, fun _ _ _ same => ?_, fun _ _ _ same => ?_⟩
  · rw [same] at noTag
    exact absurd rfl noTag
  · rw [same] at noConstant
    exact absurd rfl noConstant

theorem formed_of_object {draft : Draft} {type : TypeId} {isInline : Bool} (inside : type < program.types.size) :
    (objectKind draft type isInline).Formed scene program := by
  have sort := objectKind_sort draft type isInline
  refine formed_of_declared (by simp [sort]) (by simp [sort]) ?_ fun stmt found => ?_
  · rw [objectKind_declaredTypes]
    simpa using inside
  · unfold objectKind at found
    split at found <;> cases found

end Kinds

section Helpers

variable {scene : Scene} {draft : Draft} (formed : draft.Formed scene)
include formed

/-- A type that is in the table already is found there, and its parts have not changed. -/
theorem addType_formed (type : CType) (own : type.Formed draft.program) :
    Gives (addType type) draft fun id after => after.Formed scene ∧ id < after.program.types.size := by
  have named : ∀ id, type.named? = some id → draft.Nameable id := by
    intro id found
    cases type with
    | record decl | enumeration decl | typedef decl =>
      cases found
      exact .plain (own.trans_ne (by decide))
    | builtin | pointer | array | function | unresolved => cases found
  have steps : draft.Steps { draft with program := (draft.program.addType type).2 } := addType_steps draft named
  have same := draft.program.type_addType type
  have inside : (draft.program.addType type).1 < (draft.program.addType type).2.types.size ∧
      ∀ id, draft.program.types.size ≤ id → id < (draft.program.addType type).2.types.size →
        id = (draft.program.addType type).1 := by
    unfold Program.addType
    split
    · next id found =>
      obtain ⟨inside, -⟩ := Array.findIdx?_eq_some_iff_getElem.mp found
      exact ⟨inside, fun other new known => absurd known (Nat.not_lt.mpr new)⟩
    · simp only [Array.size_push]
      exact ⟨Nat.lt_succ_self _, fun other new known => Nat.le_antisymm (Nat.le_of_lt_succ known) new⟩
  refine ⟨formed.advance steps (fun id new known => ?_) fun id new known => ?_, inside.1⟩
  · change ((draft.program.addType type).2.type id).Formed (draft.program.addType type).2
    rw [inside.2 id new known, same]
    exact own.mono steps.upholds
  · have size : (draft.program.addType type).2.decls = draft.program.decls := by
      unfold Program.addType
      split <;> rfl
    change id < (draft.program.addType type).2.decls.size at known
    rw [size] at known
    exact absurd known (Nat.not_lt.mpr new)

omit formed in
theorem namedType_formed (name : String) : (draft.namedType name).Formed draft.program := by
  unfold Draft.namedType
  split
  · split
    · next typedef => exact congrArg DeclKind.sort typedef
    · trivial
  · trivial

theorem tagReference_formed (standalone : Bool) (kind : TagKind) (name : String) (start : Nat) :
    Gives (tagReference standalone kind name start) draft fun id after =>
      after.Formed scene ∧ (after.program.decl id).kind.sort = .tag := by
  refine ((tagReference_steps draft standalone kind name start).and
    (tagReference_addsOne draft standalone kind name start)).mono fun id after both => ?_
  obtain ⟨⟨steps, -⟩, ⟨rfl, found⟩ | ⟨rfl, adds⟩⟩ := both
  · obtain ⟨scope, member, bound⟩ := List.exists_of_findSome?_eq_some found
    have isTag := (formed.consistent.scopes scope member).tags _ (mem_of_lookup bound)
    rw [DeclKind.isTag_eq, decide_eq_true_eq] at isTag
    exact ⟨formed, isTag⟩
  · refine ⟨formed.added steps adds (formed_incomplete kind), ?_⟩
    rw [adds.kind]
    cases kind <;> rfl

theorem expansion_formed {name : String} {extent : Extent} {id : MacroId} (allowed : scene.Allows name extent)
    (found : draft.definition? name = some id) :
    (draft.expansion (draft.spanOf extent) id).Formed scene draft.program := by
  apply Stmt.formed_expansion
  rw [Draft.name_of_definition found, Draft.spanOf, formed.file]
  rw [formed.table] at found
  exact allowed id found

theorem nameStmt_formed {name : String} {extent : Extent} (allowed : scene.Allows name extent) :
    Stmt.AllFormed scene draft.program (draft.nameStmt? name (draft.spanOf extent)).toList := by
  unfold Draft.nameStmt?
  split
  · next id found =>
    obtain ⟨defined, -⟩ := Option.filter_eq_some_iff.mp found
    intro stmt member
    rw [List.mem_singleton.mp member]
    exact expansion_formed formed allowed defined
  · cases draft.ordinary? name with
    | none => exact fun _ none => by cases none
    | some decl => exact .node (fun _ none => by cases none) (fun _ same => by cases same) fun _ same => by cases same

theorem macroCallee_formed {name : String} {extent : Extent} {callee : Stmt} (allowed : scene.Allows name extent)
    (found : draft.macroCallee? (.name name extent) = some callee) : callee.Formed scene draft.program := by
  obtain ⟨id, like, rfl⟩ := Option.map_eq_some_iff.mp found
  obtain ⟨defined, -⟩ := Option.filter_eq_some_iff.mp like
  exact expansion_formed formed allowed defined

section Parts

variable {id : DeclId} (since : scene.base ≤ id) (inside : id < draft.program.decls.size)
include since inside

theorem setFields_formed {fields : List Field}
    (own : ∀ field ∈ fields, field.type < draft.program.types.size ∧ field.span.file = scene.file) :
    Gives (setFields id fields) draft fun _ after => after.Formed scene := by
  have step : Gives (setFields id fields) draft fun _ after => Draft.Step 0 draft after :=
    setFields_step (Nat.zero_le id) fields
  refine formed.revise step ?_ ?_
  · split
    · next kind => rw [kind]; rfl
    · rfl
  · split
    · refine ⟨fun type member => ?_, fun _ found => (by cases found), fun _ _ _ same => ?_,
        fun _ _ _ same => (by cases same)⟩
      · obtain ⟨field, listed, rfl⟩ := List.mem_map.mp member
        exact (own field listed).1
      · cases same
        exact fun field listed => (own field listed).2
    · exact formed.decls id since inside

theorem setConstants_formed {constants : List DeclId}
    (known : ∀ constant ∈ constants, (draft.program.decl constant).kind.isEnumConstant = true) :
    Gives (setConstants id constants) draft fun _ after => after.Formed scene := by
  have step : Gives (setConstants id constants) draft fun _ after => Draft.Step 0 draft after :=
    setConstants_step (Nat.zero_le id) known
  refine formed.revise step ?_ ?_
  · split
    · next kind => rw [kind]; rfl
    · rfl
  · split
    · exact formed_of_bare rfl rfl (fun _ _ _ same => by cases same) rfl
    · exact formed.decls id since inside

theorem setInit_formed {init : Option Stmt} (later : ∀ stmt ∈ init, ∀ inner, stmt.Declares inner → id < inner)
    (own : Stmt.AllFormed scene draft.program init.toList) :
    Gives (setInit id init) draft fun _ after => after.Formed scene := by
  have step : Gives (setInit id init) draft fun _ after => Draft.Step 0 draft after :=
    setInit_step (Nat.zero_le id) later
  refine formed.revise step ?_ ?_
  · split
    · next kind => rw [kind]; rfl
    · rfl
  · have old := formed.decls id since inside
    split
    · next kind =>
      rw [kind] at old
      exact formed_of_declared (by simp [DeclKind.sort]) (by simp [DeclKind.sort]) old.types
        fun stmt found => own stmt (Option.mem_toList.mpr found)
    · exact old

theorem setBody_formed {body : Option Stmt} (own : Stmt.AllFormed scene draft.program body.toList) :
    Gives (setBody id body) draft fun _ after => after.Formed scene := by
  have step : Gives (setBody id body) draft fun _ after => Draft.Step 0 draft after :=
    setBody_step (Nat.zero_le id) body
  refine formed.revise step ?_ ?_
  · split
    · next kind => rw [kind]; rfl
    · rfl
  · have old := formed.decls id since inside
    split
    · next kind =>
      rw [kind] at old
      exact formed_of_declared (by simp [DeclKind.sort]) (by simp [DeclKind.sort]) old.types
        fun stmt found => own stmt (Option.mem_toList.mpr found)
    · exact old

end Parts

end Helpers

end Drafting

end Excerpt
