import Excerpt.Proofs.Draft.Reader

namespace Excerpt

theorem Draft.parts_namedType (draft : Draft) (name : String) : (draft.namedType name).parts = [] := by
  unfold namedType
  split
  · split <;> rfl
  · rfl

namespace Drafting

structure Made (draft : Draft) (kind : DeclKind) (id : DeclId) (after : Draft) : Prop where
  steps : draft.Steps after
  id_eq : id = draft.program.decls.size
  inside : id < after.program.decls.size
  kind : (after.program.decl id).kind = kind

theorem Made.ordinary {draft after : Draft} {kind : DeclKind} {id : DeclId} (made : Made draft kind id after)
    (name : String) : Made draft kind id (after.bindOrdinary name id) := by
  refine ⟨made.steps.tail (.ordinary name id made.inside), made.id_eq, ?_, ?_⟩
  · rw [Draft.bindOrdinary_program]
    exact made.inside
  · rw [Draft.bindOrdinary_program]
    exact made.kind

theorem Made.sort_later {draft first second third : Draft} {kind : DeclKind} {id : DeclId} {base : Nat}
    (made : Made draft kind id first) (inner : first.Steps second) (revised : Draft.Step base second third) :
    (third.program.decl id).kind.sort = kind.sort := by
  rw [revised.sort_eq (made.inside.trans_le inner.size_le), inner.decl_of_lt made.inside, made.kind]

theorem nameable_of_namedType {draft : Draft} {name : String} {id : DeclId}
    (found : (draft.namedType name).named? = some id) : draft.Nameable id := by
  unfold Draft.namedType at found
  split at found
  · split at found
    · next typedef =>
      cases found
      exact .plain (by simp [typedef, DeclKind.sort])
    · cases found
  · cases found

section Helpers

variable (draft : Draft)

theorem addType_steps {type : CType} (named : ∀ id, type.named? = some id → draft.Nameable id) :
    Gives (addType type) draft fun _ after => draft.Steps after := by
  change draft.Steps { draft with program := (draft.program.addType type).2 }
  unfold Program.addType
  split
  · exact .refl
  · exact .single (.intern type named)

theorem addDecl_steps (decl : Decl) {previous : Option DeclId} (isNew : decl.kind.IsNew)
    (continues : ∀ earlier, previous = some earlier → draft.Continues decl.kind.sort earlier ∧
      decl.kind.sort ≠ .constant)
    (owned : ∀ value owner init, decl.kind = .enumConstant value owner init →
      (draft.program.decl owner).kind.sort = .tag) :
    Gives (addDecl decl previous) draft (Made draft decl.kind) := by
  refine ⟨.single (.declare decl previous isNew continues owned), rfl, ?_, ?_⟩
  · change draft.program.decls.size < (Program.addDecl _ decl previous).decls.size
    simp
  · change ((Program.addDecl _ decl previous).decl draft.program.decls.size).kind = decl.kind
    rw [Program.decl_addDecl_size]

theorem declare_steps (kind : DeclKind) {name : Option String} {storage : StorageClass} {offset : Nat}
    {declarator : Option DeclaratorSpans} {previous : Option DeclId} (isNew : kind.IsNew)
    (continues : ∀ earlier, previous = some earlier → draft.Continues kind.sort earlier ∧ kind.sort ≠ .constant)
    (owned : ∀ value owner init, kind = .enumConstant value owner init → (draft.program.decl owner).kind.sort = .tag) :
    Gives (declare name kind storage offset declarator previous) draft (Made draft kind) :=
  addDecl_steps draft ⟨name, kind, storage, draft.span, ⟨draft.item, offset⟩, declarator, draft.function, draft.item, 0⟩
    isNew continues owned

/-- A tag that is known in an enclosing scope is named; otherwise its first mention is declared at file scope. -/
theorem tagReference_steps (standalone : Bool) (kind : Surface.TagKind) (name : String) (start : Nat) :
    Gives (tagReference standalone kind name start) draft fun id after => draft.Steps after ∧ after.Nameable id := by
  have isNew : kind.incomplete.IsNew := by cases kind <;> trivial
  have isTag : kind.incomplete.sort = .tag := by cases kind <;> rfl
  have plain : ∀ value owner init, kind.incomplete ≠ .enumConstant value owner init := by
    intro value owner init
    cases kind <;> simp [Surface.TagKind.incomplete]
  have known : ∀ {id : DeclId} {after : Draft}, Made draft kind.incomplete id after →
      (after.program.decl id).kind.isTag = true := by
    intro id after made
    rw [DeclKind.isTag_eq, made.kind, isTag]
    rfl
  simp only [tagReference, gives_bind, gives_get]
  split
  · rw [gives_bind]
    refine (declare_steps draft _ isNew (fun earlier found => ⟨?_, by simp [isTag]⟩)
      fun _ _ _ same => absurd same (plain _ _ _)).mono fun id after made => ?_
    · exact .tag draft.innermost_mem_scopes (mem_of_lookup found) isTag
    · refine ⟨made.steps.tail (.tag name id (known made)), .plain ?_⟩
      change ((after.bindTag name id).program.decl id).kind.sort ≠ .symbol
      rw [Draft.bindTag_program, made.kind, isTag]
      simp
  · split
    · next found =>
      obtain ⟨scope, member, bound⟩ := List.exists_of_findSome?_eq_some found
      exact ⟨.refl, .tag member (mem_of_lookup bound)⟩
    · rw [gives_bind]
      refine (addDecl_steps draft _ isNew (fun _ found => by cases found)
        fun _ _ _ same => absurd same (plain _ _ _)).mono fun id after made => ?_
      refine ⟨made.steps.tail (.fileTag name id (known made)), .plain ?_⟩
      change (after.program.decl id).kind.sort ≠ .symbol
      rw [made.kind]
      simp [isTag]

/-- A definition continues the tag of its name in the innermost scope if that has no members yet. -/
theorem defineTag_steps (kind : DeclKind) (isNew : kind.IsNew) (isTag : kind.sort = .tag) (name : Option String)
    (start : Nat) : Gives (defineTag name start kind) draft (Made draft kind) := by
  simp only [defineTag, gives_bind, gives_get]
  refine (declare_steps draft _ isNew (fun earlier found => ⟨?_, by simp [isTag]⟩) fun _ _ _ same => ?_).mono ?_
  · obtain ⟨found, -⟩ := Option.filter_eq_some_iff.mp found
    obtain ⟨tag, -, found⟩ := Option.bind_eq_some_iff.mp found
    exact .tag draft.innermost_mem_scopes (mem_of_lookup found) isTag
  · rw [same] at isTag
    cases isTag
  · intro id after made
    cases name with
    | none => exact made
    | some name =>
      have known : (after.program.decl id).kind.isTag = true := by
        rw [DeclKind.isTag_eq, made.kind, isTag]
        rfl
      change Made draft kind id (after.bindTag name id)
      refine ⟨made.steps.tail (.tag name id known), made.id_eq, ?_, ?_⟩
      · rw [Draft.bindTag_program]
        exact made.inside
      · rw [Draft.bindTag_program]
        exact made.kind

theorem declareFunction_steps {storage : StorageClass} {isInline : Bool} {name : String} {offset : Nat} {type : TypeId}
    {declarator : Option DeclaratorSpans} :
    Gives (declare (some name) (.function type none isInline) storage offset declarator (draft.definedAs? name)) draft
      (Made draft (.function type none isInline)) := by
  refine declare_steps draft _ trivial (fun earlier found => ⟨?_, by simp [DeclKind.sort]⟩)
    fun _ _ _ same => by cases same
  obtain ⟨bound, known⟩ := Option.filter_eq_some_iff.mp found
  refine .ordinary draft.fileScope_mem_scopes (mem_of_lookup bound) ?_
  cases kind : (draft.program.decl earlier).kind <;> simp [kind, DeclKind.isFunction] at known
  rfl

/-- The kind of a function or variable before its body or initializer is read. -/
def objectKind (type : TypeId) (isInline : Bool) : DeclKind :=
  if draft.isFunctionType type then .function type none isInline else .var type none

@[simp] theorem objectKind_sort (type : TypeId) (isInline : Bool) :
    (objectKind draft type isInline).sort = .symbol := by
  unfold objectKind
  split <;> rfl

@[simp] theorem objectKind_declaredTypes (type : TypeId) (isInline : Bool) :
    (objectKind draft type isInline).declaredTypes = [type] := by
  unfold objectKind
  split <;> rfl

theorem declareObject_steps (storage : StorageClass) (isInline : Bool) (full bare : Extent) (name : String)
    (nameExtent : Extent) (type : TypeId) :
    Gives (declareObject storage isInline full bare name nameExtent type) draft
      (Made draft (objectKind draft type isInline)) := by
  have isNew : (objectKind draft type isInline).IsNew := by unfold objectKind; split <;> trivial
  have sort := objectKind_sort draft type isInline
  simp only [declareObject, gives_bind, gives_get, gives_modify, gives_pure]
  refine (declare_steps draft (objectKind draft type isInline) isNew (fun earlier found => ⟨?_, by simp [sort]⟩)
    fun _ _ _ same => ?_).mono fun id after made => made.ordinary name
  · unfold Draft.redeclared? at found
    split at found
    · cases found
    · obtain ⟨bound, known⟩ := Option.filter_eq_some_iff.mp found
      refine .ordinary draft.fileScope_mem_scopes (mem_of_lookup bound) ?_
      rw [sort]
      cases kind :
        (draft.program.decl earlier).kind <;> simp [kind, DeclKind.isFunction, DeclKind.isVar] at known ⊢ <;> rfl
  · rw [same] at sort
    cases sort

theorem declareTypedef_steps (extent : Extent) (name : String) (nameExtent : Extent) (type : TypeId) :
    Gives (declareTypedef extent name nameExtent type) draft (Made draft (.typedef type)) := by
  simp only [declareTypedef, gives_bind, gives_get, gives_modify, gives_pure]
  refine (declare_steps draft (.typedef type) trivial (fun earlier found => ⟨?_, by simp [DeclKind.sort]⟩)
    fun _ _ _ same => by cases same).mono fun id after made => made.ordinary name
  obtain ⟨bound, sort⟩ := Option.filter_eq_some_iff.mp found
  refine .ordinary draft.innermost_mem_scopes (mem_of_lookup bound) ?_
  split at sort
  · next typedef => rw [typedef]; rfl
  · cases sort

section Parts

variable {draft} {base : Nat} {id : DeclId} (since : base ≤ id)
include since

theorem setFields_step (fields : List Field) :
    Gives (setFields id fields) draft fun _ after => Draft.Step base draft after := by
  refine .revise id since _ ?_
  split
  · next kind => exact ⟨rfl, by simp [kind, DeclKind.sort], by simp, by simp, by simp⟩
  · exact .refl _ id _

theorem setConstants_step {constants : List DeclId}
    (known : ∀ constant ∈ constants, (draft.program.decl constant).kind.isEnumConstant = true) :
    Gives (setConstants id constants) draft fun _ after => Draft.Step base draft after := by
  refine .revise id since _ ?_
  split
  · next kind =>
    refine ⟨rfl, by simp [kind, DeclKind.sort], ?_, by simp, by simp⟩
    rintro _ _ same
    cases same
    exact .inr known
  · exact .refl _ id _

theorem setInit_step {init : Option Stmt} (later : ∀ stmt ∈ init, ∀ inner, stmt.Declares inner → id < inner) :
    Gives (setInit id init) draft fun _ after => Draft.Step base draft after := by
  refine .revise id since _ ?_
  split
  · next kind =>
    refine ⟨rfl, by simp [kind, DeclKind.sort], by simp, ?_, by simp⟩
    rintro _ stmt same
    cases same
    exact .inr (later stmt rfl)
  · exact .refl _ id _

theorem setBody_step (body : Option Stmt) :
    Gives (setBody id body) draft fun _ after => Draft.Step base draft after := by
  refine .revise id since _ ?_
  split
  · next kind => exact ⟨rfl, by simp [kind, DeclKind.sort], by simp, by simp, by simp⟩
  · exact .refl _ id _

end Parts

end Helpers

end Drafting

namespace Draft

theorem not_declares_expansionFrom (draft : Draft) (span : Span) (depth : Nat) (active : List MacroId) (id : MacroId)
    (inner : DeclId) : ¬(draft.expansionFrom span depth active id).Declares inner := by
  induction depth generalizing active id with
  | zero => simp [expansionFrom, Stmt.declares_leaf]
  | succ depth ih =>
    rw [expansionFrom, Stmt.declares_node]
    rintro (same | ⟨child, member, declares⟩)
    · cases same
    · obtain ⟨name, -, found⟩ := List.mem_filterMap.mp member
      split at found
      · cases found
        exact ih _ _ declares
      · obtain ⟨decl, -, rfl⟩ := Option.map_eq_some_iff.mp found
        cases Stmt.declares_leaf.mp declares

theorem not_declares_nameStmt {draft : Draft} {name : String} {span : Span} {stmt : Stmt} {inner : DeclId}
    (found : draft.nameStmt? name span = some stmt) : ¬stmt.Declares inner := by
  unfold nameStmt? at found
  split at found
  · cases found
    exact draft.not_declares_expansionFrom span _ [] _ inner
  · obtain ⟨decl, -, rfl⟩ := Option.map_eq_some_iff.mp found
    rw [Stmt.declares_leaf]
    simp

theorem not_declares_macroCallee {draft : Draft} {expr : Surface.Expr} {stmt : Stmt} {inner : DeclId}
    (found : draft.macroCallee? expr = some stmt) : ¬stmt.Declares inner := by
  unfold macroCallee? at found
  split at found
  · obtain ⟨id, -, rfl⟩ := Option.map_eq_some_iff.mp found
    exact draft.not_declares_expansionFrom _ _ [] id inner
  · cases found

end Draft

namespace Drafting

open Surface

def stepping : Reader where
  inside := Extent.Anywhere
  holds _ _ := True
  relates _ := Draft.Steps
  owners draft id := (draft.program.decl id).kind.sort = .tag
  constants draft id := (draft.program.decl id).kind.isEnumConstant = true
  stmt _ before _ own := ∀ inner, own.Declares inner → before.program.decls.size ≤ inner
  refl _ := .refl
  trans first last := first.trans last
  reached _ := trivial
  remains _ _ := trivial
  ownersStay steps isTag := by rw [steps.decl_of_lt (Program.lt_size_of_sort isTag (by decide)), isTag]
  constantsStay steps known := by rwa [steps.decl_of_lt (Program.lt_size_of_isEnumConstant known)]
  since steps own inner declares := steps.size_le.trans (own inner declares)
  stays _ own := own
  node _ _ plain children inner declares := by
    rcases Stmt.declares_node.mp declares with same | ⟨child, member, declares⟩
    · cases same
      cases plain
    · exact children child member inner declares
  typeRef _ _ _ _ declares := by cases Stmt.declares_leaf.mp declares
  name _ _ _ found _ declares := absurd declares (Draft.not_declares_nameStmt found)
  callee _ _ _ found _ declares := absurd declares (Draft.not_declares_macroCallee found)
  scope _ := ⟨trivial, fun steps => ⟨(Draft.Steps.head .enter steps).tail .leave, id⟩⟩
  declaration {_ _ draft} _ _ := by
    refine ⟨trivial, fun {after} steps => ⟨?_, fun id declared inner declares => ?_⟩⟩
    · exact (Draft.Steps.head (.withSpan draft _) steps).tail (.withSpan after draft.span)
    · cases Stmt.declares_leaf.mp declares
      simp only [Draft.declaredSince, List.mem_filter, Bool.and_eq_true, decide_eq_true_eq] at declared
      exact declared.2.1
  addType {_ draft} type _ unnamed _ :=
    (addType_steps draft fun id found => by simp [unnamed] at found).mono fun _ _ steps => ⟨steps, trivial⟩
  namedType {_ draft} name _ :=
    (addType_steps draft fun id found => nameable_of_namedType found).mono fun _ _ steps => ⟨steps, trivial⟩
  tag {_ draft start} standalone kind name _ _ := by
    refine (tagReference_steps draft standalone kind name start).mono fun id middle ⟨steps, nameable⟩ => ?_
    refine (addType_steps middle fun other found => ?_).mono fun _ after last => ⟨steps.trans last, trivial⟩
    cases kind <;> cases found <;> exact nameable
  record {_ draft start} isUnion name _ _ := by
    refine (defineTag_steps draft (.record isUnion [] true) trivial rfl name start).mono fun id first made => ?_
    refine ⟨trivial, fun {second fields} inner _ => ?_⟩
    refine (setFields_step made.id_eq.ge fields).mono fun _ third revised => ?_
    have closed : draft.Steps third := (made.steps.trans inner).tail revised
    refine (addType_steps third fun other found => ?_).mono fun _ after last => ⟨closed.trans last, trivial⟩
    cases found
    exact .plain ((made.sort_later inner revised).trans_ne (by simp [DeclKind.sort]))
  enumeration {_ draft start} name _ _ := by
    refine (defineTag_steps draft (.enumeration [] true) rfl rfl name start).mono fun id first made => ?_
    refine ⟨trivial, by rw [made.kind]; rfl, fun {second listed} inner known => ?_⟩
    refine (setConstants_step made.id_eq.ge known).mono fun _ third revised => ?_
    have closed : draft.Steps third := (made.steps.trans inner).tail revised
    refine (addType_steps third fun other found => ?_).mono fun _ after last => ⟨closed.trans last, trivial⟩
    cases found
    exact .plain ((made.sort_later inner revised).trans_ne (by simp [DeclKind.sort]))
  enumerator {_ _ draft owner _ init} name value _ isTag _ _ := by
    refine (declare_steps draft (.enumConstant value owner init) trivial (fun _ found => by cases found) ?_).mono ?_
    · intro _ _ _ same
      cases same
      exact isTag
    · intro id after made
      have bound := made.ordinary name
      exact ⟨bound.steps, by rw [bound.kind]; rfl⟩
  object {_ full bare extent draft type} storage isInline name _ _ _ _ _ := by
    refine (declareObject_steps draft storage isInline full bare name extent type).mono fun id first made => ?_
    refine ⟨trivial, fun {second init} read later => ?_⟩
    refine (setInit_step made.id_eq.ge fun stmt member inner declares => ?_).mono fun _ after last => ?_
    · exact Nat.lt_of_lt_of_le made.inside (later stmt member inner declares)
    · exact (made.steps.trans read).tail last
  typedef {_ full _ extent draft type} name _ _ _ _ _ :=
    (declareTypedef_steps draft full name extent type).mono fun _ _ made => made.steps

theorem stepping_within (host : Extent) (draft : Draft) : stepping.within host draft :=
  trivial

theorem enterType_steps (standalone : Bool) (spec : TypeSpec) (draft : Draft) :
    Gives (enterType standalone spec) draft fun _ after => draft.Steps after :=
  (stepping.enterType standalone spec draft trivial (spec.placed_anywhere ⟨0, 0⟩ fun _ _ => trivial)).mono
    fun _ _ read => read.1

theorem enterDeclarator_steps (base : TypeId) (declarator : Declarator) (draft : Draft) :
    Gives (enterDeclarator base [] declarator) draft fun _ after => draft.Steps after :=
  (stepping.enterDeclarator base [] declarator draft trivial trivial (by simp) (declarator.placed_anywhere ⟨0, 0⟩ ⟨0, 0⟩
    fun _ _ => trivial)).mono fun _ _ read => read.relates

theorem enterExpr_steps (expr : Expr) (draft : Draft) :
    Gives (enterExpr expr) draft fun _ after => draft.Steps after :=
  (stepping.enterExpr expr draft trivial (expr.placed_anywhere ⟨0, 0⟩ ⟨0, 0⟩ fun _ _ => trivial)).mono
    fun _ _ read => read.1

theorem enterDeclaration_steps (declaration : Declaration) (draft : Draft) :
    Gives (enterDeclaration declaration) draft fun _ after => draft.Steps after :=
  stepping.enterDeclaration declaration draft trivial (declaration.placed_anywhere ⟨0, 0⟩ fun _ _ => trivial)

theorem declareParams_steps (function : DeclId) (params : List TypedParam) (draft : Draft) :
    Gives (declareParams function params) draft fun _ after => draft.Steps after := by
  induction params generalizing draft with
  | nil => exact .refl
  | cons param rest ih =>
    cases named : param.name with
    | none =>
      simp only [declareParams, named]
      exact ih draft
    | some found =>
      simp only [declareParams, named, gives_bind, gives_get, gives_modify]
      refine (addDecl_steps draft _ ?_ (fun _ found => by cases found) fun _ _ _ same => by cases same).mono ?_
      · exact rfl
      · intro id middle made
        exact (ih _).mono fun _ after last => (made.ordinary found.1).steps.trans last

/-- A function is declared before its parameters and its body are read, so they may refer to it. -/
theorem enterFunction_steps (storage : StorageClass) (isInline : Bool) (base : TypeSpec) (declarator : Declarator)
    (extent : Extent) (body : Expr) (draft : Draft) :
    Gives (enterFunction storage isInline base declarator extent body) draft fun _ after => draft.Steps after := by
  simp only [enterFunction, gives_bind]
  refine (enterType_steps false base draft).mono fun base first typed => ?_
  refine (enterDeclarator_steps base declarator first).mono fun named second declared => ?_
  split
  · exact typed.trans declared
  · next name nameExtent _ =>
    simp only [gives_bind, gives_get, gives_modify]
    refine (declareFunction_steps second).mono fun id third made => ?_
    have marked : Draft.Step third.program.decls.size third _ :=
      .withDefined third ((third.program.decl id).chain :: third.defined)
    have bound : Draft.Step third.program.decls.size
        { third with defined := (third.program.decl id).chain :: third.defined } _ :=
      .ordinary name id made.inside
    refine (declareParams_steps id named.params _).mono fun _ fourth params => ?_
    refine (enterExpr_steps body fourth).mono fun body fifth read => ?_
    have opened : third.Steps fourth := .head marked (.head bound (.head .enter (.head (.withFunction _ _) params)))
    have new : draft.program.decls.size ≤ id := made.id_eq ▸ (typed.trans declared).size_le
    refine (setBody_step new body).mono fun _ after last => ?_
    have entered : draft.Steps fifth := (typed.trans declared).trans ((made.steps.trans opened).trans read)
    exact ((entered.tail .leave).tail (.withFunction _ none)).tail last

end Drafting

end Excerpt
