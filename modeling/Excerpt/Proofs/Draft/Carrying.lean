import Excerpt.Proofs.Draft.Reading

/-!
Relations between drafts that reading carries: one that composes and holds across each action holds across everything
that is read.
-/

namespace Excerpt

namespace Drafting

open Surface

variable {α : Type} {relates : Draft → Draft → Prop} {types : Draft → TypeId → Prop}

/-- Running the action leads from a draft to a related one. -/
def Carried (relates : Draft → Draft → Prop) (action : Drafting α) : Prop :=
  ∀ draft, Gives action draft fun _ after => relates draft after

structure Carries (relates : Draft → Draft → Prop) (types : Draft → TypeId → Prop := fun _ _ => True) : Prop where
  refl : ∀ draft, relates draft draft
  trans : ∀ {before middle after}, relates before middle → relates middle after → relates before after
  typesStay : ∀ {before after type}, relates before after → types before type → types after type
  addType : ∀ type draft, (∀ part ∈ type.parts, types draft part) →
    Gives (addType type) draft fun id after => relates draft after ∧ types after id
  tagReference : ∀ standalone kind name start, Carried relates (tagReference standalone kind name start)
  defineTag : ∀ name start kind, kind.isTag = true → kind.isDefinition = true →
    Carried relates (defineTag name start kind)
  declareObject : ∀ storage isInline full bare name extent type,
    Carried relates (declareObject storage isInline full bare name extent type)
  declareTypedef : ∀ full name extent type, Carried relates (declareTypedef full name extent type)
  /-- A name that continues nothing is declared and bound. -/
  declareBound :
    ∀ (decl : Draft → Decl) name, (∀ draft, (decl draft).kind.isTag = false ∧ (decl draft).kind.hasBody = false) →
    ∀ draft, relates draft
      (({ draft with program := draft.program.addDecl (decl draft) none } : Draft).bindOrdinary name
        draft.program.decls.size)
  setFields : ∀ id fields, Carried relates (setFields id fields)
  setConstants : ∀ id constants, Carried relates (setConstants id constants)
  setInit : ∀ id init, Carried relates (setInit id init)
  enterScope : ∀ draft, relates draft draft.enterScope
  leaveScope : ∀ draft, relates draft draft.leaveScope
  withSpan : ∀ draft span, relates draft { draft with span }

namespace Carries

variable (carries : Carries relates types)

def reader : Reader where
  inside := Extent.Anywhere
  holds _ _ := True
  relates _ := relates
  types := types
  refl _ := carries.refl _
  trans first last := carries.trans first last
  reached _ := trivial
  remains _ _ := trivial
  typesStay related known := carries.typesStay related known
  scope {_ draft} _ := ⟨trivial, fun {after} read =>
    ⟨carries.trans (carries.enterScope draft) (carries.trans read (carries.leaveScope after)), id⟩⟩
  declaration {_ _ draft} _ _ := ⟨trivial, fun {after} read =>
    ⟨carries.trans (carries.withSpan draft _) (carries.trans read (carries.withSpan after _)), fun _ _ => trivial⟩⟩
  addType {_ draft} type _ _ known := carries.addType type draft known
  namedType {_ draft} name _ := carries.addType _ draft fun part listed => by
    rw [draft.parts_namedType name] at listed
    cases listed
  tag {_ draft start} standalone kind name _ _ :=
    (carries.tagReference standalone kind name start draft).mono fun _ middle mentioned =>
      (carries.addType _ middle (by cases kind <;> simp [TagKind.typeOf, CType.parts])).mono fun _ _ added =>
        ⟨carries.trans mentioned added.1, added.2⟩
  record {_ draft start} isUnion name _ _ := by
    refine (carries.defineTag name start (.record isUnion [] true) rfl rfl draft).mono fun id first opened => ?_
    refine ⟨trivial, fun {second fields} read _ => ?_⟩
    refine (carries.setFields id fields second).mono fun _ third closed => ?_
    have whole := carries.trans opened (carries.trans read closed)
    exact (carries.addType _ third (by simp [CType.parts])).mono fun _ _ added => ⟨carries.trans whole added.1, added.2⟩
  enumeration {_ draft start} name _ _ := by
    refine (carries.defineTag name start (.enumeration [] true) rfl rfl draft).mono fun id first opened => ?_
    refine ⟨trivial, trivial, fun {second listed} read _ => ?_⟩
    refine (carries.setConstants id listed second).mono fun _ third closed => ?_
    have whole := carries.trans opened (carries.trans read closed)
    exact (carries.addType _ third (by simp [CType.parts])).mono fun _ _ added => ⟨carries.trans whole added.1, added.2⟩
  enumerator {_ _ draft owner start init} name value _ _ _ _ :=
    ⟨carries.declareBound
      (fun draft => ⟨some name, .enumConstant value owner init, .unspecified, draft.span, ⟨draft.item, start⟩, none,
        draft.function, draft.item, 0⟩) name (fun _ => ⟨rfl, rfl⟩) draft, trivial⟩
  object {_ full bare extent draft type} storage isInline name _ _ _ _ _ := by
    refine (carries.declareObject storage isInline full bare name extent type draft).mono fun id first opened => ?_
    refine ⟨trivial, fun {second init} read _ => ?_⟩
    exact (carries.setInit id init second).mono fun _ _ closed => carries.trans opened (carries.trans read closed)
  typedef {_ full _ extent draft type} name _ _ _ _ _ := carries.declareTypedef full name extent type draft

include carries

theorem enterType (standalone : Bool) (spec : TypeSpec) (draft : Draft) :
    Gives (enterType standalone spec) draft fun type after => relates draft after ∧ types after type :=
  carries.reader.enterType standalone spec draft trivial (spec.placed_anywhere ⟨0, 0⟩ fun _ _ => trivial)

theorem enterDeclarator {base : TypeId} (declarator : Declarator) {draft : Draft} (known : types draft base) :
    Gives (enterDeclarator base [] declarator) draft fun _ after => relates draft after :=
  (carries.reader.enterDeclarator base [] declarator draft trivial known (by simp)
    (declarator.placed_anywhere ⟨0, 0⟩ ⟨0, 0⟩ fun _ _ => trivial)).mono fun _ _ read => read.relates

theorem enterExpr (expr : Expr) : Carried relates (enterExpr expr) := fun draft =>
  (carries.reader.enterExpr expr draft trivial (expr.placed_anywhere ⟨0, 0⟩ ⟨0, 0⟩ fun _ _ => trivial)).mono
    fun _ _ read => read.1

theorem enterDeclaration (declaration : Declaration) : Carried relates (enterDeclaration declaration) := fun draft =>
  carries.reader.enterDeclaration declaration draft trivial (declaration.placed_anywhere ⟨0, 0⟩ fun _ _ => trivial)

theorem declareParams (function : DeclId) (params : List TypedParam) :
    Carried relates (declareParams function params) := by
  induction params with
  | nil => exact carries.refl
  | cons param rest ih =>
    intro draft
    cases named : param.name with
    | none =>
      simp only [Drafting.declareParams, named]
      exact ih draft
    | some found =>
      simp only [Drafting.declareParams, named, gives_bind, gives_get]
      refine (ih _).mono fun _ after read => carries.trans ?_ read
      exact carries.declareBound
        (fun draft => ⟨some found.1, .var param.type none, .unspecified, draft.spanOf param.extent,
          ⟨draft.item, found.2.start⟩, none, some function, draft.item, 0⟩) found.1 (fun _ => ⟨rfl, rfl⟩) draft

end Carries

end Drafting

end Excerpt
