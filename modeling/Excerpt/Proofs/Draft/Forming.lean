import Excerpt.Proofs.Draft.Formation

namespace Excerpt

namespace Drafting

open Surface

def ParamsFormed (program : Program) (params : List TypedParam) : Prop :=
  ∀ param ∈ params, param.type < program.types.size

theorem ParamsFormed.mono {program later : Program} (upholds : program.Upholds later) {params : List TypedParam}
    (formed : ParamsFormed program params) : ParamsFormed later params :=
  fun param member => (formed param member).trans_le upholds.types

def forming (scene : Scene) : Reader where
  inside := Extent.Anywhere
  spells := scene.Allows
  holds _ := Draft.Formed scene
  relates _ before after := before.Steps after ∧ after.Formed scene
  types draft type := type < draft.program.types.size
  spans span := span.file = scene.file
  owners draft id := (draft.program.decl id).kind.isEnumeration = true
  constants draft id := (draft.program.decl id).kind.isEnumConstant = true
  stmt outer before after own := stepping.stmt outer before after own ∧ own.Formed scene after.program
  refl formed := ⟨.refl, formed⟩
  trans first last := ⟨first.1.trans last.1, last.2⟩
  reached related := related.2
  remains _ related := related.2
  typesStay related known := (related.1.typesStay _ known).1
  ownersStay related owned := by
    rw [related.1.decl_of_lt (Program.lt_size_of_sort (DeclKind.sort_of_isEnumeration owned) (by decide)), owned]
  constantsStay related known := by rwa [related.1.decl_of_lt (Program.lt_size_of_isEnumConstant known)]
  since related own := ⟨fun inner declares => related.1.size_le.trans (own.1 inner declares), own.2⟩
  stays related own := ⟨own.1, own.2.mono related.1.upholds⟩
  span formed _ := formed.file
  node {host _ _ draft _ _ _ _} _ inside plain children := by
    refine ⟨stepping.node (stepping_within host draft) inside plain fun child member => (children child member).1, ?_⟩
    refine Stmt.AllFormed.node (fun child member => (children child member).2) ?_ ?_ _ (List.mem_singleton_self _)
    · rintro name rfl
      cases plain
    · rintro type rfl
      cases plain
  typeRef {host _ _ _ after _} _ inside known := by
    refine ⟨stepping.typeRef (stepping_within host after) inside trivial, ?_⟩
    refine Stmt.AllFormed.node (fun _ none => by cases none) (fun _ same => by cases same) ?_ _
      (List.mem_singleton_self _)
    rintro type same
    cases same
    exact known
  name {host _ _ draft _ _} formed inside allowed found :=
    ⟨stepping.name (stepping_within host draft) inside trivial found,
      nameStmt_formed formed allowed _ (Option.mem_toList.mpr found)⟩
  callee {host _ _ draft _ _} formed inside allowed found :=
    ⟨stepping.callee (stepping_within host draft) inside trivial found, macroCallee_formed formed allowed found⟩
  scope formed := by
    refine ⟨formed.same (.single .enter) rfl,
      fun related => ⟨⟨?_, related.2.same (.single .leave) rfl⟩, fun own => own⟩⟩
    exact (Draft.Steps.head .enter related.1).tail .leave
  declaration {host _ draft} formed inside := by
    refine ⟨formed.same (.single (.withSpan draft _)) rfl, fun {after} related => ?_⟩
    obtain ⟨steps, locals⟩ := (stepping.declaration (stepping_within host draft) inside).2 related.1
    refine ⟨⟨steps, related.2.same (.single (.withSpan after _)) rfl⟩, fun id declared => ⟨locals id declared, ?_⟩⟩
    exact Stmt.AllFormed.node (fun _ none => by cases none) (fun _ same => by cases same)
      (fun _ same => by cases same) _ (List.mem_singleton_self _)
  addType {host draft} type formed unnamed parts := by
    refine ((stepping.addType type (stepping_within host draft) unnamed fun _ _ => trivial).and
      (addType_formed formed type ?_)).mono fun id after ⟨steps, last⟩ => ⟨⟨steps.1, last.1⟩, last.2⟩
    cases type with
    | builtin | unresolved => trivial
    | pointer target => exact parts target (List.mem_singleton_self _)
    | array element size => exact parts element (List.mem_singleton_self _)
    | function result params variadic =>
      refine ⟨parts result ?_, fun param member => parts param ?_⟩
      · exact List.mem_append_right _ (List.mem_singleton_self _)
      · exact List.mem_append_left _ (List.mem_reverse.mpr member)
    | record | enumeration | typedef => cases unnamed
  namedType {host draft} name formed :=
    ((stepping.namedType name (stepping_within host draft)).and (addType_formed formed _ (namedType_formed name))).mono
      fun _ _ ⟨steps, last⟩ => ⟨⟨steps.1, last.1⟩, last.2⟩
  tag {_ draft start} standalone kind name formed starts := by
    refine ((stepping.tag standalone kind name trivial starts).and
      (tagReference_formed formed standalone kind name start)).mono fun id middle ⟨steps, formed, isTag⟩ => ?_
    have own : (kind.typeOf id).Formed middle.program := by cases kind <;> exact isTag
    exact (Gives.and steps (addType_formed formed _ own)).mono fun _ _ ⟨steps, last⟩ => ⟨⟨steps.1, last.1⟩, last.2⟩
  record {_ draft start} isUnion name formed starts := by
    refine ((stepping.record isUnion name trivial starts).and
      ((defineTag_steps draft (.record isUnion [] true) trivial rfl name start).and
        (defineTag_addsOne draft name start (.record isUnion [] true)))).mono fun id first ⟨steps, made, adds⟩ => ?_
    have opened := formed.added made.steps adds (formed_of_bare rfl rfl (fun _ _ _ same => by cases same; rfl) rfl)
    refine ⟨opened, fun {second fields} inner own => ?_⟩
    have since : scene.base ≤ id := made.id_eq ▸ formed.since
    have inside := made.inside.trans_le inner.1.size_le
    refine ((steps.2 inner.1 fun _ _ => ⟨trivial, trivial⟩).and ((setFields_step made.id_eq.ge fields).and
      (setFields_formed inner.2 since inside own))).mono fun _ third ⟨steps, revised, closed⟩ => ?_
    exact (Gives.and steps (addType_formed closed _ (made.sort_later inner.1 revised))).mono
      fun _ _ ⟨steps, last⟩ => ⟨⟨steps.1, last.1⟩, last.2⟩
  enumeration {_ draft start} name formed starts := by
    refine ((stepping.enumeration name trivial starts).and
      ((defineTag_steps draft (.enumeration [] true) rfl rfl name start).and
        (defineTag_addsOne draft name start (.enumeration [] true)))).mono fun id first ⟨steps, made, adds⟩ => ?_
    have opened := formed.added made.steps adds (formed_of_bare rfl rfl (fun _ _ _ same => by cases same) rfl)
    refine ⟨opened, by rw [made.kind]; rfl, fun {second listed} inner known => ?_⟩
    have since : scene.base ≤ id := made.id_eq ▸ formed.since
    have inside := made.inside.trans_le inner.1.size_le
    refine ((steps.2.2 inner.1 known).and ((setConstants_step made.id_eq.ge known).and
      (setConstants_formed inner.2 since inside known))).mono fun _ third ⟨steps, revised, closed⟩ => ?_
    exact (Gives.and steps (addType_formed closed _ (made.sort_later inner.1 revised))).mono
      fun _ _ ⟨steps, last⟩ => ⟨⟨steps.1, last.1⟩, last.2⟩
  enumerator {_ before draft owner start init} name value formed owned starts own := by
    have isTag := DeclKind.sort_of_isEnumeration owned
    refine ((stepping.enumerator name value trivial isTag starts fun _ _ => (own _ ‹_›).1).and
      (declare_addsOne draft _ _ _ _ _ _)).mono fun id after ⟨⟨steps, known⟩, adds⟩ => ⟨⟨steps, ?_⟩, known⟩
    refine formed.added steps (adds.same (Draft.bindOrdinary_program _ _ _)) ⟨fun _ none => (by cases none),
      fun stmt found => (own stmt found).2, fun _ _ _ same => (by cases same), fun _ _ _ same => ?_⟩
    cases same
    exact owned
  object {host full bare extent draft type} storage isInline name formed fullInside bareInside nameInside known := by
    have opens : stepping.holds host draft := trivial
    have alone : Gives (declareObject storage isInline full bare name extent type) draft fun _ after =>
        Draft.AddsOne (objectKind draft type isInline) draft after := declareNamed_addsOne draft
    refine ((stepping.object storage isInline name opens fullInside bareInside nameInside trivial).and
      ((declareObject_steps draft storage isInline full bare name extent type).and alone)).mono
      fun id first ⟨steps, made, adds⟩ => ?_
    refine ⟨formed.added made.steps adds (formed_of_object known), fun {second init} read own => ?_⟩
    refine ((steps.2 read.1 fun stmt member => (own stmt member).1).and
      (setInit_formed read.2 (made.id_eq ▸ formed.since)
      (made.inside.trans_le read.1.size_le) (fun stmt member inner declares => ?_) fun stmt member => ?_)).mono
      fun _ _ closed => closed
    · exact Nat.lt_of_lt_of_le made.inside ((own stmt member).1 inner declares)
    · exact (own stmt (Option.mem_toList.mp member)).2
  typedef {_ full _ extent draft type} name formed _ _ _ known := by
    have alone : Gives (declareTypedef full name extent type) draft fun _ after =>
        Draft.AddsOne (.typedef type) draft after := declareNamed_addsOne draft
    refine ((declareTypedef_steps draft full name extent type).and alone).mono fun id after ⟨made, adds⟩ =>
      ⟨made.steps, ?_⟩
    refine formed.added made.steps adds (formed_of_declared (by simp [DeclKind.sort]) (by simp [DeclKind.sort]) ?_
      fun _ found => by cases found)
    simpa [DeclKind.declaredTypes] using known

theorem declareParams_formed {scene : Scene} {function : DeclId} {params : List TypedParam} {draft : Draft}
    (formed : draft.Formed scene) (own : ParamsFormed draft.program params) :
    Gives (declareParams function params) draft fun _ after => after.Formed scene := by
  induction params generalizing draft with
  | nil => exact formed
  | cons param rest ih =>
    obtain ⟨first, others⟩ := List.forall_mem_cons.mp own
    cases named : param.name with
    | none =>
      simp only [declareParams, named]
      exact ih formed others
    | some found =>
      simp only [declareParams, named, gives_bind, gives_get, gives_modify]
      refine ((addDecl_steps draft _ ?_ (fun _ found => by cases found) fun _ _ _ same => by cases same).and
        (addDecl_addsOne draft _ none)).mono ?_
      · exact rfl
      · intro id middle both
        obtain ⟨made, adds⟩ := both
        have bound := made.ordinary found.1
        have kind : DeclKind.Formed scene draft.program (.var param.type none) :=
          formed_of_declared (by simp [DeclKind.sort]) (by simp [DeclKind.sort])
            (by simpa [DeclKind.declaredTypes] using first) fun _ none => by cases none
        exact ih (formed.added bound.steps (adds.same (Draft.bindOrdinary_program _ _ _)) kind)
          (ParamsFormed.mono bound.steps.upholds others)

theorem enterFunction_formed {scene : Scene} (storage : StorageClass) (isInline : Bool) {base : TypeSpec}
    {declarator : Declarator} (extent : Extent) {body : Expr} {draft : Draft} (formed : draft.Formed scene)
    {host outer : Extent} (basePlaced : base.Placed Extent.Anywhere scene.Allows host)
    (declaratorPlaced : declarator.Placed Extent.Anywhere scene.Allows host outer)
    (bodyPlaced : body.Placed Extent.Anywhere scene.Allows host host) :
    Gives (enterFunction storage isInline base declarator extent body) draft fun _ after => after.Formed scene := by
  simp only [enterFunction, gives_bind]
  refine ((forming scene).enterType false base draft formed basePlaced).mono fun base first head => ?_
  obtain ⟨⟨-, formed⟩, known⟩ := head
  refine ((forming scene).enterDeclarator base [] declarator first formed known (by simp)
    declaratorPlaced).mono fun named second read => ?_
  have formed := read.relates.2
  have own : named.type < second.program.types.size := read.type
  have params : ParamsFormed second.program named.params := fun param member => (read.params param member).type
  split
  · exact formed
  · next name nameExtent _ =>
    simp only [gives_bind, gives_get, gives_modify]
    refine ((declareFunction_steps second).and (declare_addsOne second _ _ _ _ _ _)).mono fun id third both => ?_
    obtain ⟨made, adds⟩ := both
    have kind : DeclKind.Formed scene second.program (.function named.type none isInline) :=
      formed_of_declared (by simp [DeclKind.sort]) (by simp [DeclKind.sort])
        (by simpa [DeclKind.declaredTypes] using own) fun _ none => by cases none
    have declared := formed.added made.steps adds kind
    have marked := declared.same (.single (.withDefined third ((third.program.decl id).chain :: third.defined))) rfl
    have bound := marked.same (.single (.ordinary name id made.inside)) (Draft.bindOrdinary_program _ _ _)
    have opened := (bound.same (.single .enter) rfl).same (.single (.withFunction _ (some id))) rfl
    have listed : ParamsFormed third.program named.params := params.mono made.steps.upholds
    refine ((declareParams_steps id named.params _).and (declareParams_formed opened (by
      intro param member
      simpa [Draft.enterScope] using listed param member))).mono fun _ fourth both => ?_
    obtain ⟨steps, formed'⟩ := both
    refine ((forming scene).enterExpr body fourth formed' bodyPlaced).mono fun body fifth last => ?_
    obtain ⟨⟨read, formed'⟩, own⟩ := last
    have closed := (formed'.same (.single .leave) rfl).same (.single (.withFunction _ none)) rfl
    refine setBody_formed closed (made.id_eq ▸ formed.since) ?_ fun stmt member => (own stmt member).2
    have inside : id < (({ third with defined := (third.program.decl id).chain :: third.defined } : Draft).bindOrdinary
        name id).program.decls.size := by
      rw [Draft.bindOrdinary_program]
      exact made.inside
    exact inside.trans_le (steps.size_le.trans read.size_le)

theorem codeOf_formed {scene : Scene} {form : Form} {draft : Draft} (formed : draft.Formed scene)
    (allowed : Spelled scene.Allows form.names) : Gives (codeOf form) draft fun _ after => after.Formed scene := by
  have placed := Form.placed_anywhere ⟨0, 0⟩ allowed
  cases form with
  | function storage isInline base declarator extent body =>
    exact enterFunction_formed storage isInline extent formed placed.1 placed.2.2.1 placed.2.2.2
  | declaration declaration =>
    exact ((forming scene).enterDeclaration declaration draft formed placed).mono fun _ _ read => read.2
  | inclusion | define | undef | directive | other => exact formed

end Drafting

end Excerpt
