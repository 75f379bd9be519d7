import Excerpt.Proofs.Draft.Places

namespace Excerpt

namespace Draft

section Names

variable {draft : Draft} {name : String} {id : DeclId}

theorem mem_bindOrdinary {entry : String × DeclId} (bound : entry ∈ (draft.bindOrdinary name id).fileScope.ordinary) :
    entry ∈ draft.fileScope.ordinary ∨ entry = (name, id) ∧ draft.blocks = [] := by
  unfold bindOrdinary modifyInnermost at bound
  split at bound
  · next none =>
    rcases List.mem_cons.mp bound with same | bound
    · exact .inr ⟨same, none⟩
    · exact .inl bound
  · exact .inl bound

theorem bindOrdinary_frame : (draft.bindOrdinary name id).span = draft.span ∧
    (draft.bindOrdinary name id).function = draft.function ∧
    (draft.bindOrdinary name id).blocks.length = draft.blocks.length := by
  unfold bindOrdinary modifyInnermost
  split
  · exact ⟨rfl, rfl, rfl⟩
  · next some => exact ⟨rfl, rfl, by simp [some]⟩

theorem bindTag_frame : (draft.bindTag name id).span = draft.span ∧ (draft.bindTag name id).function = draft.function ∧
    (draft.bindTag name id).blocks.length = draft.blocks.length ∧
    (draft.bindTag name id).fileScope.ordinary = draft.fileScope.ordinary := by
  unfold bindTag modifyInnermost
  split
  · exact ⟨rfl, rfl, rfl, rfl⟩
  · next some => exact ⟨rfl, rfl, by simp [some], rfl⟩

theorem Consistent.lt_of_ordinary (consistent : draft.Consistent) (found : draft.ordinary? name = some id) :
    id < draft.program.decls.size := by
  obtain ⟨scope, member, bound⟩ := List.exists_of_findSome?_eq_some found
  exact (consistent.scopes scope member).ordinary _ (mem_of_lookup bound)

end Names

theorem Stands.spanOf {site : Site} {host : Extent} {draft : Draft} (stands : draft.Stands site host)
    (extent : Extent) : draft.spanOf extent = extent.inFile site.file :=
  congrArg (Span.mk · extent.start extent.stop) stands.file

section Macros

variable {site : Site} {draft : Draft} {extent outer : Extent}

theorem lies_expansionFrom (consistent : draft.Consistent) (within : site.inside extent outer) (depth : Nat)
    (active : List MacroId) (id : MacroId) :
    (draft.expansionFrom (extent.inFile site.file) depth active id).Lies site draft.program outer := by
  induction depth generalizing active id outer with
  | zero => exact Stmt.lies_node within trivial fun _ none => by cases none
  | succ depth ih =>
    refine Stmt.lies_node within trivial fun child member => ?_
    have self := site.nesting.self within
    obtain ⟨name, -, found⟩ := List.mem_filterMap.mp member
    split at found
    · cases found
      exact ih self _ _
    · obtain ⟨decl, bound, rfl⟩ := Option.map_eq_some_iff.mp found
      exact Stmt.lies_node self (consistent.lt_of_ordinary bound) fun _ none => by cases none

theorem lies_nameStmt (consistent : draft.Consistent) (within : site.inside extent outer) {name : String} {stmt : Stmt}
    (found : draft.nameStmt? name (extent.inFile site.file) = some stmt) : stmt.Lies site draft.program outer := by
  unfold nameStmt? at found
  split at found
  · cases found
    exact lies_expansionFrom consistent within _ [] _
  · obtain ⟨decl, bound, rfl⟩ := Option.map_eq_some_iff.mp found
    exact Stmt.lies_node within (consistent.lt_of_ordinary bound) fun _ none => by cases none

end Macros

end Draft

namespace Draft

section Regions

variable {site : Site} {host extent : Extent} {draft after : Draft} (stands : draft.Stands site host)
include stands

theorem Stands.enterScope : draft.enterScope.Stands site host :=
  ⟨stands.file, stands.item, stands.span, stands.host, (Steps.single .enter).consistent stands.consistent,
    stands.bound.names, fun _ => List.cons_ne_nil _ _⟩

theorem Lays.scope (inner : draft.enterScope.Lays site host after) : draft.Lays site host after.leaveScope := by
  have steps : draft.Steps after.leaveScope := (Steps.head .enter inner.steps).tail .leave
  have blocks : after.leaveScope.blocks.length = draft.blocks.length := by
    have length := inner.blocks
    simp only [Draft.enterScope, Draft.leaveScope, List.length_cons, List.length_tail] at length ⊢
    omega
  exact ⟨steps, stands.ofSteps steps (inner.stands.span.trans stands.span.symm) inner.function blocks
    fun name id bound => .inr (inner.stands.bound.names name id bound), inner.function, blocks, inner.sits,
      inner.linked⟩

theorem Stands.withSpan (within : site.inside extent host) :
    ({ draft with span := extent.inFile site.file } : Draft).Stands site extent :=
  ⟨stands.file, stands.item, rfl, site.nesting.self within,
    (Steps.single (.withSpan draft _)).consistent stands.consistent, stands.bound.names, stands.bound.blocks⟩

theorem Lays.declaration (within : site.inside extent host)
    (inner : ({ draft with span := extent.inFile site.file } : Draft).Lays site extent after) :
    draft.Lays site host { after with span := draft.span } := by
  have steps : draft.Steps { after with span := draft.span } :=
    (Steps.head (.withSpan draft _) inner.steps).tail (.withSpan after draft.span)
  exact ⟨steps, stands.ofSteps steps rfl inner.function inner.blocks
    fun name id bound => .inr (inner.stands.bound.names name id bound), inner.function, inner.blocks,
    fun id since known => (inner.sits id since known).widen within, inner.linked⟩

end Regions

end Draft

structure TypedParam.Lies (site : Site) (host : Extent) (param : TypedParam) : Prop where
  extent : site.inside param.extent host
  name : ∀ name extent, param.name = some (name, extent) → site.inside extent param.extent

namespace Drafting

open Surface

section Primitives

variable {site : Site} {host : Extent} {draft : Draft} (stands : draft.Stands site host)
include stands

theorem addType_lays {type : CType} (named : ∀ id, type.named? = some id → draft.Nameable id) :
    Gives (addType type) draft fun _ after => draft.Lays site host after := by
  refine Draft.Lays.ofSteps stands (addType_steps draft named) rfl rfl rfl rfl ?_
  change (draft.program.addType type).2.decls.size = draft.program.decls.size
  unfold Program.addType
  split <;> rfl

theorem sits_declare (name : Option String) (kind : DeclKind) (storage : StorageClass) {offset : Nat}
    (declarator : Option DeclaratorSpans) (starts : StartsIn site.inside host offset)
    (body : ∀ stmt, kind.body? = some stmt → stmt.Lies site draft.program host) (isNew : kind.IsNew)
    (named : kind.sort = .symbol ∨ kind.sort = .typeName → declarator.isSome = true)
    (lie : ∀ spans, declarator = some spans → ∃ full bare name, spans.Lie site host full bare name) :
    Decl.Sits site draft.program host draft.function
      ⟨name, kind, storage, draft.span, ⟨draft.item, offset⟩, declarator, draft.function, draft.item, 0⟩ := by
  refine ⟨stands.item, stands.item, .inl rfl, fun _ => named, host, stands.host, stands.span, starts, body, ?_⟩
  intro spans found
  obtain ⟨full, bare, name, lies⟩ := lie spans found
  refine ⟨full, bare, name, lies, fun type init same => ?_⟩
  rw [show kind = .var type (some init) from same] at isNew
  cases isNew

theorem sits_named (name : String) (kind : DeclKind) (storage : StorageClass) {extent nameExtent : Extent}
    (within : site.inside extent host) (nameInside : site.inside nameExtent extent) (bare : kind.body? = none)
    (isNew : kind.IsNew) : Decl.Sits site draft.program host draft.function
      ⟨some name, kind, storage, draft.span, ⟨draft.item, nameExtent.start⟩,
        some ⟨draft.spanOf extent, draft.spanOf extent, draft.spanOf nameExtent⟩, draft.function, draft.item, 0⟩ := by
  refine sits_declare stands (some name) kind storage _ ⟨nameExtent, site.nesting.trans nameInside within, rfl⟩
    (fun stmt found => by simp [bare] at found) isNew (fun _ => rfl) fun parts found => ?_
  cases found
  exact ⟨extent, extent, nameExtent, by simp only [stands.spanOf], within, site.nesting.self within, nameInside⟩

/-- The first mention of a tag belongs to the file, wherever it stands. -/
theorem tagReference_lays (standalone : Bool) (kind : TagKind) (name : String) {start : Nat}
    (starts : StartsIn site.inside host start) :
    Gives (tagReference standalone kind name start) draft fun _ after => draft.Lays site host after := by
  have isNew : kind.incomplete.IsNew := by cases kind <;> trivial
  have isTag : kind.incomplete.sort = .tag := by cases kind <;> rfl
  have plain : kind.incomplete.body? = none := by cases kind <;> rfl
  have forward : kind.incomplete.IsForward := by cases kind <;> exact ⟨rfl, rfl⟩
  have sits := sits_declare stands (some name) kind.incomplete .unspecified none starts
    (fun stmt found => by simp [plain] at found) isNew (by simp [isTag]) fun _ none => by cases none
  have steps := tagReference_steps draft standalone kind name start
  simp only [tagReference, gives_bind, gives_get] at steps ⊢
  split
  · next alone =>
    rw [if_pos alone] at steps
    obtain ⟨span, function, blocks, names⟩ := Draft.bindTag_frame
    exact Draft.Lays.ofDeclare stands steps.1 (Draft.bindTag_program _ _ _) span function blocks
      (fun other id bound => .inl (names ▸ bound)) sits fun _ _ symbol => by simp [isTag] at symbol
  · next used =>
    rw [if_neg used] at steps
    split
    · exact .refl stands
    · next unknown =>
      rw [unknown] at steps
      obtain ⟨own, within, lies⟩ := sits.place
      have outside : Decl.Sits site draft.program host draft.function
          ⟨some name, kind.incomplete, .unspecified, draft.span, ⟨draft.item, start⟩, none, none, draft.item, 0⟩ :=
        ⟨sits.item, sits.seq, .inr ⟨rfl, forward⟩, by simp [isTag], own, within, lies.span, lies.offset, lies.body,
          fun _ none => by cases none⟩
      have opens : ∀ earlier : DeclId, none = some earlier → kind.incomplete.sort = .symbol →
          ∃ other, some name = some other ∧ (other, earlier) ∈ draft.fileScope.ordinary := by
        intro _ found
        cases found
      exact Draft.Lays.ofDeclare stands steps.1 rfl rfl rfl rfl (fun other id bound => .inl bound) outside opens

theorem defineTag_lays (kind : DeclKind) (isNew : kind.IsNew) (isTag : kind.sort = .tag) (name : Option String)
    {start : Nat} (starts : StartsIn site.inside host start) :
    Gives (defineTag name start kind) draft fun id after => draft.Lays site host after ∧ Made draft kind id after := by
  have made := defineTag_steps draft kind isNew isTag name start
  refine Gives.and ?_ made
  have plain : kind.body? = none := by cases kind <;> first | rfl | cases isTag
  have sits := sits_declare stands name kind .unspecified none starts (fun stmt found => by simp [plain] at found) isNew
    (by simp [isTag]) fun _ none => by cases none
  have anonymous : ∀ earlier : DeclId, draft.incompleteTag? name = some earlier → kind.sort = .symbol →
      ∃ other, name = some other ∧ (other, earlier) ∈ draft.fileScope.ordinary := by
    intro _ _ symbol
    simp [isTag] at symbol
  cases name with
  | none => exact Draft.Lays.ofDeclare stands made.steps rfl rfl rfl rfl (fun _ _ bound => .inl bound) sits anonymous
  | some name =>
    obtain ⟨span, function, blocks, names⟩ := Draft.bindTag_frame
    exact Draft.Lays.ofDeclare stands made.steps (Draft.bindTag_program _ _ _) span function blocks
      (fun _ _ bound => .inl (names ▸ bound)) sits anonymous

theorem lays_addDecl {decl : Decl} {name : String} {previous : Option DeclId}
    (steps : Gives (do
      let id ← addDecl decl previous
      modify (·.bindOrdinary name id)) draft fun _ after => draft.Steps after)
    (named : decl.name = some name) (outer : draft.blocks = [] → decl.context = none)
    (sits : decl.Sits site draft.program host draft.function)
    (continued : ∀ earlier, previous = some earlier → decl.kind.sort = .symbol →
      (name, earlier) ∈ draft.fileScope.ordinary) :
    Gives (do
      let id ← addDecl decl previous
      modify (·.bindOrdinary name id)) draft fun _ after => draft.Lays site host after ∧
        after.program.decl draft.program.decls.size = { decl with chain := draft.program.nextChain previous } := by
  obtain ⟨span, function, blocks⟩ := Draft.bindOrdinary_frame
  refine ⟨Draft.Lays.ofDeclare stands steps (Draft.bindOrdinary_program _ _ _) span function blocks
    (fun other bound member => ?_) sits fun earlier found symbol => ⟨name, named, continued earlier found symbol⟩, ?_⟩
  · rcases Draft.mem_bindOrdinary member with old | ⟨same, outside⟩
    · exact .inl old
    · cases same
      exact .inr ⟨rfl, named, outer outside⟩
  · exact (congrArg (Program.decl · _) (Draft.bindOrdinary_program _ _ _)).trans Program.decl_addDecl_size

theorem function_eq_none (outside : draft.blocks = []) : draft.function = none := by
  cases found : draft.function with
  | none => rfl
  | some function => exact absurd outside (stands.bound.blocks (by rw [found]; rfl))

/-- An object lies in the declaration that is read, and continues at most one of its name at file scope. -/
theorem declareObject_lays {storage : StorageClass} {isInline : Bool} {full bare nameExtent : Extent} {name : String}
    {type : TypeId} (fullInside : site.inside full host) (bareInside : site.inside bare full)
    (nameInside : site.inside nameExtent bare) :
    Gives (declareObject storage isInline full bare name nameExtent type) draft fun id after =>
      draft.Lays site host after ∧ Made draft (objectKind draft type isInline) id after ∧
        (after.program.decl id).span = host.inFile site.file ∧
        (after.program.decl id).declarator =
          some ⟨full.inFile site.file, bare.inFile site.file, nameExtent.inFile site.file⟩ := by
  have made := declareObject_steps draft storage isInline full bare name nameExtent type
  have isNew : (objectKind draft type isInline).IsNew := by unfold objectKind; split <;> trivial
  have plain : (objectKind draft type isInline).body? = none := by unfold objectKind; split <;> rfl
  have starts : StartsIn site.inside host nameExtent.start :=
    ⟨nameExtent, site.nesting.trans nameInside (site.nesting.trans bareInside fullInside), rfl⟩
  have sits := sits_declare stands (some name) (objectKind draft type isInline) storage
    (some ⟨draft.spanOf full, draft.spanOf bare, draft.spanOf nameExtent⟩) starts
    (fun stmt found => by simp [plain] at found) isNew (fun _ => rfl) fun parts found => by
      cases found
      exact ⟨full, bare, nameExtent, by simp only [stands.spanOf], fullInside, bareInside, nameInside⟩
  have continued : ∀ earlier, draft.redeclared? name (draft.isFunctionType type) storage = some earlier →
      (objectKind draft type isInline).sort = .symbol → (name, earlier) ∈ draft.fileScope.ordinary := by
    intro earlier found _
    unfold Draft.redeclared? at found
    split at found
    · cases found
    · exact mem_of_lookup (Option.filter_eq_some_iff.mp found).1
  obtain ⟨lays, new⟩ := lays_addDecl stands made.steps rfl (function_eq_none stands) sits continued
  refine ⟨lays, made, ?_, ?_⟩
  · rw [made.id_eq]
    exact (congrArg Decl.span new).trans stands.span
  · rw [made.id_eq]
    refine (congrArg Decl.declarator new).trans ?_
    simp only [stands.spanOf]

theorem declareTypedef_lays {extent nameExtent : Extent} {name : String} {type : TypeId}
    (within : site.inside extent host) (nameInside : site.inside nameExtent extent) :
    Gives (declareTypedef extent name nameExtent type) draft fun _ after => draft.Lays site host after := by
  have made := declareTypedef_steps draft extent name nameExtent type
  have sits := sits_named stands name (.typedef type) .unspecified within nameInside rfl trivial
  exact (lays_addDecl stands made.steps rfl (function_eq_none stands) sits fun _ _ symbol => by cases symbol).1

end Primitives

section Parts

variable {site : Site} {host : Extent} {draft after : Draft}

theorem lays_revise_tag {before : Draft} {id : DeclId} {change : Decl → Decl} (lays : before.Lays site host draft)
    (kind : DeclKind)
    (revised : Draft.Step before.program.decls.size draft { draft with program := draft.program.modifyDecl id change })
    (changed : change (draft.program.decl id) = { draft.program.decl id with kind })
    (sort : kind.sort = (draft.program.decl id).kind.sort) (isTag : kind.sort = .tag)
    (defined : (draft.program.decl id).kind.isDefinition = true) :
    before.Lays site host { draft with program := draft.program.modifyDecl id change } := by
  refine lays.revise revised kind ⟨changed, sort, fun forward => ?_, fun stmt _ found => ?_, fun _ _ _ _ same => ?_⟩
  · rw [forward.2] at defined
    cases defined
  · cases kind with
    | record | enumeration => cases found
    | function | var | enumConstant | typedef => cases isTag
  · rw [same] at isTag
    cases isTag

theorem setInit_lays {before first : Draft} {id : DeclId} {init : Option Stmt} {type : TypeId} {isInline : Bool}
    {full bare name : Extent} (lays : before.Lays site host draft)
    (revised : Gives (setInit id init) draft fun _ after => Draft.Step before.program.decls.size draft after)
    (kind : (draft.program.decl id).kind = objectKind first type isInline)
    (span : (draft.program.decl id).span = host.inFile site.file)
    (spans : (draft.program.decl id).declarator =
      some ⟨full.inFile site.file, bare.inFile site.file, name.inFile site.file⟩)
    (fullInside : site.inside full host) (lie : ∀ stmt ∈ init, stmt.Lies site draft.program full) :
    Gives (setInit id init) draft fun _ after => before.Lays site host after := by
  unfold objectKind at kind
  split at kind
  · refine lays.revise revised (draft.program.decl id).kind ⟨?_, rfl, fun forward => forward,
      fun _ _ found => ?_, fun _ _ _ _ found => ?_⟩
    · split
      · next isVar => simp [kind] at isVar
      · rfl
    · simp [kind, DeclKind.body?] at found
    · simp [kind] at found
  · refine lays.revise revised (.var type init) ⟨by simp [kind], by simp [kind, DeclKind.sort],
      fun forward => absurd forward.1 (by simp [kind, DeclKind.isTag]), fun stmt own found place => ?_,
      fun _ stmt parts inner found present place => ?_⟩
    · have whole : own = host := Extent.eq_of_inFile (place.symm.trans span)
      rw [whole]
      exact (lie stmt found).widen fullInside
    · cases found
      rw [spans] at present
      cases present
      have whole : inner = full := Extent.eq_of_inFile place.symm
      rw [whole]
      exact lie stmt rfl

end Parts

def laying (site : Site) : Reader where
  inside := site.inside
  holds host draft := draft.Stands site host
  relates host before after := before.Lays site host after
  owners draft id := (draft.program.decl id).kind.sort = .tag
  constants draft id := (draft.program.decl id).kind.isEnumConstant = true
  stmt outer before after own := stepping.stmt outer before after own ∧ own.Lies site after.program outer
  refl := .refl
  trans := .trans
  reached lays := lays.stands
  remains _ lays := lays.stands
  ownersStay lays isTag := by rw [lays.steps.decl_of_lt (Program.lt_size_of_sort isTag (by decide)), isTag]
  constantsStay lays known := by rwa [lays.steps.decl_of_lt (Program.lt_size_of_isEnumConstant known)]
  since lays own := ⟨fun inner declares => lays.steps.size_le.trans (own.1 inner declares), own.2⟩
  stays lays own := ⟨own.1, own.2.mono lays.steps.retains⟩
  node {host _ _ draft _ _ kind _} stands within plain children := by
    refine ⟨stepping.node (stepping_within host draft) trivial plain fun child member => (children child member).1, ?_⟩
    rw [stands.spanOf]
    refine Stmt.lies_node within ?_ fun child member => (children child member).2
    cases kind <;> trivial
  typeRef {host _ _ _ after _} stands within _ := by
    refine ⟨stepping.typeRef (stepping_within host after) trivial trivial, ?_⟩
    rw [stands.spanOf]
    exact Stmt.lies_node within trivial fun _ none => by cases none
  name {host _ _ draft _ _} stands within _ found := by
    refine ⟨stepping.name (stepping_within host draft) trivial trivial found, ?_⟩
    rw [stands.spanOf] at found
    exact Draft.lies_nameStmt stands.consistent within found
  callee {host _ _ draft _ _} stands within _ found := by
    refine ⟨stepping.callee (stepping_within host draft) trivial trivial found, ?_⟩
    obtain ⟨id, -, rfl⟩ := Option.map_eq_some_iff.mp found
    rw [stands.spanOf]
    exact Draft.lies_expansionFrom stands.consistent within _ [] id
  scope stands := ⟨stands.enterScope, fun inner => ⟨inner.scope stands, fun own => own⟩⟩
  declaration {host extent draft} stands within := by
    rw [stands.spanOf]
    refine ⟨stands.withSpan within, fun {after} inner => ⟨inner.declaration stands within, fun id listed => ?_⟩⟩
    have locals := ((stepping.declaration (stepping_within host draft) trivial).2
      (stands.spanOf extent ▸ inner.steps)).2 id listed
    rw [stands.spanOf] at locals
    refine ⟨locals, ?_⟩
    simp only [Draft.declaredSince, List.mem_filter, List.mem_range, Bool.and_eq_true, decide_eq_true_eq] at listed
    obtain ⟨known, since, -⟩ := listed
    have sits := inner.sits id since known
    obtain ⟨own, inside, lies⟩ := sits.place
    exact Stmt.lies_node (site.nesting.self within) ⟨known, sits.item, own, inside, lies.span⟩
      fun _ none => by cases none
  addType type stands unnamed _ :=
    (addType_lays stands fun _ found => by simp [unnamed] at found).mono fun _ _ lays => ⟨lays, trivial⟩
  namedType name stands :=
    (addType_lays stands fun _ found => nameable_of_namedType found).mono fun _ _ lays => ⟨lays, trivial⟩
  tag {_ draft start} standalone kind name stands starts := by
    refine ((tagReference_lays stands standalone kind name starts).and
      (tagReference_steps draft standalone kind name start)).mono fun id middle ⟨lays, _, nameable⟩ => ?_
    refine (addType_lays lays.stands fun other found => ?_).mono fun _ after last => ⟨lays.trans last, trivial⟩
    cases kind <;> cases found <;> exact nameable
  record {host draft _} isUnion name stands starts := by
    refine (defineTag_lays stands (.record isUnion [] true) trivial rfl name starts).mono
      fun id first ⟨lays, made⟩ => ?_
    refine ⟨lays.stands, fun {second fields} inner _ => ?_⟩
    have kind : (second.program.decl id).kind = .record isUnion [] true := by
      rw [inner.steps.decl_of_lt made.inside, made.kind]
    have revised : Gives (setFields id fields) second fun _ third => Draft.Step draft.program.decls.size second third :=
      setFields_step made.id_eq.ge fields
    have closes : Gives (setFields id fields) second fun _ third => draft.Lays site host third :=
      lays_revise_tag (lays.trans inner) (.record isUnion fields true) revised (by simp [kind])
        (by simp [kind, DeclKind.sort]) rfl (by rw [kind]; rfl)
    refine (revised.and closes).mono fun _ third ⟨revised, closed⟩ => ?_
    refine (addType_lays closed.stands fun other found => ?_).mono fun _ after last => ⟨closed.trans last, trivial⟩
    cases found
    exact .plain ((made.sort_later inner.steps revised).trans_ne (by simp [DeclKind.sort]))
  enumeration {host draft _} name stands starts := by
    refine (defineTag_lays stands (.enumeration [] true) rfl rfl name starts).mono fun id first ⟨lays, made⟩ => ?_
    refine ⟨lays.stands, by rw [made.kind]; rfl, fun {second listed} inner known => ?_⟩
    have kind : (second.program.decl id).kind = .enumeration [] true := by
      rw [inner.steps.decl_of_lt made.inside, made.kind]
    have revised :
        Gives (setConstants id listed) second fun _ third => Draft.Step draft.program.decls.size second third :=
      setConstants_step made.id_eq.ge known
    have closes : Gives (setConstants id listed) second fun _ third => draft.Lays site host third :=
      lays_revise_tag (lays.trans inner) (.enumeration listed true) revised (by simp [kind])
        (by simp [kind, DeclKind.sort]) rfl (by rw [kind]; rfl)
    refine (revised.and closes).mono fun _ third ⟨revised, closed⟩ => ?_
    refine (addType_lays closed.stands fun other found => ?_).mono fun _ after last => ⟨closed.trans last, trivial⟩
    cases found
    exact .plain ((made.sort_later inner.steps revised).trans_ne (by simp [DeclKind.sort]))
  enumerator {_ _ draft owner start init} name value stands isTag starts own := by
    have made : Gives (declare (some name) (.enumConstant value owner init) .unspecified start none none) draft
        (Made draft (.enumConstant value owner init)) := by
      refine declare_steps draft _ trivial (fun _ found => by cases found) fun _ _ _ same => ?_
      cases same
      exact isTag
    have sits := sits_declare stands (some name) (.enumConstant value owner init) .unspecified none starts
      (fun stmt found => (own stmt found).2) trivial (fun sort => by rcases sort with sort | sort <;> cases sort)
      fun _ none => by cases none
    have opens : ∀ earlier : DeclId, none = some earlier → DeclSort.constant = .symbol →
        (name, earlier) ∈ draft.fileScope.ordinary := by
      intro _ found
      cases found
    have bound := made.ordinary name
    have named := lays_addDecl stands bound.steps rfl (function_eq_none stands) sits opens
    exact ⟨named.1, congrArg DeclKind.isEnumConstant bound.kind⟩
  object {_ _ _ _ draft _} storage isInline name stands fullInside bareInside nameInside _ := by
    refine (declareObject_lays stands fullInside bareInside nameInside).mono
      fun id first ⟨lays, made, span, spans⟩ => ?_
    refine ⟨lays.stands, fun {second init} read own => ?_⟩
    have same := read.steps.decl_of_lt made.inside
    have revised : Gives (setInit id init) second fun _ third => Draft.Step draft.program.decls.size second third :=
      setInit_step made.id_eq.ge fun stmt member inner declares =>
        Nat.lt_of_lt_of_le made.inside ((own stmt member).1 inner declares)
    rw [← same] at span spans
    exact setInit_lays (lays.trans read) revised (by rw [same, made.kind]) span spans fullInside
      fun stmt member => (own stmt member).2
  typedef name stands fullInside bareInside nameInside _ :=
    declareTypedef_lays stands fullInside (site.nesting.trans nameInside bareInside)

theorem declareParams_lays {site : Site} {host : Extent} {function : DeclId} {params : List TypedParam} {draft : Draft}
    (stands : draft.Stands site host) (inside : draft.function = some function)
    (lie : ∀ param ∈ params, param.Lies site host) :
    Gives (declareParams function params) draft fun _ after => draft.Lays site host after := by
  induction params generalizing draft with
  | nil => exact .refl stands
  | cons param rest ih =>
    have others : ∀ param ∈ rest, param.Lies site host := fun other member => lie other (List.mem_cons_of_mem _ member)
    obtain ⟨within, nameInside⟩ := lie param List.mem_cons_self
    cases named : param.name with
    | none =>
      simp only [declareParams, named]
      exact ih stands inside others
    | some found =>
      simp only [declareParams, named, gives_bind, gives_get, gives_modify]
      let decl : Decl := ⟨some found.1, .var param.type none, .unspecified, draft.spanOf param.extent,
        ⟨draft.item, found.2.start⟩, none, some function, draft.item, 0⟩
      have made : Gives (addDecl decl none) draft (Made draft decl.kind) :=
        addDecl_steps draft decl rfl (fun _ none => by cases none) fun _ _ _ same => by cases same
      have sits : decl.Sits site draft.program host draft.function :=
        ⟨stands.item, stands.item, .inl inside.symm, fun outer => (by cases outer), param.extent, within,
          stands.spanOf _, ⟨found.2, nameInside found.1 found.2 named, rfl⟩, fun _ none => (by cases none),
          fun _ none => by cases none⟩
      have opens : ∀ earlier : DeclId, none = some earlier → decl.kind.sort = .symbol →
          (found.1, earlier) ∈ draft.fileScope.ordinary := by
        intro _ none
        cases none
      have outer : draft.blocks = [] → decl.context = none := by
        intro outside
        rw [function_eq_none stands outside] at inside
        cases inside
      obtain ⟨lays, -⟩ := lays_addDecl stands (made.ordinary found.1).steps rfl outer sits opens
      exact (ih lays.stands (lays.function.trans inside) others).mono fun _ after last => lays.trans last

end Drafting

end Excerpt
