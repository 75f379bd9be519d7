import Excerpt.Proofs.Draft.Scoping

/-!
Reading constructs adds declarations that refer to nothing inside another function.
-/

namespace Excerpt

def Stmt.AllSee (program : Program) (function : Option DeclId) (stmts : List Stmt) : Prop :=
  ∀ stmt ∈ stmts, stmt.Sees program function

section Stmts

variable {program : Program} {function : Option DeclId}

theorem Stmt.allSee_nil : AllSee program function [] := by
  intro stmt none
  cases none

theorem Stmt.sees_node {kind : StmtKind} {span : Span} {children : List Stmt} (own : kind.Sees program function span)
    (below : AllSee program function children) : (node kind span children).Sees program function := by
  intro inner member
  rcases mem_preorder.mp member with rfl | ⟨child, isChild, inside⟩
  · exact own
  · exact below child isChild inner inside

theorem Stmt.sees_leaf {kind : StmtKind} {span : Span} (own : kind.Sees program function span) :
    (leaf kind span).Sees program function :=
  sees_node own allSee_nil

end Stmts

namespace Draft

section Macros

variable {source : List Char} {function : Option DeclId} {draft : Draft} (inScope : draft.Scoped source function)
include inScope

theorem Scoped.sees_expansionFrom (span : Span) (depth : Nat) (active : List MacroId) (id : MacroId) :
    (draft.expansionFrom span depth active id).Sees draft.program function := by
  induction depth generalizing active id with
  | zero => exact Stmt.sees_leaf trivial
  | succ depth ih =>
    refine Stmt.sees_node trivial fun child member => ?_
    obtain ⟨name, -, found⟩ := List.mem_filterMap.mp member
    split at found
    · cases found
      exact ih _ _
    · obtain ⟨decl, bound, rfl⟩ := Option.map_eq_some_iff.mp found
      exact Stmt.sees_leaf ⟨(inScope.ordinary bound).1, fun isSpelled => by cases isSpelled⟩

theorem Scoped.text_spanOf (extent : Extent) :
    String.ofList (draft.program.text (draft.spanOf extent)) = Surface.Reading.string source extent := by
  rw [Surface.Reading.string, Surface.Reading.chars, ← inScope.text]
  rfl

theorem Scoped.sees_nameStmt {name : String} {extent : Extent} (spelled : Surface.Reading.Spells source name extent) :
    Stmt.AllSee draft.program function (draft.nameStmt? name (draft.spanOf extent)).toList := by
  intro stmt member
  have found := Option.mem_toList.mp member
  unfold nameStmt? at found
  split at found
  · cases found
    exact inScope.sees_expansionFrom _ _ _ _
  · obtain ⟨decl, bound, rfl⟩ := Option.map_eq_some_iff.mp found
    obtain ⟨visible, named⟩ := inScope.ordinary bound
    refine Stmt.sees_leaf ⟨visible, fun _ => ⟨inScope.file, ?_⟩⟩
    rw [named, inScope.text_spanOf, ← spelled]

theorem Scoped.sees_macroCallee {callee : Surface.Expr} {stmt : Stmt} (found : draft.macroCallee? callee = some stmt) :
    stmt.Sees draft.program function := by
  unfold macroCallee? at found
  split at found
  · obtain ⟨id, -, rfl⟩ := Option.map_eq_some_iff.mp found
    exact inScope.sees_expansionFrom _ _ _ _
  · cases found

end Macros

section Regions

variable {source : List Char} {function inner : Option DeclId} {before opened after closed : Draft}

theorem Scoped.leaveScope (inScope : after.Scoped source function)
    (outside : after.blocks.tail = [] → function = none) : after.leaveScope.Scoped source function :=
  ⟨inScope.current, inScope.file, inScope.text, outside, inScope.outer,
    fun scope member => inScope.inner scope (List.mem_of_mem_tail member)⟩

/-- What is declared in a block stays confined when the block is left. -/
theorem Confines.block (confines : opened.Confines source inner after) (starts : opened.program = before.program)
    (entered : opened.blocks.length = before.blocks.length + 1) (inScope : closed.Scoped source function)
    (ends : closed.program = after.program) (left : closed.blocks = after.blocks.tail) :
    before.Confines source function closed := by
  refine ⟨inScope, ?_, ?_, ?_, ?_⟩
  · rw [ends, ← starts]
    exact confines.carries
  · rw [ends, ← starts]
    exact confines.old
  · rw [left, List.length_tail, confines.blocks, entered]
    rfl
  · rw [ends, ← starts]
    exact confines.decls

theorem Confines.scope (confines : before.enterScope.Confines source function after)
    (inScope : before.Scoped source function) : before.Confines source function after.leaveScope := by
  refine confines.block rfl rfl (confines.inScope.leaveScope fun none => inScope.outside ?_) rfl rfl
  have length := congrArg List.length none
  rw [List.length_tail, confines.blocks] at length
  exact List.eq_nil_of_length_eq_zero length

theorem Scoped.of_declaredSince (inScope : after.Scoped source function) {first : Nat} {id : DeclId}
    (listed : id ∈ after.declaredSince first) :
    id < after.program.decls.size ∧ (after.program.decl id).context = function := by
  obtain ⟨member, test⟩ := List.mem_filter.mp listed
  simp only [Bool.and_eq_true, beq_iff_eq] at test
  exact ⟨List.mem_range.mp member, test.2.trans inScope.current⟩

theorem Scoped.enterFunction (inScope : before.Scoped source none) (outside : before.blocks = []) (id : DeclId) :
    ({ before.enterScope with function := some id } : Draft).Scoped source (some id) := by
  refine ⟨rfl, inScope.file, inScope.text, fun none => (by cases none), inScope.outer, fun scope member => ?_⟩
  rw [Draft.enterScope, outside] at member
  rw [List.mem_singleton.mp member]
  exact ⟨fun _ _ none => (by cases none), fun _ _ none => by cases none⟩

theorem Scoped.leaveFunction (inScope : after.Scoped source inner) (alone : after.blocks.length = 1) :
    ({ after.leaveScope with function := none } : Draft).Scoped source none := by
  refine ⟨rfl, inScope.file, inScope.text, fun _ => rfl, inScope.outer, fun scope member => ?_⟩
  have left : after.blocks.tail = [] := List.eq_nil_of_length_eq_zero (by rw [List.length_tail, alone])
  rw [Draft.leaveScope, left] at member
  cases member

theorem Confines.leaveFunction {id : DeclId} (outside : before.blocks = [])
    (confines : ({ before.enterScope with function := some id } : Draft).Confines source (some id) after) :
    before.Confines source none { after.leaveScope with function := none } := by
  have alone : after.blocks.length = 1 := by
    rw [confines.blocks]
    exact congrArg (·.length + 1) outside
  exact confines.block rfl rfl (confines.inScope.leaveFunction alone) rfl rfl

theorem Scoped.withDefined (inScope : before.Scoped source function) (defined : List ChainId) :
    ({ before with defined } : Draft).Scoped source function :=
  ⟨inScope.current, inScope.file, inScope.text, inScope.outside, inScope.outer, inScope.inner⟩

theorem Scoped.withSpan (inScope : before.Scoped source function) (span : Span) :
    ({ before with span } : Draft).Scoped source function :=
  ⟨inScope.current, inScope.file, inScope.text, inScope.outside, inScope.outer, inScope.inner⟩

theorem Confines.declaration {span : Span} (confines : ({ before with span } : Draft).Confines source function after) :
    before.Confines source function { after with span := before.span } :=
  ⟨confines.inScope.withSpan _, confines.carries, confines.old, confines.blocks, confines.decls⟩

theorem Confines.andThen {α : Type} {action : Drafting α} {holds : α → Draft → Prop}
    (first : before.Confines source function opened)
    (second : Drafting.Gives action opened fun value after => opened.Confines source function after ∧
      holds value after) :
    Drafting.Gives action opened fun value after => before.Confines source function after ∧ holds value after :=
  second.mono fun _ _ both => ⟨first.trans both.1, both.2⟩

end Regions

theorem Added.withDefined {source : List Char} {function : Option DeclId} {draft after : Draft} {decl : Decl}
    {id : DeclId} (added : draft.Added source function decl id after) (defined : List ChainId) :
    draft.Added source function decl id { after with defined } :=
  ⟨added.confines.same (added.confines.inScope.withDefined defined) rfl rfl, added.id_eq, added.known, added.decl⟩

/-- A declaration of the function being read still lacks its fields, its constants or its initializer. -/
structure Pending (source : List Char) (function : Option DeclId) (draft : Draft) (kind : DeclKind) (id : DeclId)
    (after : Draft) : Prop where
  confines : draft.Confines source function after
  since : draft.program.decls.size ≤ id
  known : id < after.program.decls.size
  context : (after.program.decl id).context = function
  kind : (after.program.decl id).kind = kind

theorem Added.pending {source : List Char} {function : Option DeclId} {draft middle after : Draft} {decl : Decl}
    {id : DeclId} (added : draft.Added source function decl id middle) (here : decl.context = function)
    (inner : middle.Confines source function after) : draft.Pending source function decl.kind id after := by
  have same := inner.old id added.known
  refine ⟨added.confines.trans inner, added.id_eq.ge, added.known.trans_le inner.carries.size, ?_, ?_⟩
  · rw [same, added.context, here]
  · rw [same, added.kind]

end Draft

namespace Drafting

open Surface

def ParamsVisible (program : Program) (function : Option DeclId) (params : List TypedParam) : Prop :=
  ∀ param ∈ params, program.TypeVisible function param.type

theorem ParamsVisible.mono {program later : Program} {function : Option DeclId} (carries : program.Carries later)
    {params : List TypedParam} (visible : ParamsVisible program function params) :
    ParamsVisible later function params :=
  fun param member => (visible param member).mono carries

section Parts

variable {source : List Char} {function : Option DeclId} {draft after : Draft} {kind : DeclKind} {id : DeclId}

/-- Members are given to a declaration that was made in the function at hand, so it may refer to them. -/
theorem modifyDecl_confines (pending : draft.Pending source function kind id after) {change : Decl → Decl}
    (head : (after.program.decl id).SameHead (change (after.program.decl id)))
    (linked : ∀ member ∈ (change (after.program.decl id)).kind.linked, after.program.Visible function member)
    (plain : (change (after.program.decl id)).kind.isFunction = true →
      (change (after.program.decl id)).kind.body? = none)
    (types : ∀ type ∈ (change (after.program.decl id)).kind.declaredTypes, after.program.TypeVisible function type)
    (body : Stmt.AllSee after.program function (change (after.program.decl id)).kind.body?.toList) :
    Gives (modifyDecl id change) after fun _ last =>
      draft.Confines source function last ∧ last.program.Visible function id := by
  refine ⟨pending.confines.revise pending.since pending.known head (pending.context ▸ linked)
    (fun hasBody => ?_) ?_ fun stmt found => ?_, ?_⟩
  · obtain ⟨isFunction, stmt, found⟩ := DeclKind.of_hasBody hasBody
    rw [plain isFunction] at found
    cases found
  · rw [pending.context]
    exact types
  · have notFunction : ¬ (change (after.program.decl id)).kind.isFunction = true := by
      intro isFunction
      rw [plain isFunction] at found
      cases found
    rw [if_neg notFunction, pending.context]
    exact body stmt (Option.mem_toList.mpr found)
  · exact Program.Visible.mono (Program.carries_modifyDecl head) ⟨pending.known, .inr pending.context⟩

theorem setFields_confines {isUnion complete : Bool} {old fields : List Field}
    (pending : draft.Pending source function (.record isUnion old complete) id after)
    (own : ∀ field ∈ fields, after.program.TypeVisible function field.type) :
    Gives (setFields id fields) after fun _ last =>
      draft.Confines source function last ∧ last.program.Visible function id := by
  refine modifyDecl_confines pending ⟨?_, ?_, ?_⟩ ?_ ?_ ?_ ?_ <;> simp only [pending.kind]
  · exact fun _ none => by cases none
  · exact fun isFunction => by cases isFunction
  · intro type listed
    obtain ⟨field, member, rfl⟩ := List.mem_map.mp listed
    exact own field member
  · exact Stmt.allSee_nil

theorem setConstants_confines {complete : Bool} {old constants : List DeclId}
    (pending : draft.Pending source function (.enumeration old complete) id after)
    (own : ∀ constant ∈ constants, after.program.Visible function constant) :
    Gives (setConstants id constants) after fun _ last =>
      draft.Confines source function last ∧ last.program.Visible function id := by
  refine modifyDecl_confines pending ⟨?_, ?_, ?_⟩ ?_ ?_ ?_ ?_ <;> simp only [pending.kind]
  · exact own
  · exact fun isFunction => by cases isFunction
  · exact fun _ none => by cases none
  · exact Stmt.allSee_nil

theorem setInit_confines {first : Draft} {type : TypeId} {isInline : Bool} {init : Option Stmt}
    (pending : draft.Pending source function (objectKind first type isInline) id after)
    (visible : after.program.TypeVisible function type) (sees : Stmt.AllSee after.program function init.toList) :
    Gives (setInit id init) after fun _ last =>
      draft.Confines source function last ∧ last.program.Visible function id := by
  have own : ∀ other ∈ [type], after.program.TypeVisible function other := by
    intro other listed
    rw [List.mem_singleton.mp listed]
    exact visible
  have kind := pending.kind
  unfold objectKind at kind
  split at kind
  · refine modifyDecl_confines pending ⟨?_, ?_, ?_⟩ ?_ ?_ ?_ ?_ <;> simp only [kind]
    · exact fun _ none => by cases none
    · exact fun _ => rfl
    · exact own
    · exact Stmt.allSee_nil
  · refine modifyDecl_confines pending ⟨?_, ?_, ?_⟩ ?_ ?_ ?_ ?_ <;> simp only [kind]
    · exact fun _ none => by cases none
    · exact fun isFunction => by cases isFunction
    · exact own
    · exact sees

theorem setBody_confines {type : TypeId} {isInline : Bool} {body : Option Stmt}
    (pending : draft.Pending source none (.function type none isInline) id after)
    (visible : after.program.TypeVisible none type) (sees : Stmt.AllSee after.program (some id) body.toList) :
    Gives (setBody id body) after fun _ last => draft.Confines source none last := by
  refine pending.confines.revise pending.since pending.known ⟨?_, ?_, ?_⟩ ?_ (fun _ => pending.context) ?_ ?_ <;>
    simp only [pending.kind]
  · exact fun _ none => by cases none
  · intro other listed
    rw [List.mem_singleton.mp listed, pending.context]
    exact visible
  · intro stmt found
    exact sees stmt (Option.mem_toList.mpr found)

theorem addReference_confines {type : CType} (inScope : draft.Scoped source function)
    (visible : draft.program.Visible function id) (named : type.named? = some id) (plain : type.parts = []) :
    Gives (addType type) draft fun id after =>
      draft.Confines source function after ∧ after.program.TypeVisible function id := by
  refine addType_confines inScope (fun other found => ?_) fun part isPart => ?_
  · rw [named] at found
    cases found
    exact visible
  · rw [plain] at isPart
    cases isPart

theorem addDerived_confines (inScope : draft.Scoped source function) (type : CType) (unnamed : type.named? = none)
    (parts : ∀ part ∈ type.parts, draft.program.TypeVisible function part) :
    Gives (addType type) draft fun id after =>
      draft.Confines source function after ∧ after.program.TypeVisible function id := by
  refine addType_confines inScope (fun other found => ?_) parts
  rw [unnamed] at found
  cases found

end Parts

def confining (source : List Char) (function : Option DeclId) : Reader where
  inside := Extent.Anywhere
  spells := Reading.Spells source
  holds _ := Draft.Scoped source function
  relates _ := Draft.Confines source function
  types draft := draft.program.TypeVisible function
  owners draft := draft.program.Visible function
  constants draft := draft.program.Visible function
  stmt _ _ after own := own.Sees after.program function
  refl := .refl
  trans := .trans
  reached confines := confines.inScope
  remains _ confines := confines.inScope
  typesStay confines visible := visible.mono confines.carries
  ownersStay confines visible := visible.mono confines.carries
  constantsStay confines visible := visible.mono confines.carries
  since _ own := own
  stays confines own := own.mono confines.carries
  node {_ _ _ _ _ _ kind _} _ _ plain children := by
    refine Stmt.sees_node ?_ children
    cases kind <;> trivial
  typeRef _ _ known := Stmt.sees_leaf known
  name inScope _ spelled found := inScope.sees_nameStmt spelled _ (Option.mem_toList.mpr found)
  callee inScope _ _ found := inScope.sees_macroCallee found
  scope inScope := ⟨inScope.enterScope, fun confines => ⟨confines.scope inScope, fun own => own⟩⟩
  declaration inScope _ := ⟨inScope.withSpan _, fun confines =>
    ⟨confines.declaration, fun _ listed => Stmt.sees_leaf (confines.inScope.of_declaredSince listed)⟩⟩
  addType type inScope unnamed parts := addDerived_confines inScope type unnamed parts
  namedType {_ draft} name inScope := by
    refine addType_confines inScope (fun _ found => namedType_named inScope found) fun part isPart => ?_
    rw [Draft.parts_namedType] at isPart
    cases isPart
  tag {_ _ start} standalone kind name inScope _ := by
    refine (tagReference_confines inScope standalone kind name start).mono fun id middle ⟨first, visible⟩ => ?_
    exact first.andThen (addReference_confines first.inScope visible (by cases kind <;> rfl) (by cases kind <;> rfl))
  record isUnion name inScope _ := by
    refine (defineTag_added inScope rfl rfl rfl).mono fun id first added =>
      ⟨added.confines.inScope, fun inner own => ?_⟩
    refine (setFields_confines (added.pending inScope.current inner) fun field member => (own field member).1).mono
      fun _ third ⟨closed, visible⟩ => ?_
    exact closed.andThen (addReference_confines closed.inScope visible rfl rfl)
  enumeration name inScope _ := by
    refine (defineTag_added inScope rfl rfl rfl).mono fun id first added => ?_
    refine ⟨added.confines.inScope, inScope.current ▸ added.visible, fun inner own => ?_⟩
    refine (setConstants_confines (added.pending inScope.current inner) own).mono fun _ third ⟨closed, visible⟩ => ?_
    exact closed.andThen (addReference_confines closed.inScope visible rfl rfl)
  enumerator name value inScope owned _ sees := by
    refine (declare_added inScope (fun _ none => by cases none) (fun member listed => ?_) (fun _ none => by cases none)
      fun stmt found => ?_).mono fun id after added => ?_
    · exact List.mem_singleton.mp listed ▸ owned
    · exact ⟨rfl, sees stmt found⟩
    have bound := added.ordinary inScope.current rfl
    exact ⟨bound.confines, inScope.current ▸ bound.visible⟩
  object storage isInline name inScope _ _ _ visible := by
    refine (declareObject_added inScope visible).mono fun id first added =>
      ⟨added.confines.inScope, fun inner sees => ?_⟩
    have pending := added.pending inScope.current inner
    exact (setInit_confines pending (visible.mono pending.confines.carries) fun stmt member =>
      sees stmt (Option.mem_toList.mp member)).mono fun _ last both => both.1
  typedef name inScope _ _ _ visible := declareTypedef_added inScope visible

/-- Parameters belong to the function whose body is about to be read. -/
theorem declareParams_confines {source : List Char} {owner : DeclId} {params : List TypedParam} {draft : Draft}
    (inScope : draft.Scoped source (some owner)) (visible : ParamsVisible draft.program (some owner) params) :
    Gives (declareParams owner params) draft fun _ after => draft.Confines source (some owner) after := by
  induction params generalizing draft with
  | nil => exact .refl inScope
  | cons param rest ih =>
    obtain ⟨own, others⟩ := List.forall_mem_cons.mp visible
    cases named : param.name with
    | none =>
      simp only [declareParams, named]
      exact ih inScope others
    | some found =>
      simp only [declareParams, named, gives_bind, gives_get, gives_modify]
      refine (addDecl_added inScope (fun _ none => by cases none) (fun _ none => by cases none) (fun type listed => ?_)
        fun _ none => by cases none).mono fun id middle added => ?_
      · exact List.mem_singleton.mp listed ▸ own
      have first := (added.ordinary rfl rfl).confines
      exact (ih first.inScope (ParamsVisible.mono first.carries others)).mono fun _ after last => first.trans last

/-- The function is declared at file scope, its parameters and its body in its own scope. -/
theorem enterFunction_confines {source : List Char} (storage : StorageClass) (isInline : Bool) {base : TypeSpec}
    {declarator : Declarator} (extent : Extent) {body : Expr} {draft : Draft} (inScope : draft.Scoped source none)
    (outside : draft.blocks = []) {host outer : Extent}
    (basePlaced : base.Placed Extent.Anywhere (Reading.Spells source) host)
    (declaratorPlaced : declarator.Placed Extent.Anywhere (Reading.Spells source) host outer)
    (bodyPlaced : body.Placed Extent.Anywhere (Reading.Spells source) host host) :
    Gives (enterFunction storage isInline base declarator extent body) draft fun _ after =>
      draft.Confines source none after := by
  simp only [enterFunction, gives_bind]
  refine ((confining source none).enterType false base draft inScope basePlaced).mono fun base first both => ?_
  obtain ⟨head, visible⟩ := both
  refine ((confining source none).enterDeclarator base [] declarator first head.inScope visible (by simp)
    declaratorPlaced).mono fun typed second read => ?_
  have outer : draft.Confines source none second := head.trans read.relates
  have own : second.program.TypeVisible none typed.type := read.type
  split
  · exact outer
  · next name nameExtent _ =>
    simp only [gives_bind, gives_get, gives_modify]
    refine (declare_added outer.inScope (fun earlier found => ?_) (fun _ none => by cases none) (fun type listed => ?_)
      fun _ none => by cases none).mono fun id third added => ?_
    · obtain ⟨bound, -⟩ := Option.filter_eq_some_iff.mp found
      exact (outer.inScope.outer.ordinary name earlier (mem_of_lookup bound)).1
    · exact List.mem_singleton.mp listed ▸ own
    -- The head was read at file scope, so the function may use what its types name; the body is read in the function.
    have marked := added.withDefined ((third.program.decl id).chain :: third.defined)
    have bound := marked.ordinary outer.inScope.current rfl
    have empty : second.blocks = [] := List.eq_nil_of_length_eq_zero (by rw [outer.blocks, outside]; rfl)
    have alone : (({ third with defined := (third.program.decl id).chain :: third.defined } : Draft).bindOrdinary
        name id).blocks = [] := List.eq_nil_of_length_eq_zero (by rw [bound.confines.blocks, empty]; rfl)
    have opened := bound.confines.inScope.enterFunction alone id
    have listed : ParamsVisible second.program (some id) typed.params :=
      fun param member => Program.TypeVisible.widen (read.params param member).type
    refine (declareParams_confines opened (listed.mono bound.confines.carries)).mono fun _ fourth inner => ?_
    refine ((confining source (some id)).enterExpr body fourth inner.inScope bodyPlaced).mono fun body fifth last => ?_
    obtain ⟨reads, sees⟩ := last
    have pending := bound.pending outer.inScope.current ((inner.trans reads).leaveFunction alone)
    exact (setBody_confines pending (own.mono pending.confines.carries) sees).mono fun _ last closed =>
      outer.trans closed

theorem codeOf_confines {source : List Char} {form : Form} {draft : Draft} (inScope : draft.Scoped source none)
    (outside : draft.blocks = []) {host : Extent} (placed : form.Placed Extent.Anywhere (Reading.Spells source) host) :
    Gives (codeOf form) draft fun _ after => draft.Confines source none after := by
  cases form with
  | function storage isInline base declarator extent body =>
    exact enterFunction_confines storage isInline extent inScope outside placed.1 placed.2.2.1 placed.2.2.2
  | declaration declaration =>
    exact (confining source none).enterDeclaration declaration draft inScope placed
  | inclusion | define | undef | directive | other => exact .refl inScope

end Drafting

end Excerpt
