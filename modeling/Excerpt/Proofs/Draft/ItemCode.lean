import Excerpt.Proofs.Draft.Laying

namespace Excerpt

namespace Draft

structure Coded (site : Site) (host : Extent) (before after : Draft) : Prop where
  steps : before.Steps after
  function : after.function = none
  blocks : after.blocks = []
  bound : after.Bound
  sits : ∀ id : Nat, before.program.decls.size ≤ id → id < after.program.decls.size →
    ∃ function, (after.program.decl id).Sits site after.program host function ∧
      ∀ outer, function = some outer → before.program.decls.size ≤ outer ∧ outer < id ∧
        (after.program.decl outer).kind.isFunction = true
  linked : ∀ id : Nat, before.program.decls.size ≤ id → id < after.program.decls.size → after.program.Linked id
  order : ∀ first second : Nat, before.program.decls.size ≤ first → first < second → second < after.program.decls.size →
    (after.program.decl first).context ≠ none → (after.program.decl second).context = none →
    (after.program.decl second).kind.IsForward

variable {site : Site} {host : Extent} {before after : Draft}

theorem Lays.context_eq_none (lays : before.Lays site host after) (outside : before.function = none) {id : Nat}
    (new : before.program.decls.size ≤ id) (known : id < after.program.decls.size) :
    (after.program.decl id).context = none := by
  rcases (lays.sits id new known).context with same | hidden
  · exact same.trans outside
  · exact hidden.1

theorem Lays.coded (lays : before.Lays site host after) (outside : before.function = none)
    (blocks : before.blocks = []) : before.Coded site host after := by
  refine ⟨lays.steps, lays.function.trans outside, ?_, lays.stands.bound, fun id new known => ?_, lays.linked, ?_⟩
  · apply List.eq_nil_of_length_eq_zero
    rw [lays.blocks, blocks]
    rfl
  · refine ⟨before.function, lays.sits id new known, fun outer found => ?_⟩
    rw [outside] at found
    cases found
  · intro first second new less known inner
    exact absurd (lays.context_eq_none outside new (less.trans known)) inner

def enterBody (draft : Draft) (function : DeclId) : Draft :=
  { draft.enterScope with function := some function }

def leaveBody (draft : Draft) : Draft :=
  { draft.leaveScope with function := none }

theorem Steps.enterBody (draft : Draft) (function : DeclId) : draft.Steps (draft.enterBody function) :=
  (Steps.single .enter).tail (.withFunction _ _)

theorem Stands.enterBody {draft : Draft} (stands : draft.Stands site host) (function : DeclId) :
    (draft.enterBody function).Stands site host :=
  ⟨stands.file, stands.item, stands.span, stands.host, (Steps.enterBody draft function).consistent stands.consistent,
    stands.bound.names, fun _ => List.cons_ne_nil _ _⟩

/-- A function definition: the function and what comes before it, then its body, with which the function is filled
in. -/
theorem coded_of_body {middle last : Draft} (outer : before.Lays site host middle) (outside : before.function = none)
    (blocks : before.blocks = []) {function : DeclId} (new : before.program.decls.size ≤ function)
    (known : function < middle.program.decls.size) (inner : (middle.enterBody function).Lays site host last)
    {change : Decl → Decl} (step : Step before.program.decls.size last.leaveBody
      { last.leaveBody with program := last.program.modifyDecl function change })
    (kind : DeclKind) (isFunction : kind.isFunction = true)
    (revision : last.program.Revision site function change kind) :
    before.Coded site host { last.leaveBody with program := last.program.modifyDecl function change } := by
  have body : middle.Steps last := (Steps.enterBody middle function).trans inner.steps
  have inside : function < last.program.decls.size := Nat.lt_of_lt_of_le known body.size_le
  have retains := revision.retains
  have filled : ((last.program.modifyDecl function change).decl function).kind.isFunction = true := by
    rw [Program.decl_modifyDecl, if_pos ⟨rfl, inside⟩, revision.changed]
    exact isFunction
  have context : ∀ id : Nat, id < last.program.decls.size →
      ((last.program.modifyDecl function change).decl id).context = (last.program.decl id).context := by
    intro id old
    obtain ⟨_, -, same⟩ := retains.decl id old
    rw [same]
  have early : ∀ id : Nat, before.program.decls.size ≤ id → id < middle.program.decls.size →
      (last.program.decl id).Sits site last.program host before.function := by
    intro id since old
    rw [body.decl_of_lt old]
    exact (outer.sits id since old).mono body.retains
  have closed : before.Steps last.leaveBody := ((outer.steps.trans body).tail .leave).tail (.withFunction _ none)
  refine ⟨closed.tail step, rfl, ?_, ⟨?_, fun some => by cases some⟩, fun id since later => ?_,
    fun id since later => ?_, ?_⟩
  · have length := inner.blocks.trans (congrArg Nat.succ outer.blocks)
    rw [blocks] at length
    apply List.eq_nil_of_length_eq_zero
    change last.blocks.tail.length = 0
    rw [List.length_tail, length]
    rfl
  · intro name id bound
    have old := (inner.stands.consistent.scopes _ last.fileScope_mem_scopes).ordinary _ bound
    obtain ⟨_, -, same⟩ := retains.decl id old
    change ((last.program.modifyDecl function change).decl id).name = some name ∧ _
    rw [same]
    exact inner.stands.bound.names name id bound
  · have old : id < last.program.decls.size := by simpa using later
    by_cases first : id < middle.program.decls.size
    · refine ⟨none, revision.sits (outside ▸ early id since first), fun _ none => by cases none⟩
    · refine ⟨some function, revision.sits (inner.sits id (Nat.not_lt.mp first) old), fun found same => ?_⟩
      cases same
      exact ⟨new, Nat.lt_of_lt_of_le known (Nat.not_lt.mp first), filled⟩
  · have old : id < last.program.decls.size := by simpa using later
    by_cases first : id < middle.program.decls.size
    · exact ((outer.linked id since first).mono body.retains first).mono retains old
    · exact (inner.linked id (Nat.not_lt.mp first) old).mono retains old
  · intro first second since less later
    have old : second < last.program.decls.size := by simpa using later
    change ((last.program.modifyDecl function change).decl first).context ≠ none →
      ((last.program.modifyDecl function change).decl second).context = none →
      ((last.program.modifyDecl function change).decl second).kind.IsForward
    rw [context first (less.trans old), context second old]
    intro inBody outBody
    -- What comes before the body is at file scope, so both belong to the body.
    have late : middle.program.decls.size ≤ first := by
      by_contra before
      rw [not_le] at before
      rcases (early first since before).context with same | hidden
      · exact inBody (same.trans outside)
      · exact inBody hidden.1
    have after : function ≠ second := Nat.ne_of_lt (Nat.lt_of_lt_of_le known (late.trans less.le))
    rw [Program.decl_modifyDecl, if_neg fun same => after same.1.symm]
    rcases (inner.sits second (late.trans less.le) old).context with same | hidden
    · rw [same] at outBody
      cases outBody
    · exact hidden.2

end Draft

namespace Drafting

open Surface

variable {site : Site} {host : Extent} {draft : Draft}

theorem declareFunction_lays (stands : draft.Stands site host) {storage : StorageClass} {isInline : Bool}
    {extent nameExtent : Extent} {name : String} {type : TypeId} (within : site.inside extent host)
    (nameInside : site.inside nameExtent extent) :
    Gives (declare (some name) (.function type none isInline) storage nameExtent.start
      (some ⟨draft.spanOf extent, draft.spanOf extent, draft.spanOf nameExtent⟩) (draft.definedAs? name)) draft
      fun id after => Made draft (.function type none isInline) id after ∧
        (after.program.decl id).span = host.inFile site.file ∧
        draft.Lays site host
          (Draft.bindOrdinary { after with defined := (after.program.decl id).chain :: after.defined } name id) := by
  have named : ∀ earlier, draft.definedAs? name = some earlier → (name, earlier) ∈ draft.fileScope.ordinary :=
    fun earlier found => mem_of_lookup (Option.filter_eq_some_iff.mp found).1
  have sits := sits_named stands name (.function type none isInline) storage within nameInside rfl trivial
  have result : Gives (declare (some name) (.function type none isInline) storage nameExtent.start
      (some ⟨draft.spanOf extent, draft.spanOf extent, draft.spanOf nameExtent⟩) (draft.definedAs? name)) draft
      fun id after => id = draft.program.decls.size ∧ after =
        { draft with program := (draft.program.addDecl ⟨some name, .function type none isInline, storage, draft.span,
            ⟨draft.item, nameExtent.start⟩, some ⟨draft.spanOf extent, draft.spanOf extent, draft.spanOf nameExtent⟩,
            draft.function, draft.item, 0⟩ (draft.definedAs? name)) } := ⟨rfl, rfl⟩
  refine (result.and (declareFunction_steps draft)).mono fun id after both => ?_
  obtain ⟨⟨new, same⟩, made⟩ := both
  obtain ⟨span, function, blocks⟩ := Draft.bindOrdinary_frame
  have steps := (made.steps.tail (.withDefined after ((after.program.decl id).chain :: after.defined))).tail
    (.ordinary name id made.inside)
  subst same
  refine ⟨made, ?_, Draft.Lays.ofDeclare stands steps (Draft.bindOrdinary_program _ _ _) span function blocks
    (fun other bound member => ?_) sits fun earlier found _ => ⟨name, rfl, named earlier found⟩⟩
  · rw [new, Program.decl_addDecl_size]
    exact stands.span
  · rcases Draft.mem_bindOrdinary member with old | ⟨entry, outside⟩
    · exact .inl old
    · cases entry
      exact .inr ⟨new, rfl, function_eq_none stands outside⟩

/-- What stands in a function body follows the function, and of what follows it only first mentions of tags are at file
scope. -/
theorem enterFunction_coded (stands : draft.Stands site host) (outside : draft.function = none)
    (blocks : draft.blocks = [])
    {storage : StorageClass} {isInline : Bool} {base : TypeSpec} {declarator : Declarator} {extent : Extent}
    {body : Expr}
    (basePlaced : base.Placed site.inside AnyName host) (within : site.inside extent host)
    (declaratorPlaced : declarator.Placed site.inside AnyName host extent)
    (bodyPlaced : body.Placed site.inside AnyName host host) :
    Gives (enterFunction storage isInline base declarator extent body) draft fun _ after =>
      draft.Coded site host after := by
  simp only [enterFunction, gives_bind]
  refine ((laying site).enterType false base draft stands basePlaced).mono fun base first head => ?_
  obtain ⟨typed, -⟩ := head
  refine ((laying site).enterDeclarator base [] declarator first typed.stands trivial (by simp) declaratorPlaced).mono
    fun named second read => ?_
  have opened : draft.Lays site host second := typed.trans read.relates
  split
  · exact opened.coded outside blocks
  · next name nameExtent found =>
    simp only [gives_bind, gives_get, gives_modify]
    refine (declareFunction_lays opened.stands within (read.name name nameExtent found)).mono fun id third both => ?_
    obtain ⟨made, span, function⟩ := both
    have outer := opened.trans function
    refine (declareParams_lays (outer.stands.enterBody id) rfl fun param member =>
      ⟨(read.params param member).extent, (read.params param member).name⟩).mono fun _ fourth params => ?_
    refine ((laying site).enterExpr body fourth params.stands bodyPlaced).mono fun body fifth last => ?_
    obtain ⟨read, lie⟩ := last
    have inner := params.trans read
    have known : id < (Draft.bindOrdinary { third with defined := (third.program.decl id).chain :: third.defined }
        name id).program.decls.size := by
      rw [Draft.bindOrdinary_program]
      exact made.inside
    have same : fifth.program.decl id = third.program.decl id := by
      rw [((Draft.Steps.enterBody _ id).trans inner.steps).decl_of_lt known, Draft.bindOrdinary_program]
    have new : draft.program.decls.size ≤ id := made.id_eq ▸ opened.steps.size_le
    have defined : (fifth.program.decl id).kind = .function named.type none isInline := by rw [same, made.kind]
    refine Draft.coded_of_body outer outside blocks new known inner (setBody_step new body)
      (.function named.type body isInline) rfl ⟨by simp [defined], by simp [defined, DeclKind.sort],
        fun forward => absurd forward.1 (by simp [defined, DeclKind.isTag]), fun stmt own present place => ?_,
        fun _ _ _ _ none => by cases none⟩
    rw [same, span] at place
    rw [← Extent.eq_of_inFile place]
    exact (lie stmt (Option.mem_toList.mpr present)).2

theorem codeOf_coded (stands : draft.Stands site host) (outside : draft.function = none) (blocks : draft.blocks = [])
    {form : Form} (placed : form.Placed site.inside AnyName host) :
    Gives (codeOf form) draft fun _ after => draft.Coded site host after := by
  have idle : draft.Coded site host draft := (Draft.Lays.refl stands).coded outside blocks
  cases form with
  | function storage isInline base declarator extent body =>
    obtain ⟨basePlaced, within, declaratorPlaced, bodyPlaced⟩ := placed
    exact enterFunction_coded stands outside blocks basePlaced within declaratorPlaced bodyPlaced
  | declaration declaration =>
    exact ((laying site).enterDeclaration declaration draft stands placed).mono
      fun _ after lays => Draft.Lays.coded lays outside blocks
  | _ => exact idle

end Drafting

end Excerpt
