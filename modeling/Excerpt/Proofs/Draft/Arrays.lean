import Excerpt.Proofs.Draft.Sizes

/-!
Every size that is listed is found in the unit that was read.
-/

namespace Excerpt

namespace Drafting

open Surface

section Helpers

variable (draft : Draft)

structure MadeHere (id : DeclId) (after : Draft) : Prop where
  context : (after.program.decl id).context = draft.function
  function : after.function = draft.function

variable {draft} in
theorem MadeHere.ordinary {after : Draft} {id : DeclId} (made : MadeHere draft id after) (name : String) :
    MadeHere draft id (after.bindOrdinary name id) := by
  constructor
  · rw [Draft.bindOrdinary_program, made.context]
  · rw [Draft.bindOrdinary_function, made.function]

variable {draft} in
theorem MadeHere.tag {after : Draft} {id : DeclId} (made : MadeHere draft id after) (name : String) :
    MadeHere draft id (after.bindTag name id) := by
  constructor
  · rw [Draft.bindTag_program, made.context]
  · rw [Draft.bindTag_function, made.function]

theorem declare_here {name : Option String} {kind : DeclKind} {storage : StorageClass} {offset : Nat}
    {declarator : Option DeclaratorSpans} {previous : Option DeclId} :
    Gives (declare name kind storage offset declarator previous) draft (MadeHere draft) := by
  refine ⟨?_, rfl⟩
  change ((draft.program.addDecl _ previous).decl draft.program.decls.size).context = draft.function
  rw [Program.decl_addDecl_size]

theorem defineTag_here (name : Option String) (start : Nat) (kind : DeclKind) :
    Gives (defineTag name start kind) draft (MadeHere draft) := by
  simp only [defineTag, gives_bind, gives_get]
  refine (declare_here draft).mono fun id after made => ?_
  cases name with
  | none => exact made
  | some name => exact made.tag name

theorem declareNamed_here {name : String} {kind : DeclKind} {storage : StorageClass} {offset : Nat}
    {declarator : Option DeclaratorSpans} {previous : Option DeclId} :
    Gives (do
      let id ← declare (some name) kind storage offset declarator previous
      modify (·.bindOrdinary name id)
      return id) draft (MadeHere draft) := by
  simp only [gives_bind, gives_modify, gives_pure]
  exact (declare_here draft).mono fun id after made => made.ordinary name

theorem tagReference_function (standalone : Bool) (kind : TagKind) (name : String) (start : Nat) :
    Gives (tagReference standalone kind name start) draft fun _ after => after.function = draft.function := by
  simp only [tagReference, gives_bind, gives_get]
  split
  · simp only [gives_bind, gives_modify, gives_pure, Draft.bindTag_function]
    exact (declare_here draft).mono fun id after made => made.function
  · split <;> rfl

/-- A lone parameter of type `void` is no parameter, and its type has no array in it. -/
theorem Settled.withoutVoid {before after : Draft} {params : List TypedParam} {readings : List SizeReading}
    (settled : Settled before after (params.map (·.type)) readings) :
    Settled before after ((after.withoutVoid params).map (·.type)) readings := by
  unfold Draft.withoutVoid
  split
  · next param =>
    split
    · next void =>
      refine { settled with own := fun reading member free => ?_ }
      obtain ⟨type, listed, part, element, reached, array⟩ := settled.own reading member free
      obtain rfl : type = param.type := by simpa using listed
      have builtin : after.program.type param.type = .builtin "void" := by
        simpa using (Bool.and_eq_true_iff.mp void).2
      have same : part = param.type := by
        rcases Relation.ReflTransGen.cases_head reached with same | ⟨next, part, -⟩
        · exact same.symm
        · rw [Program.HasPart, builtin] at part
          cases part
      rw [same, builtin] at array
      cases array
    · exact settled
  · exact settled

/-- The statements declare the holders of local readings. -/
def DeclaredBy (stmts : List Stmt) (readings : List SizeReading) : Prop :=
  ∀ reading ∈ readings, reading.isLocal = true → ∀ id ∈ reading.holder, ∃ stmt ∈ stmts, stmt.Declares id

theorem DeclaredBy.nil (stmts : List Stmt) : DeclaredBy stmts [] := by
  intro reading member
  cases member

theorem DeclaredBy.append {stmts others : List Stmt} {readings more : List SizeReading}
    (first : DeclaredBy stmts readings)
    (second : DeclaredBy others more) : DeclaredBy (stmts ++ others) (readings ++ more) := by
  intro reading member isLocal id held
  rcases List.mem_append.mp member with member | member
  · obtain ⟨stmt, listed, declares⟩ := first reading member isLocal id held
    exact ⟨stmt, List.mem_append_left _ listed, declares⟩
  · obtain ⟨stmt, listed, declares⟩ := second reading member isLocal id held
    exact ⟨stmt, List.mem_append_right _ listed, declares⟩

theorem DeclaredBy.node {kind : StmtKind} {span : Span} {children : List Stmt} {readings : List SizeReading}
    (inner : DeclaredBy children readings) : DeclaredBy [.node kind span children] readings := by
  intro reading member isLocal id held
  obtain ⟨stmt, listed, declares⟩ := inner reading member isLocal id held
  exact ⟨_, List.mem_singleton_self _, Stmt.declares_node.mpr (.inr ⟨stmt, listed, declares⟩)⟩

section Parts

variable {before middle : Draft} {types : List TypeId} {readings : List SizeReading} {id : DeclId}

/-- A declaration that receives its members takes the sizes in their types over. -/
theorem Settled.complete {change : Decl → Decl} (settled : Settled before middle types readings)
    (since : before.program.decls.size ≤ id) (inside : id < middle.program.decls.size)
    (context : ∀ decl, (change decl).context = decl.context)
    (here : (middle.program.decl id).context = before.function)
    (kept : ∀ type ∈ (middle.program.decl id).kind.declaredTypes,
      type ∈ (change (middle.program.decl id)).kind.declaredTypes)
    (declared : ∀ type ∈ types, type ∈ (change (middle.program.decl id)).kind.declaredTypes) :
    Settled before { middle with program := middle.program.modifyDecl id change } [] (readings.map (·.adopt id)) := by
  have changed : (middle.program.modifyDecl id change).decl id = change (middle.program.decl id) := by
    rw [Program.decl_modifyDecl, if_pos ⟨rfl, inside⟩]
  refine (settled.revise since (Program.keeps_modifyDecl context kept)).adopt since ?_ ?_ ?_
  · simpa using inside
  · rw [changed, context, here]
  · rw [changed]
    exact declared

theorem setFields_settled {isUnion complete : Bool} {fields : List Field}
    (settled : Settled before middle (fields.map (·.type)) readings) (since : before.program.decls.size ≤ id)
    (inside : id < middle.program.decls.size) (kind : (middle.program.decl id).kind = .record isUnion [] complete)
    (here : (middle.program.decl id).context = before.function) :
    Gives (setFields id fields) middle fun _ after => Settled before after [] (readings.map (·.adopt id)) := by
  refine settled.complete since inside ?_ here ?_ ?_
  · intro decl
    split <;> rfl
  · simp [kind, DeclKind.declaredTypes]
  · simp [kind, DeclKind.declaredTypes]

theorem setInit_settled {init : Option Stmt} {type : TypeId} (settled : Settled before middle [type] readings)
    (since : before.program.decls.size ≤ id) (inside : id < middle.program.decls.size)
    (here : (middle.program.decl id).context = before.function)
    (declared : (middle.program.decl id).kind.declaredTypes = [type]) :
    Gives (setInit id init) middle fun _ after => Settled before after [] (readings.map (·.adopt id)) := by
  refine settled.complete since inside ?_ here ?kept fun type listed => ?kept type (declared ▸ listed)
  · intro decl
    split <;> rfl
  · cases kind : (middle.program.decl id).kind <;> simp [DeclKind.declaredTypes, kind]

theorem setConstants_settled (constants : List DeclId) (settled : Settled before middle types readings)
    (since : before.program.decls.size ≤ id) :
    Gives (setConstants id constants) middle fun _ after => Settled before after types readings := by
  refine settled.revise since (Program.keeps_modifyDecl ?_ ?_)
  · intro decl
    split <;> rfl
  · cases kind : (middle.program.decl id).kind <;> simp [DeclKind.declaredTypes, kind]

end Parts

theorem addType_grows (type : CType) :
    Gives (addType type) draft fun id after => draft.Grows after ∧ after.program.type id = type := by
  refine ⟨?_, draft.program.type_addType type⟩
  change draft.Grows { draft with program := (draft.program.addType type).2 }
  unfold Program.addType
  split
  · exact .refl
  · exact ⟨Nat.le_refl _, fun _ _ => rfl, .push draft.program type, rfl⟩

theorem declare_grows {name : Option String} {kind : DeclKind} {storage : StorageClass} {offset : Nat}
    {declarator : Option DeclaratorSpans} {previous : Option DeclId} :
    Gives (declare name kind storage offset declarator previous) draft fun _ after => draft.Grows after := by
  refine ⟨?_, fun id inside => Program.decl_addDecl_of_lt inside, ?_, rfl⟩
  · change draft.program.decls.size ≤ (Program.addDecl _ _ previous).decls.size
    simp
  · cases previous <;> exact .of_eq rfl

theorem bindOrdinary_grows (name : String) (id : DeclId) : draft.Grows (draft.bindOrdinary name id) := by
  unfold Draft.bindOrdinary Draft.modifyInnermost
  split <;> exact ⟨Nat.le_refl _, fun _ _ => rfl, .of_eq rfl, rfl⟩

theorem withSpan_grows (span : Span) : draft.Grows { draft with span } :=
  ⟨Nat.le_refl _, fun _ _ => rfl, .of_eq rfl, rfl⟩

theorem enterScope_grows : draft.Grows draft.enterScope :=
  ⟨Nat.le_refl _, fun _ _ => rfl, .of_eq rfl, rfl⟩

theorem leaveScope_grows : draft.Grows draft.leaveScope :=
  ⟨Nat.le_refl _, fun _ _ => rfl, .of_eq rfl, rfl⟩

theorem sizeReadings_settled {draft after : Draft} {size : Option (List Char)} {base type : TypeId}
    (grows : draft.Grows after) (array : after.program.type type = .array base (size.bind draft.fold)) :
    Settled draft after [type] (size.toList.map fun text => { text, draft }) := by
  refine ⟨grows, ?_, ?_⟩ <;> intro reading member <;> obtain ⟨text, listed, rfl⟩ := List.mem_map.mp member
  · intro id held
    cases held
  · intro free
    rw [Option.mem_toList.mp listed] at array
    exact ⟨type, List.mem_singleton_self type, type, base, .refl, array⟩

/-- The layers of a declarator hand their sizes on to the type that is made of them. -/
theorem Settled.apply {before middle after : Draft} {types : List TypeId} {readings more : List SizeReading}
    {type base result : TypeId} (outer : Settled before middle types readings)
    (parts : ∀ part ∈ base :: types, Relation.ReflTransGen middle.program.HasPart type part)
    (inner : Settled middle after [result] more ∧ Relation.ReflTransGen after.program.HasPart result type) :
    Settled before after [result] (readings ++ more) ∧ Relation.ReflTransGen after.program.HasPart result base := by
  obtain ⟨settled, reached⟩ := inner
  have stays : ∀ part ∈ base :: types, Relation.ReflTransGen after.program.HasPart result part :=
    fun part listed => reached.trans (Program.reaches_of_stay settled.grows.types (parts part listed))
  refine ⟨(outer.append settled).within fun part listed => ⟨result, List.mem_singleton_self result, ?_⟩,
    stays base List.mem_cons_self⟩
  rcases List.mem_append.mp listed with listed | listed
  · exact stays part (List.mem_cons_of_mem _ listed)
  · rw [List.mem_singleton.mp listed]

end Helpers

mutual

/-- A record adopts the sizes in the types of its fields. -/
theorem typeSizes_settled (standalone : Bool) : ∀ (spec : TypeSpec) (draft : Draft),
    Gives (enterType standalone spec) draft fun _ after => Settled draft after [] (typeSizes spec draft)
  | .builtin name, draft => by
    rw [enterType]
    exact .quiet (addType_grows draft _).1
  | .named name, draft => by
    rw [enterType]
    exact .quiet (addType_grows draft _).1
  | .unknown name, draft => by
    rw [enterType]
    exact .quiet (addType_grows draft _).1
  | .tag kind name start, draft => by
    have found := (tagReference_steps draft standalone kind name start).1.grows
      (tagReference_function draft standalone kind name start)
    simp only [enterType, typeSizes, gives_bind]
    exact .quiet (found.trans (addType_grows _ _).1)
  | .record isUnion name start fields, draft => by
    have made := defineTag_steps draft (.record isUnion [] true) trivial rfl name start
    have here := defineTag_here draft name start (.record isUnion [] true)
    have inner := fieldsSizes_settled fields ((defineTag name start (.record isUnion [] true)).run draft).2
    have same := inner.grows.decl _ made.inside
    have completed := setFields_settled (inner.earlier (made.steps.grows here.function)) made.id_eq.ge
      (made.inside.trans_le inner.grows.size) (by rw [same]; exact made.kind) (by rw [same]; exact here.context)
    simp only [enterType, typeSizes, gives_bind]
    exact completed.later (addType_grows _ _).1
  | .enumeration name start constants, draft => by
    have made := defineTag_steps draft (.enumeration [] true) rfl rfl name start
    have here := defineTag_here draft name start (.enumeration [] true)
    have inner := enumeratorsSizes_settled ((defineTag name start (.enumeration [] true)).run draft).1 0 constants
      ((defineTag name start (.enumeration [] true)).run draft).2
    simp only [enterType, typeSizes, gives_bind]
    exact (setConstants_settled _ (inner.earlier (made.steps.grows here.function)) made.id_eq.ge).later
      (addType_grows _ _).1

theorem fieldsSizes_settled : ∀ (fields : List FieldDecl) (draft : Draft),
    Gives (enterFields fields) draft fun read after =>
      Settled draft after (read.map (·.type)) (fieldsSizes fields draft)
  | [], draft => by
    rw [enterFields]
    exact .quiet .refl
  | field :: rest, draft => by
    have first := fieldSizes_settled field draft
    have second := fieldsSizes_settled rest ((enterField field).run draft).2
    simp only [enterFields, fieldsSizes, gives_bind, gives_pure, List.map_append]
    exact first.append second

theorem fieldSizes_settled : ∀ (field : FieldDecl) (draft : Draft),
    Gives (enterField field) draft fun read after => Settled draft after (read.map (·.type)) (fieldSizes field draft)
  | .mk extent base declarators, draft => by
    have first := typeSizes_settled false base draft
    have second := fieldDeclaratorsSizes_settled ((enterType false base).run draft).1 (draft.spanOf extent) declarators
      ((enterType false base).run draft).2
    simp only [enterField, fieldSizes, gives_bind, gives_get]
    cases declarators with
    | nil =>
      simp only [fieldDeclaratorsSizes, List.append_nil]
      exact first.within fun _ none => by cases none
    | cons declarator rest => exact first.append second

theorem fieldDeclaratorsSizes_settled (base : TypeId) (span : Span) : ∀ (declarators : List Declarator) (draft : Draft),
    Gives (enterFieldDeclarators base span declarators) draft fun read after =>
      Settled draft after (read.map (·.type)) (fieldDeclaratorsSizes base declarators draft)
  | [], draft => by
    rw [enterFieldDeclarators]
    exact .quiet .refl
  | declarator :: rest, draft => by
    have first := declaratorSizes_settled base [] declarator draft
    have second := fieldDeclaratorsSizes_settled base span rest ((enterDeclarator base [] declarator).run draft).2
    simp only [enterFieldDeclarators, fieldDeclaratorsSizes, gives_bind, gives_pure, List.map_cons]
    exact first.1.append second

theorem enumeratorsSizes_settled (owner : DeclId) (next : Int64) : ∀ (constants : List Enumerator) (draft : Draft),
    Gives (enterEnumerators owner next constants) draft fun _ after =>
      Settled draft after [] (enumeratorsSizes owner next constants draft)
  | [], draft => by
    rw [enterEnumerators]
    exact .quiet .refl
  | constant :: rest, draft => by
    have first := enumeratorSizes_settled owner next constant draft
    have second := enumeratorsSizes_settled owner (((enterEnumerator owner next constant).run draft).1.2 + 1) rest
      ((enterEnumerator owner next constant).run draft).2
    simp only [enterEnumerators, enumeratorsSizes, gives_bind, gives_pure]
    exact first.append second

theorem enumeratorSizes_settled (owner : DeclId) (next : Int64) : ∀ (constant : Enumerator) (draft : Draft),
    Gives (enterEnumerator owner next constant) draft fun _ after =>
      Settled draft after [] (enumeratorSizes constant draft)
  | .mk name start text init, draft => by
    have inner := exprSizes_settled init draft
    simp only [enterEnumerator, enumeratorSizes, gives_bind, gives_get, gives_modify, gives_pure]
    exact inner.1.later ((declare_grows _).trans (bindOrdinary_grows _ name _))

theorem declaratorSizes_settled (base : TypeId) (params : List TypedParam) :
    ∀ (declarator : Declarator) (draft : Draft),
    Gives (enterDeclarator base params declarator) draft fun typed after =>
      Settled draft after [typed.type] (declaratorSizes base params declarator draft) ∧
        Relation.ReflTransGen after.program.HasPart typed.type base
  | .anonymous, draft => by
    rw [enterDeclarator]
    exact ⟨.quiet .refl, .refl⟩
  | .name name extent, draft => by
    rw [enterDeclarator]
    exact ⟨.quiet .refl, .refl⟩
  | .pointer inner, draft => by
    obtain ⟨grows, type⟩ := addType_grows draft (.pointer base)
    have rest := declaratorSizes_settled ((addType (.pointer base)).run draft).1 params inner
      ((addType (.pointer base)).run draft).2
    simp only [enterDeclarator, declaratorSizes, gives_bind]
    refine Settled.apply (.quiet grows : Settled _ _ [] []) (fun part listed => .single ?_) rest
    rw [Program.HasPart, type]
    exact listed
  | .array size inner, draft => by
    obtain ⟨grows, type⟩ := addType_grows draft (.array base (size.bind draft.fold))
    have rest := declaratorSizes_settled ((addType (.array base (size.bind draft.fold))).run draft).1 params inner
      ((addType (.array base (size.bind draft.fold))).run draft).2
    simp only [enterDeclarator, declaratorSizes, gives_bind, gives_get]
    refine (sizeReadings_settled grows type).apply (fun part listed => ?_) rest
    rcases List.mem_cons.mp listed with rfl | listed
    · refine .single ?_
      rw [Program.HasPart, type]
      exact List.mem_singleton_self part
    · rw [List.mem_singleton.mp listed]
  | .function list variadic inner, draft => by
    have read := (paramsSizes_settled list draft).withoutVoid
    simp only [enterDeclarator, declaratorSizes, gives_bind, gives_get]
    refine (read.later (addType_grows _ _).1).apply (fun part listed => .single ?_)
      (declaratorSizes_settled _ _ inner _)
    rw [Program.HasPart, (addType_grows _ _).2]
    simpa [CType.parts, or_comm] using listed

theorem paramsSizes_settled : ∀ (params : List Param) (draft : Draft),
    Gives (enterParams params) draft fun read after =>
      Settled draft after (read.map (·.type)) (paramsSizes params draft)
  | [], draft => by
    rw [enterParams]
    exact .quiet .refl
  | param :: rest, draft => by
    have first := paramSizes_settled param draft
    have second := paramsSizes_settled rest ((enterParam param).run draft).2
    simp only [enterParams, paramsSizes, gives_bind, gives_pure, List.map_cons]
    exact first.append second

theorem paramSizes_settled : ∀ (param : Param) (draft : Draft),
    Gives (enterParam param) draft fun read after => Settled draft after [read.type] (paramSizes param draft)
  | .mk extent base declarator, draft => by
    have first := typeSizes_settled false base draft
    have second := declaratorSizes_settled ((enterType false base).run draft).1 [] declarator
      ((enterType false base).run draft).2
    simp only [enterParam, paramSizes, gives_bind, gives_pure]
    exact first.append second.1

/-- By recursion on the expression. What a body declares holds the sizes of its own declarations. -/
theorem exprSizes_settled : ∀ (expr : Expr) (draft : Draft),
    Gives (enterExpr expr) draft fun stmt after =>
      Settled draft after [] (exprSizes expr draft) ∧ DeclaredBy stmt.toList (exprSizes expr draft)
  | .empty, draft => by
    rw [enterExpr]
    exact ⟨.quiet .refl, .nil _⟩
  | .scope extent children, draft => by
    obtain ⟨settled, declared⟩ := exprsSizes_settled children draft.enterScope
    simp only [enterExpr, exprSizes, gives_bind, gives_get, gives_modify, gives_pure]
    exact ⟨(settled.earlier (enterScope_grows draft)).later (leaveScope_grows _), declared.node⟩
  | .group extent children, draft => by
    obtain ⟨settled, declared⟩ := exprsSizes_settled children draft
    simp only [enterExpr, exprSizes, gives_bind, gives_get, gives_pure]
    exact ⟨settled, declared.node⟩
  | .declaration extent declaration, draft => by
    have inner := declarationSizes_settled declaration { draft with span := draft.spanOf extent }
    simp only [enterExpr, exprSizes, gives_bind, gives_get, gives_set, gives_modify, gives_pure]
    refine inner.mono fun _ after settled => ⟨?_, DeclaredBy.node fun reading member _ id held => ?_⟩
    · exact ((settled.inTree true).earlier (withSpan_grows draft _)).later (withSpan_grows after _)
    · obtain ⟨reading, present, rfl⟩ := List.mem_map.mp member
      have known := settled.held reading present id held
      -- The node lists what was declared in the function at hand since the declaration began.
      refine ⟨.leaf (.localDecl id) _, List.mem_map_of_mem ?_, Stmt.declares_leaf.mpr rfl⟩
      simp only [Draft.declaredSince, List.mem_filter, List.mem_range, Bool.and_eq_true, decide_eq_true_eq, beq_iff_eq]
      exact ⟨known.inside, known.since, known.context.trans settled.grows.function.symm⟩
  | .name name extent, draft => by
    rw [enterExpr]
    exact ⟨.quiet .refl, .nil _⟩
  | .call extent function arguments, draft => by
    simp only [enterExpr, exprSizes, gives_bind, gives_get]
    cases draft.macroCallee? function with
    | some callee =>
      obtain ⟨settled, declared⟩ := exprsSizes_settled arguments draft
      exact ⟨settled, ((DeclaredBy.nil [callee]).append declared).node⟩
    | none =>
      obtain ⟨first, declared⟩ := exprSizes_settled function draft
      obtain ⟨second, others⟩ := exprsSizes_settled arguments ((enterExpr function).run draft).2
      exact ⟨first.append second, (declared.append others).node⟩
  | .member extent argument, draft => by
    have inner := exprSizes_settled argument draft
    simp only [enterExpr, exprSizes, gives_bind]
    refine inner.mono fun stmt after facts => ?_
    cases stmt with
    | none => exact facts
    | some stmt => exact ⟨facts.1, facts.2.node⟩
  | .typeName extent base declarator, draft => by
    have first := typeSizes_settled false base draft
    have second := declaratorSizes_settled ((enterType false base).run draft).1 [] declarator
      ((enterType false base).run draft).2
    simp only [enterExpr, exprSizes, gives_bind, gives_get, gives_pure]
    refine ⟨(first.append second.1).filter.inTree false, fun reading member isLocal => ?_⟩
    obtain ⟨_, -, rfl⟩ := List.mem_map.mp member
    cases isLocal
  | .number text extent, draft => by
    rw [enterExpr]
    exact ⟨.quiet .refl, .nil _⟩
  | .other extent children, draft => by
    have inner := exprsSizes_settled children draft
    simp only [enterExpr, exprSizes, gives_bind]
    refine inner.mono fun stmts after facts => ?_
    cases stmts with
    | nil => exact facts
    | cons stmt rest => exact ⟨facts.1, facts.2.node⟩

theorem exprsSizes_settled : ∀ (exprs : List Expr) (draft : Draft),
    Gives (enterExprs exprs) draft fun stmts after =>
      Settled draft after [] (exprsSizes exprs draft) ∧ DeclaredBy stmts (exprsSizes exprs draft)
  | [], draft => by
    rw [enterExprs]
    exact ⟨.quiet .refl, .nil _⟩
  | expr :: rest, draft => by
    have first := exprSizes_settled expr draft
    have second := exprsSizes_settled rest ((enterExpr expr).run draft).2
    simp only [enterExprs, exprsSizes, gives_bind, gives_pure]
    exact ⟨first.1.append second.1, first.2.append second.2⟩

theorem declarationSizes_settled : ∀ (declaration : Declaration) (draft : Draft),
    Gives (enterDeclaration declaration) draft fun _ after =>
      Settled draft after [] (declarationSizes declaration draft)
  | .objects storage isInline base declarators, draft => by
    have first := typeSizes_settled declarators.isEmpty base draft
    have second := objectsSizes_settled storage isInline ((enterType declarators.isEmpty base).run draft).1 declarators
      ((enterType declarators.isEmpty base).run draft).2
    simp only [enterDeclaration, declarationSizes, gives_bind]
    exact first.append second
  | .typedefs base declarators, draft => by
    have first := typeSizes_settled false base draft
    have second := typedefsSizes_settled ((enterType false base).run draft).1 declarators
      ((enterType false base).run draft).2
    simp only [enterDeclaration, declarationSizes, gives_bind]
    exact first.append second
  | .tag spec, draft => by
    have inner := typeSizes_settled true spec draft
    simp only [enterDeclaration, declarationSizes, gives_bind]
    exact inner

theorem objectsSizes_settled (storage : StorageClass) (isInline : Bool) (base : TypeId) :
    ∀ (declarators : List InitDeclarator) (draft : Draft),
    Gives (enterObjects storage isInline base declarators) draft fun _ after =>
      Settled draft after [] (objectsSizes storage isInline base declarators draft)
  | [], draft => by
    rw [enterObjects]
    exact .quiet .refl
  | declarator :: rest, draft => by
    have first := objectSizes_settled storage isInline base declarator draft
    have second := objectsSizes_settled storage isInline base rest
      ((enterObject storage isInline base declarator).run draft).2
    simp only [enterObjects, objectsSizes, gives_bind]
    exact first.append second

/-- The declaration of an object adopts the sizes in its declarator. Its initializer may hold others. -/
theorem objectSizes_settled (storage : StorageClass) (isInline : Bool) (base : TypeId) :
    ∀ (declarator : InitDeclarator) (draft : Draft),
    Gives (enterObject storage isInline base declarator) draft fun _ after =>
      Settled draft after [] (objectSizes storage isInline base declarator draft)
  | .mk full bare declarator init, draft => by
    have first := (declaratorSizes_settled base [] declarator draft).1
    simp only [enterObject, objectSizes, gives_bind]
    unfold Gives
    generalize (enterDeclarator base [] declarator).run draft = typed at first ⊢
    split
    · next named =>
      simp only [named]
      exact first.filter
    · next name extent named =>
      have made := declareObject_steps typed.2 storage isInline full bare name extent typed.1.type
      have here : Gives (declareObject storage isInline full bare name extent typed.1.type) typed.2
          (MadeHere typed.2) :=
        declareNamed_here typed.2
      obtain ⟨inner, -⟩ := exprSizes_settled init
        ((declareObject storage isInline full bare name extent typed.1.type).run typed.2).2
      have same := inner.grows.decl _ made.inside
      have types := congrArg (·.kind.declaredTypes) same
      have context := congrArg (·.context) same
      simp only [made.kind, objectKind_declaredTypes] at types
      simp only [named]
      exact setInit_settled ((first.later (made.steps.grows here.function)).append inner)
        (made.id_eq ▸ first.grows.size) (made.inside.trans_le inner.grows.size)
        (context.trans (here.context.trans first.grows.function)) types

theorem typedefsSizes_settled (base : TypeId) : ∀ (declarators : List InitDeclarator) (draft : Draft),
    Gives (enterTypedefs base declarators) draft fun _ after =>
      Settled draft after [] (typedefsSizes base declarators draft)
  | [], draft => by
    rw [enterTypedefs]
    exact .quiet .refl
  | declarator :: rest, draft => by
    have first := typedefSizes_settled base declarator draft
    have second := typedefsSizes_settled base rest ((enterTypedef base declarator).run draft).2
    simp only [enterTypedefs, typedefsSizes, gives_bind]
    exact first.append second

theorem typedefSizes_settled (base : TypeId) : ∀ (declarator : InitDeclarator) (draft : Draft),
    Gives (enterTypedef base declarator) draft fun _ after =>
      Settled draft after [] (typedefSizes base declarator draft)
  | .mk full bare declarator init, draft => by
    have first := (declaratorSizes_settled base [] declarator draft).1
    simp only [enterTypedef, typedefSizes, gives_bind]
    unfold Gives
    generalize (enterDeclarator base [] declarator).run draft = typed at first ⊢
    split
    · next named =>
      simp only [named]
      exact first.filter
    · next name extent named =>
      have made := declareTypedef_steps typed.2 full name extent typed.1.type
      have here : Gives (declareTypedef full name extent typed.1.type) typed.2 (MadeHere typed.2) :=
        declareNamed_here typed.2
      simp only [named]
      refine (first.later (made.steps.grows here.function)).adopt (made.id_eq ▸ first.grows.size) made.inside ?_ ?_
      · rw [here.context, first.grows.function]
      · rw [made.kind]
        exact fun type listed => listed

end

end Drafting

end Excerpt
