import Excerpt.Proofs.Draft.Steps
import Excerpt.Proofs.Surface.Placement

/-!
Invariants of reading. A `Reader` says what is known of drafts, types and statements, and that each of the few actions
of reading keeps it so. It then holds of everything that is read.
-/

namespace Excerpt

theorem Draft.mem_of_mem_withoutVoid {draft : Draft} {params : List TypedParam} {param : TypedParam}
    (member : param ∈ draft.withoutVoid params) : param ∈ params := by
  unfold withoutVoid at member
  split at member
  · split at member
    · cases member
    · exact member
  · exact member

def StmtKind.isPlain : StmtKind → Bool
  | .block | .intLiteral _ | .call | .other => true
  | _ => false

namespace Drafting

open Surface

/-- Running from a draft gives a result and a draft with a property. -/
def Gives {α : Type} (action : Drafting α) (draft : Draft) (post : α → Draft → Prop) : Prop :=
  post (action.run draft).1 (action.run draft).2

section Gives

variable {α β : Type} {action : Drafting α} {draft : Draft}

theorem gives_pure {value : α} {post : α → Draft → Prop} : Gives (pure value) draft post ↔ post value draft :=
  Iff.rfl

theorem gives_bind {next : α → Drafting β} {post : β → Draft → Prop} :
    Gives (action >>= next) draft post ↔ Gives action draft fun value later => Gives (next value) later post :=
  Iff.rfl

theorem gives_get {post : Draft → Draft → Prop} : Gives get draft post ↔ post draft draft :=
  Iff.rfl

theorem gives_set {later : Draft} {post : PUnit → Draft → Prop} : Gives (set later) draft post ↔ post ⟨⟩ later :=
  Iff.rfl

theorem gives_modify {change : Draft → Draft} {post : PUnit → Draft → Prop} :
    Gives (modify change) draft post ↔ post ⟨⟩ (change draft) :=
  Iff.rfl

theorem Gives.mono {post weaker : α → Draft → Prop} (given : Gives action draft post)
    (implies : ∀ value later, post value later → weaker value later) : Gives action draft weaker :=
  implies _ _ given

theorem Gives.and {first second : α → Draft → Prop} (left : Gives action draft first)
    (right : Gives action draft second) :
    Gives action draft fun value later => first value later ∧ second value later :=
  ⟨left, right⟩

end Gives

/-- What is known while constructs are read, and kept by the actions of reading. `host` is the extent of the declaration
that is read, `outer` that of the expression. -/
structure Reader where
  inside : Extent → Extent → Prop
  /-- What is asked of a name and its place. -/
  spells : String → Extent → Prop := AnyName
  /-- What is known where names are declared. -/
  holds : Extent → Draft → Prop
  /-- What is known in types and expressions, where nothing is declared but in declarations of their own. -/
  within : Extent → Draft → Prop := holds
  relates : Extent → Draft → Draft → Prop
  types : Draft → TypeId → Prop := fun _ _ => True
  spans : Span → Prop := fun _ => True
  owners : Draft → DeclId → Prop := fun _ _ => True
  constants : Draft → DeclId → Prop := fun _ _ => True
  /-- What is known of a statement that was read between two drafts. -/
  stmt : Extent → Draft → Draft → Stmt → Prop := fun _ _ _ _ => True
  opens : ∀ {host draft}, holds host draft → within host draft := by exact fun known => known
  refl : ∀ {host draft}, within host draft → relates host draft draft
  trans : ∀ {host before middle after}, relates host before middle → relates host middle after →
    relates host before after
  reached : ∀ {host before after}, relates host before after → within host after
  remains : ∀ {host before after}, holds host before → relates host before after → holds host after
  typesStay : ∀ {host before after type}, relates host before after → types before type → types after type := by
    intros; trivial
  ownersStay : ∀ {host before after id}, relates host before after → owners before id → owners after id := by
    intros; trivial
  constantsStay : ∀ {host before after id}, relates host before after → constants before id → constants after id := by
    intros; trivial
  since : ∀ {host outer before middle after own}, relates host before middle → stmt outer middle after own →
    stmt outer before after own := by intros; trivial
  stays : ∀ {host outer before middle after own}, relates host middle after → stmt outer before middle own →
    stmt outer before after own := by intros; trivial
  span : ∀ {host draft}, within host draft → ∀ extent, spans (draft.spanOf extent) := by intros; trivial
  node : ∀ {host outer extent draft before after kind children}, within host draft → inside extent outer →
    kind.isPlain = true → (∀ child ∈ children, stmt extent before after child) →
      stmt outer before after (.node kind (draft.spanOf extent) children) := by intros; trivial
  typeRef : ∀ {host outer extent before after type}, within host after → inside extent outer → types after type →
    stmt outer before after (.leaf (.typeRef type) (after.spanOf extent)) := by intros; trivial
  name : ∀ {host outer extent draft name own}, within host draft → inside extent outer → spells name extent →
    draft.nameStmt? name (draft.spanOf extent) = some own → stmt outer draft draft own := by intros; trivial
  callee : ∀ {host outer extent draft name own}, within host draft → inside extent outer → spells name extent →
    draft.macroCallee? (.name name extent) = some own → stmt outer draft draft own := by intros; trivial
  scope : ∀ {host draft}, within host draft → within host draft.enterScope ∧
    ∀ {after}, relates host draft.enterScope after → relates host draft after.leaveScope ∧
      ∀ {outer own}, stmt outer draft.enterScope after own → stmt outer draft after.leaveScope own
  declaration : ∀ {host extent draft}, within host draft → inside extent host →
    holds extent { draft with span := draft.spanOf extent } ∧
      ∀ {after}, relates extent { draft with span := draft.spanOf extent } after →
        relates host draft { after with span := draft.span } ∧
          ∀ id ∈ after.declaredSince draft.program.decls.size,
            stmt extent draft { after with span := draft.span } (.leaf (.localDecl id) (draft.spanOf extent))
  addType : ∀ {host draft} (type : CType), within host draft → type.named? = none →
    (∀ part ∈ type.parts, types draft part) → Gives (addType type) draft fun id after => relates host draft after ∧
      types after id
  namedType : ∀ {host draft} (name : String), within host draft →
    Gives (Drafting.addType (draft.namedType name)) draft fun id after => relates host draft after ∧ types after id
  tag : ∀ {host draft start} (standalone : Bool) (kind : TagKind) (name : String), within host draft →
    StartsIn inside host start → Gives (tagReference standalone kind name start) draft fun id middle =>
      Gives (Drafting.addType (kind.typeOf id)) middle fun type after => relates host draft after ∧ types after type
  record : ∀ {host draft start} (isUnion : Bool) (name : Option String), within host draft →
    StartsIn inside host start →
    Gives (defineTag name start (.record isUnion [] true)) draft fun id first => within host first ∧
      ∀ {second fields}, relates host first second → (∀ field ∈ fields, types second field.type ∧ spans field.span) →
        Gives (setFields id fields) second fun _ third =>
          Gives (Drafting.addType (.record id)) third fun type after => relates host draft after ∧ types after type
  enumeration : ∀ {host draft start} (name : Option String), within host draft → StartsIn inside host start →
    Gives (defineTag name start (.enumeration [] true)) draft fun id first => within host first ∧ owners first id ∧
      ∀ {second listed}, relates host first second → (∀ constant ∈ listed, constants second constant) →
        Gives (setConstants id listed) second fun _ third =>
          Gives (Drafting.addType (.enumeration id)) third fun type after => relates host draft after ∧ types after type
  enumerator : ∀ {host before draft owner start init} (name : String) (value : Int64), within host draft →
    owners draft owner → StartsIn inside host start → (∀ own ∈ init, stmt host before draft own) →
      Gives (declare (some name) (.enumConstant value owner init) .unspecified start none none) draft fun id after =>
        relates host draft (after.bindOrdinary name id) ∧ constants (after.bindOrdinary name id) id
  object : ∀ {host full bare extent draft type} (storage : StorageClass) (isInline : Bool) (name : String),
    holds host draft → inside full host → inside bare full → inside extent bare → types draft type →
      Gives (declareObject storage isInline full bare name extent type) draft fun id first => within host first ∧
        ∀ {second init}, relates host first second → (∀ own ∈ init, stmt full first second own) →
          Gives (setInit id init) second fun _ after => relates host draft after
  typedef : ∀ {host full bare extent draft type} (name : String), holds host draft → inside full host →
    inside bare full → inside extent bare → types draft type →
      Gives (declareTypedef full name extent type) draft fun _ after => relates host draft after

namespace Reader

variable (reader : Reader)

def Typed (host : Extent) (before : Draft) (type : TypeId) (after : Draft) : Prop :=
  reader.relates host before after ∧ reader.types after type

structure KnowsParam (host : Extent) (draft : Draft) (param : TypedParam) : Prop where
  type : reader.types draft param.type
  extent : reader.inside param.extent host
  name : ∀ name extent, param.name = some (name, extent) → reader.inside extent param.extent

structure Named (host outer : Extent) (before : Draft) (typed : TypedName) (after : Draft) : Prop where
  relates : reader.relates host before after
  type : reader.types after typed.type
  name : ∀ name extent, typed.name = some (name, extent) → reader.inside extent outer
  params : ∀ param ∈ typed.params, reader.KnowsParam host after param

def Fielded (host : Extent) (before : Draft) (fields : List Field) (after : Draft) : Prop :=
  reader.relates host before after ∧ ∀ field ∈ fields, reader.types after field.type ∧ reader.spans field.span

def Reads (host outer : Extent) (before : Draft) (stmts : List Stmt) (after : Draft) : Prop :=
  reader.relates host before after ∧ ∀ own ∈ stmts, reader.stmt outer before after own

variable {reader} {host outer extent : Extent} {before middle after : Draft}

theorem KnowsParam.later {param : TypedParam} (known : reader.KnowsParam host middle param)
    (later : reader.relates host middle after) : reader.KnowsParam host after param :=
  ⟨reader.typesStay later known.type, known.extent, known.name⟩

theorem Named.since {typed : TypedName} (named : reader.Named host outer middle typed after)
    (earlier : reader.relates host before middle) : reader.Named host outer before typed after :=
  ⟨reader.trans earlier named.relates, named.type, named.name, named.params⟩

theorem Fielded.append {first second : List Field} (one : reader.Fielded host before first middle)
    (two : reader.Fielded host middle second after) : reader.Fielded host before (first ++ second) after := by
  refine ⟨reader.trans one.1 two.1, fun field member => ?_⟩
  rcases List.mem_append.mp member with member | member
  · exact ⟨reader.typesStay two.1 (one.2 field member).1, (one.2 field member).2⟩
  · exact two.2 field member

theorem Reads.append {first second : List Stmt} (one : reader.Reads host outer before first middle)
    (two : reader.Reads host outer middle second after) : reader.Reads host outer before (first ++ second) after := by
  refine ⟨reader.trans one.1 two.1, fun own member => ?_⟩
  rcases List.mem_append.mp member with member | member
  · exact reader.stays two.1 (one.2 own member)
  · exact reader.since one.1 (two.2 own member)

theorem Reads.node {stmts : List Stmt} {kind : StmtKind} (reads : reader.Reads host extent before stmts after)
    (within : reader.inside extent outer) (plain : kind.isPlain = true) :
    reader.Reads host outer before [.node kind (after.spanOf extent) stmts] after := by
  refine ⟨reads.1, fun own member => ?_⟩
  rw [List.mem_singleton.mp member]
  exact reader.node (reader.reached reads.1) within plain reads.2

theorem reads_nil (relates : reader.relates host before after) : reader.Reads host outer before [] after :=
  ⟨relates, fun _ none => by cases none⟩

variable (reader)

mutual

theorem enterType {host : Extent} (standalone : Bool) : ∀ (spec : TypeSpec) (draft : Draft), reader.within host draft →
    spec.Placed reader.inside reader.spells host →
    Gives (Drafting.enterType standalone spec) draft (reader.Typed host draft)
  | .builtin name, draft, within, _ => by
    rw [Drafting.enterType]
    exact reader.addType _ within rfl fun _ none => by cases none
  | .named name, draft, within, _ => by
    rw [Drafting.enterType]
    exact reader.namedType name within
  | .unknown name, draft, within, _ => by
    rw [Drafting.enterType]
    exact reader.addType _ within rfl fun _ none => by cases none
  | .tag kind name start, draft, within, placed => by
    rw [Drafting.enterType]
    exact reader.tag standalone kind name within placed
  | .record isUnion name start fields, draft, within, placed => by
    simp only [Drafting.enterType, gives_bind]
    refine (reader.record isUnion name within placed.1).mono fun id first opened => ?_
    exact (enterFields fields first opened.1 placed.2).mono fun fields second read => opened.2 read.1 read.2
  | .enumeration name start constants, draft, within, placed => by
    simp only [Drafting.enterType, gives_bind]
    refine (reader.enumeration name within placed.1).mono fun id first opened => ?_
    exact (enterEnumerators id 0 constants first opened.1 opened.2.1 placed.2).mono
      fun constants second read => opened.2.2 read.1 read.2

theorem enterFields {host : Extent} : ∀ (fields : List FieldDecl) (draft : Draft), reader.within host draft →
    FieldDecl.AllPlaced reader.inside reader.spells host fields →
    Gives (Drafting.enterFields fields) draft (reader.Fielded host draft)
  | [], draft, within, _ => by
    rw [Drafting.enterFields]
    exact ⟨reader.refl within, fun _ none => by cases none⟩
  | field :: rest, draft, within, placed => by
    simp only [Drafting.enterFields, gives_bind, gives_pure]
    refine (enterField field draft within placed.1).mono fun fields middle first => ?_
    exact (enterFields rest middle (reader.reached first.1) placed.2).mono fun _ after last => first.append last

theorem enterField {host : Extent} : ∀ (field : FieldDecl) (draft : Draft), reader.within host draft →
    field.Placed reader.inside reader.spells host →
    Gives (Drafting.enterField field) draft (reader.Fielded host draft)
  | .mk extent base declarators, draft, within, placed => by
    simp only [Drafting.enterField, gives_bind, gives_get]
    have span := reader.span within extent
    refine (enterType false base draft within placed.1).mono fun type middle typed => ?_
    split
    · exact ⟨typed.1, List.forall_mem_singleton.mpr ⟨typed.2, span⟩⟩
    · refine (enterFieldDeclarators type _ span declarators middle (reader.reached typed.1) typed.2 placed.2).mono
        fun fields after read => ?_
      exact ⟨reader.trans typed.1 read.1, read.2⟩

theorem enterFieldDeclarators {host : Extent} (base : TypeId) (span : Span) (known : reader.spans span) :
    ∀ (declarators : List Declarator) (draft : Draft), reader.within host draft → reader.types draft base →
    Declarator.AllPlaced reader.inside reader.spells host declarators →
    Gives (Drafting.enterFieldDeclarators base span declarators) draft (reader.Fielded host draft)
  | [], draft, within, _, _ => by
    rw [Drafting.enterFieldDeclarators]
    exact ⟨reader.refl within, fun _ none => by cases none⟩
  | declarator :: rest, draft, within, typed, placed => by
    simp only [Drafting.enterFieldDeclarators, gives_bind, gives_pure]
    refine (enterDeclarator base [] declarator draft within typed (by simp) placed.1).mono fun named middle first => ?_
    refine (enterFieldDeclarators base span known rest middle (reader.reached first.relates)
      (reader.typesStay first.relates typed) placed.2).mono fun fields after last => ?_
    exact Fielded.append ⟨first.relates, List.forall_mem_singleton.mpr ⟨first.type, known⟩⟩ last

theorem enterEnumerators {host : Extent} (owner : DeclId) (next : Int64) :
    ∀ (constants : List Enumerator) (draft : Draft),
    reader.within host draft → reader.owners draft owner →
      Enumerator.AllPlaced reader.inside reader.spells host constants →
    Gives (Drafting.enterEnumerators owner next constants) draft fun listed after =>
      reader.relates host draft after ∧ ∀ constant ∈ listed, reader.constants after constant
  | [], draft, within, _, _ => by
    rw [Drafting.enterEnumerators]
    exact ⟨reader.refl within, fun _ none => by cases none⟩
  | constant :: rest, draft, within, owned, placed => by
    simp only [Drafting.enterEnumerators, gives_bind, gives_pure]
    refine (enterEnumerator owner next constant draft within owned placed.1).mono fun result middle first => ?_
    refine (enterEnumerators owner (result.2 + 1) rest middle (reader.reached first.1)
      (reader.ownersStay first.1 owned) placed.2).mono fun listed after last => ?_
    exact ⟨reader.trans first.1 last.1, List.forall_mem_cons.mpr ⟨reader.constantsStay last.1 first.2, last.2⟩⟩

theorem enterEnumerator {host : Extent} (owner : DeclId) (next : Int64) : ∀ (constant : Enumerator) (draft : Draft),
    reader.within host draft → reader.owners draft owner → constant.Placed reader.inside reader.spells host →
    Gives (Drafting.enterEnumerator owner next constant) draft fun result after =>
      reader.relates host draft after ∧ reader.constants after result.1
  | .mk name start text init, draft, within, owned, placed => by
    simp only [Drafting.enterEnumerator, gives_bind, gives_get, gives_modify, gives_pure]
    refine (enterExpr init draft within placed.2).mono fun init middle read => ?_
    refine (reader.enumerator name _ (reader.reached read.1) (reader.ownersStay read.1 owned) placed.1
      fun own member => read.2 own (Option.mem_toList.mpr member)).mono fun id after last => ?_
    exact ⟨reader.trans read.1 last.1, last.2⟩

theorem enterDeclarator {host outer : Extent} (base : TypeId) (params : List TypedParam) :
    ∀ (declarator : Declarator) (draft : Draft), reader.within host draft → reader.types draft base →
    (∀ param ∈ params, reader.KnowsParam host draft param) → declarator.Placed reader.inside reader.spells host outer →
    Gives (Drafting.enterDeclarator base params declarator) draft (reader.Named host outer draft)
  | .anonymous, draft, within, typed, known, _ => by
    rw [Drafting.enterDeclarator]
    exact ⟨reader.refl within, typed, fun _ _ none => (by cases none), known⟩
  | .name name extent, draft, within, typed, known, placed => by
    rw [Drafting.enterDeclarator]
    refine ⟨reader.refl within, typed, fun _ _ same => ?_, known⟩
    cases same
    exact placed
  | .pointer inner, draft, within, typed, known, placed => by
    simp only [Drafting.enterDeclarator, gives_bind]
    refine (reader.addType (.pointer base) within rfl (List.forall_mem_singleton.mpr typed)).mono
      fun type middle first => ?_
    exact (enterDeclarator type params inner middle (reader.reached first.1) first.2
      (fun param member => (known param member).later first.1) placed).mono fun _ _ last => last.since first.1
  | .array size inner, draft, within, typed, known, placed => by
    simp only [Drafting.enterDeclarator, gives_bind, gives_get]
    refine (reader.addType (.array base (size.bind draft.fold)) within rfl (List.forall_mem_singleton.mpr typed)).mono
      fun type middle first => ?_
    exact (enterDeclarator type params inner middle (reader.reached first.1) first.2
      (fun param member => (known param member).later first.1) placed).mono fun _ _ last => last.since first.1
  | .function list variadic inner, draft, within, typed, _, placed => by
    simp only [Drafting.enterDeclarator, gives_bind, gives_get]
    refine (enterParams list draft within placed.1).mono fun list first read => ?_
    have kept : ∀ param ∈ first.withoutVoid list, reader.KnowsParam host first param :=
      fun param member => read.2 param (Draft.mem_of_mem_withoutVoid member)
    refine (reader.addType _ (reader.reached read.1) rfl fun part isPart => ?_).mono fun type second added => ?_
    · rcases List.mem_append.mp isPart with member | isResult
      · obtain ⟨param, isParam, rfl⟩ := List.mem_map.mp (List.mem_reverse.mp member)
        exact (kept param isParam).type
      · rw [List.mem_singleton.mp isResult]
        exact reader.typesStay read.1 typed
    · exact (enterDeclarator type _ inner second (reader.reached added.1) added.2
        (fun param member => (kept param member).later added.1) placed.2).mono
        fun _ _ last => last.since (reader.trans read.1 added.1)

theorem enterParams {host : Extent} : ∀ (params : List Param) (draft : Draft), reader.within host draft →
    Param.AllPlaced reader.inside reader.spells host params →
    Gives (Drafting.enterParams params) draft fun list after =>
      reader.relates host draft after ∧ ∀ param ∈ list, reader.KnowsParam host after param
  | [], draft, within, _ => by
    rw [Drafting.enterParams]
    exact ⟨reader.refl within, fun _ none => by cases none⟩
  | param :: rest, draft, within, placed => by
    simp only [Drafting.enterParams, gives_bind, gives_pure]
    refine (enterParam param draft within placed.1).mono fun param middle first => ?_
    refine (enterParams rest middle (reader.reached first.1) placed.2).mono fun list after last => ?_
    exact ⟨reader.trans first.1 last.1, List.forall_mem_cons.mpr ⟨first.2.later last.1, last.2⟩⟩

theorem enterParam {host : Extent} : ∀ (param : Param) (draft : Draft), reader.within host draft →
    param.Placed reader.inside reader.spells host →
    Gives (Drafting.enterParam param) draft fun param after =>
      reader.relates host draft after ∧ reader.KnowsParam host after param
  | .mk extent base declarator, draft, within, placed => by
    simp only [Drafting.enterParam, gives_bind, gives_pure]
    refine (enterType false base draft within placed.2.1).mono fun base middle first => ?_
    refine (enterDeclarator base [] declarator middle (reader.reached first.1) first.2 (by simp) placed.2.2).mono
      fun typed after last => ?_
    exact ⟨reader.trans first.1 last.relates, last.type, placed.1, last.name⟩

theorem enterExpr {host outer : Extent} : ∀ (expr : Expr) (draft : Draft), reader.within host draft →
    expr.Placed reader.inside reader.spells host outer →
    Gives (Drafting.enterExpr expr) draft fun stmt after => reader.Reads host outer draft stmt.toList after
  | .empty, draft, within, _ => by
    rw [Drafting.enterExpr]
    exact reads_nil (reader.refl within)
  | .scope extent children, draft, within, placed => by
    obtain ⟨entered, left⟩ := reader.scope within
    simp only [Drafting.enterExpr, gives_bind, gives_get, gives_modify, gives_pure]
    refine (enterExprs children draft.enterScope entered placed.2).mono fun children after read => ?_
    have closed := left read.1
    exact Reads.node ⟨closed.1, fun own member => closed.2 (read.2 own member)⟩ placed.1 rfl
  | .group extent children, draft, within, placed => by
    simp only [Drafting.enterExpr, gives_bind, gives_get, gives_pure]
    exact (enterExprs children draft within placed.2).mono fun children after read => read.node placed.1 rfl
  | .declaration extent declaration, draft, within, placed => by
    obtain ⟨opened, closed⟩ := reader.declaration within placed.2.1
    simp only [Drafting.enterExpr, gives_bind, gives_get, gives_set, gives_modify, gives_pure]
    refine (enterDeclaration declaration _ opened placed.2.2).mono fun _ after read => ?_
    obtain ⟨relates, locals⟩ := closed read
    refine ⟨relates, fun own member => ?_⟩
    rw [List.mem_singleton.mp member]
    refine reader.node within placed.1 rfl fun child listed => ?_
    obtain ⟨id, declared, rfl⟩ := List.mem_map.mp listed
    exact locals id declared
  | .name name extent, draft, within, placed => by
    simp only [Drafting.enterExpr, gives_bind, gives_get, gives_pure]
    exact ⟨reader.refl within, fun own member => reader.name within placed.1 placed.2 (Option.mem_toList.mp member)⟩
  | .call extent function arguments, draft, within, placed => by
    -- The arguments are read in the same way behind a macro and behind any other callee.
    have rest : ∀ (callee : Option Stmt) (middle : Draft), reader.Reads host extent draft callee.toList middle →
        Gives (Drafting.enterExprs arguments) middle fun arguments after =>
          reader.Reads host outer draft [.node .call (after.spanOf extent) (callee.toList ++ arguments)] after := by
      intro callee middle first
      exact (enterExprs arguments middle (reader.reached first.1) placed.2.2).mono fun arguments after last =>
        (first.append last).node placed.1 rfl
    simp only [Drafting.enterExpr, gives_bind, gives_get]
    split
    · next found =>
      refine rest (some _) draft ⟨reader.refl within, List.forall_mem_singleton.mpr ?_⟩
      cases function with
      | name name inner =>
        exact reader.callee within placed.2.1.1 placed.2.1.2 found
      | _ => cases found
    · exact (enterExpr function draft within placed.2.1).mono fun callee middle first => rest callee middle first
  | .member extent argument, draft, within, placed => by
    simp only [Drafting.enterExpr, gives_bind]
    refine (enterExpr argument draft within placed.2).mono fun stmt after read => ?_
    cases stmt with
    | none => exact reads_nil read.1
    | some stmt => exact read.node placed.1 rfl
  | .typeName extent base declarator, draft, within, placed => by
    simp only [Drafting.enterExpr, gives_bind, gives_get, gives_pure]
    refine (enterType false base draft within placed.2.1).mono fun base middle first => ?_
    refine (enterDeclarator base [] declarator middle (reader.reached first.1) first.2 (by simp) placed.2.2).mono
      fun typed after last => ?_
    have relates := reader.trans first.1 last.relates
    exact ⟨relates, List.forall_mem_singleton.mpr (reader.typeRef (reader.reached relates) placed.1 last.type)⟩
  | .number text extent, draft, within, placed => by
    simp only [Drafting.enterExpr, gives_bind, gives_get, gives_pure]
    refine (reads_nil (reader.refl within)).node placed ?_
    cases Constant.intLiteral? text <;> rfl
  | .other extent children, draft, within, placed => by
    simp only [Drafting.enterExpr, gives_bind]
    refine (enterExprs children draft within placed.2).mono fun children after read => ?_
    split
    · exact reads_nil read.1
    · exact read.node placed.1 rfl

theorem enterExprs {host outer : Extent} : ∀ (exprs : List Expr) (draft : Draft), reader.within host draft →
    Expr.AllPlaced reader.inside reader.spells host outer exprs →
    Gives (Drafting.enterExprs exprs) draft (reader.Reads host outer draft)
  | [], draft, within, _ => by
    rw [Drafting.enterExprs]
    exact reads_nil (reader.refl within)
  | expr :: rest, draft, within, placed => by
    simp only [Drafting.enterExprs, gives_bind, gives_pure]
    refine (enterExpr expr draft within placed.1).mono fun stmt middle first => ?_
    exact (enterExprs rest middle (reader.reached first.1) placed.2).mono fun _ after last => first.append last

theorem enterDeclaration {host : Extent} : ∀ (declaration : Declaration) (draft : Draft), reader.holds host draft →
    declaration.Placed reader.inside reader.spells host →
    Gives (Drafting.enterDeclaration declaration) draft fun _ after => reader.relates host draft after
  | .objects storage isInline base declarators, draft, holds, placed => by
    simp only [Drafting.enterDeclaration, gives_bind]
    refine (enterType declarators.isEmpty base draft (reader.opens holds) placed.1).mono fun base middle first => ?_
    exact (enterObjects storage isInline base declarators middle (reader.remains holds first.1) first.2 placed.2).mono
      fun _ after last => reader.trans first.1 last
  | .typedefs base declarators, draft, holds, placed => by
    simp only [Drafting.enterDeclaration, gives_bind]
    refine (enterType false base draft (reader.opens holds) placed.1).mono fun base middle first => ?_
    exact (enterTypedefs base declarators middle (reader.remains holds first.1) first.2 placed.2).mono
      fun _ after last => reader.trans first.1 last
  | .tag spec, draft, holds, placed => by
    simp only [Drafting.enterDeclaration, gives_bind]
    exact (enterType true spec draft (reader.opens holds) placed).mono fun _ after read => read.1

theorem enterObjects {host : Extent} (storage : StorageClass) (isInline : Bool) (base : TypeId) :
    ∀ (declarators : List InitDeclarator) (draft : Draft), reader.holds host draft → reader.types draft base →
    InitDeclarator.AllPlaced reader.inside reader.spells host declarators →
    Gives (Drafting.enterObjects storage isInline base declarators) draft fun _ after => reader.relates host draft after
  | [], draft, holds, _, _ => by
    rw [Drafting.enterObjects]
    exact reader.refl (reader.opens holds)
  | declarator :: rest, draft, holds, typed, placed => by
    simp only [Drafting.enterObjects, gives_bind]
    refine (enterObject storage isInline base declarator draft holds typed placed.1).mono fun _ middle first => ?_
    exact (enterObjects storage isInline base rest middle (reader.remains holds first) (reader.typesStay first typed)
      placed.2).mono fun _ after last => reader.trans first last

theorem enterObject {host : Extent} (storage : StorageClass) (isInline : Bool) (base : TypeId) :
    ∀ (declarator : InitDeclarator) (draft : Draft), reader.holds host draft → reader.types draft base →
    declarator.Placed reader.inside reader.spells host →
    Gives (Drafting.enterObject storage isInline base declarator) draft fun _ after => reader.relates host draft after
  | .mk full bare declarator init, draft, holds, typed, placed => by
    obtain ⟨fullInside, bareInside, declaratorPlaced, initPlaced⟩ := placed
    simp only [Drafting.enterObject, gives_bind]
    refine (enterDeclarator base [] declarator draft (reader.opens holds) typed (by simp) declaratorPlaced).mono
      fun named first outer => ?_
    split
    · exact outer.relates
    · next name extent found =>
      simp only [gives_bind]
      refine (reader.object storage isInline name (reader.remains holds outer.relates) fullInside bareInside
        (outer.name name extent found) outer.type).mono fun id second opened => ?_
      refine (enterExpr init second opened.1 initPlaced).mono fun init third read => ?_
      exact (opened.2 read.1 fun own member => read.2 own (Option.mem_toList.mpr member)).mono
        fun _ after last => reader.trans outer.relates last

theorem enterTypedefs {host : Extent} (base : TypeId) : ∀ (declarators : List InitDeclarator) (draft : Draft),
    reader.holds host draft → reader.types draft base →
      InitDeclarator.AllPlaced reader.inside reader.spells host declarators →
    Gives (Drafting.enterTypedefs base declarators) draft fun _ after => reader.relates host draft after
  | [], draft, holds, _, _ => by
    rw [Drafting.enterTypedefs]
    exact reader.refl (reader.opens holds)
  | declarator :: rest, draft, holds, typed, placed => by
    simp only [Drafting.enterTypedefs, gives_bind]
    refine (enterTypedef base declarator draft holds typed placed.1).mono fun _ middle first => ?_
    exact (enterTypedefs base rest middle (reader.remains holds first) (reader.typesStay first typed) placed.2).mono
      fun _ after last => reader.trans first last

theorem enterTypedef {host : Extent} (base : TypeId) : ∀ (declarator : InitDeclarator) (draft : Draft),
    reader.holds host draft → reader.types draft base → declarator.Placed reader.inside reader.spells host →
    Gives (Drafting.enterTypedef base declarator) draft fun _ after => reader.relates host draft after
  | .mk full bare declarator init, draft, holds, typed, placed => by
    obtain ⟨fullInside, bareInside, declaratorPlaced, -⟩ := placed
    simp only [Drafting.enterTypedef, gives_bind]
    refine (enterDeclarator base [] declarator draft (reader.opens holds) typed (by simp) declaratorPlaced).mono
      fun named first outer => ?_
    split
    · exact outer.relates
    · next name extent found =>
      simp only [gives_bind]
      exact (reader.typedef name (reader.remains holds outer.relates) fullInside bareInside
        (outer.name name extent found) outer.type).mono fun _ after last => reader.trans outer.relates last

end

end Reader

end Drafting

end Excerpt
