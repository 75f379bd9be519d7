import Excerpt.Proofs.Draft.Tour
import Excerpt.Proofs.Surface.Fit

/-!
In a unit read from nested trees, every declarator ends inside its declaration.
-/

namespace Excerpt

/-- Every declarator, its initializer apart, ends inside its declaration. -/
def Program.DeclaratorsInside (program : Program) : Prop :=
  ∀ id spans, (program.decl id).declarator = some spans → spans.bare.stop ≤ (program.decl id).span.stop

theorem Program.DeclaratorsInside.congr {program other : Program} (inside : program.DeclaratorsInside)
    (decls : other.decls = program.decls) : other.DeclaratorsInside := by
  intro id spans
  simp only [Program.decl, decls]
  exact inside id spans

theorem Program.DeclaratorsInside.addDecl {program : Program} (inside : program.DeclaratorsInside) {decl : Decl}
    {previous : Option DeclId} (new : ∀ spans, decl.declarator = some spans → spans.bare.stop ≤ decl.span.stop) :
    (program.addDecl decl previous).DeclaratorsInside := by
  intro id spans found
  rw [Program.decl_addDecl] at found ⊢
  split at found
  · next last =>
    rw [if_pos last]
    exact new spans found
  · next old =>
    rw [if_neg old]
    exact inside id spans found

theorem Program.DeclaratorsInside.modifyDecl {program : Program} (inside : program.DeclaratorsInside) {id : DeclId}
    {change : Decl → Decl}
    (same : ∀ decl, (change decl).declarator = decl.declarator ∧ (change decl).span = decl.span) :
    (program.modifyDecl id change).DeclaratorsInside := by
  intro other spans found
  rw [Program.decl_modifyDecl] at found ⊢
  split at found
  · next changed =>
    rw [if_pos changed, (same _).2]
    exact inside id spans ((same _).1 ▸ found)
  · next kept =>
    rw [if_neg kept]
    exact inside other spans found

namespace Drafting

open Surface

/-- Declarations made in a span that ends at `stop` hold their declarators, and the span stays in force. -/
def Writes {α : Type} (stop : Nat) (action : Drafting α) : Prop :=
  ∀ draft : Draft, draft.program.DeclaratorsInside → draft.span.stop = stop →
    Gives action draft fun _ after => after.program.DeclaratorsInside ∧ after.span.stop = stop

section Writes

variable {α β : Type} {stop : Nat}

theorem writes_pure (value : α) : Writes stop (pure value) :=
  fun _ inside here => ⟨inside, here⟩

theorem writes_get : Writes stop get :=
  fun _ inside here => ⟨inside, here⟩

theorem writes_modify {change : Draft → Draft}
    (same : ∀ draft, (change draft).program.decls = draft.program.decls ∧ (change draft).span = draft.span) :
    Writes stop (modify change) := by
  intro draft inside here
  rw [gives_modify, (same draft).2]
  exact ⟨inside.congr (same draft).1, here⟩

theorem Writes.bind {action : Drafting α} {next : α → Drafting β} (first : Writes stop action)
    (rest : ∀ value, Writes stop (next value)) : Writes stop (action >>= next) := by
  intro draft inside here
  rw [gives_bind]
  exact (first draft inside here).mono fun value middle held => rest value middle held.1 held.2

theorem writes_bindOrdinary (name : String) (id : DeclId) : Writes stop (modify (·.bindOrdinary name id)) := by
  refine writes_modify fun draft => ⟨by rw [Draft.bindOrdinary_program], ?_⟩
  unfold Draft.bindOrdinary Draft.modifyInnermost
  split <;> rfl

theorem writes_bindTag (name : String) (id : DeclId) : Writes stop (modify (·.bindTag name id)) := by
  refine writes_modify fun draft => ⟨by rw [Draft.bindTag_program], ?_⟩
  unfold Draft.bindTag Draft.modifyInnermost
  split <;> rfl

theorem addType_writes (type : CType) : Writes stop (addType type) := by
  intro draft inside here
  refine ⟨inside.congr ?_, here⟩
  change (draft.program.addType type).2.decls = draft.program.decls
  unfold Program.addType
  split <;> rfl

theorem addDecl_writes {decl : Decl} {previous : Option DeclId}
    (new : ∀ spans, decl.declarator = some spans → spans.bare.stop ≤ decl.span.stop) :
    Writes stop (addDecl decl previous) :=
  fun _ inside here => ⟨inside.addDecl new, here⟩

theorem declare_writes {name : Option String} {kind : DeclKind} {storage : StorageClass} {offset : Nat}
    {declarator : Option DeclaratorSpans} {previous : Option DeclId}
    (new : ∀ spans, declarator = some spans → spans.bare.stop ≤ stop) :
    Writes stop (declare name kind storage offset declarator previous) := by
  intro draft inside here
  refine addDecl_writes (fun spans found => ?_) draft inside here
  rw [here]
  exact new spans found

theorem modifyDecl_writes {id : DeclId} {change : Decl → Decl}
    (same : ∀ decl, (change decl).declarator = decl.declarator ∧ (change decl).span = decl.span) :
    Writes stop (modifyDecl id change) :=
  fun _ inside here => ⟨inside.modifyDecl same, here⟩

theorem tagReference_writes (standalone : Bool) (kind : TagKind) (name : String) (start : Nat) :
    Writes stop (tagReference standalone kind name start) := by
  refine writes_get.bind fun draft => ?_
  split
  · refine (declare_writes fun _ found => by cases found).bind fun id => ?_
    exact (writes_bindTag name id).bind fun _ => writes_pure id
  · split
    · exact writes_pure _
    · refine (addDecl_writes fun _ found => by cases found).bind fun id => ?_
      exact (writes_modify fun draft => ⟨rfl, rfl⟩).bind fun _ => writes_pure id

theorem defineTag_writes (name : Option String) (start : Nat) (kind : DeclKind) :
    Writes stop (defineTag name start kind) := by
  refine writes_get.bind fun draft => ?_
  refine (declare_writes fun _ found => by cases found).bind fun id => ?_
  cases name with
  | none => exact writes_pure id
  | some name => exact (writes_bindTag name id).bind fun _ => writes_pure id

/-- A name is declared with a declarator that ends inside the span, and stands for its declaration from then on. -/
theorem declareNamed_writes {name : String} {kind : Draft → DeclKind} {storage : StorageClass} {offset : Nat}
    {spans : Draft → DeclaratorSpans} {previous : Draft → Option DeclId}
    (fits : ∀ draft, (spans draft).bare.stop ≤ stop) :
    Writes stop (do
      let draft ← get
      let id ← declare (some name) (kind draft) storage offset (some (spans draft)) (previous draft)
      modify (·.bindOrdinary name id)
      return id) := by
  refine writes_get.bind fun draft => (declare_writes fun own found => ?_).bind fun id => ?_
  · cases found
    exact fits draft
  · exact (writes_bindOrdinary name id).bind fun _ => writes_pure id

theorem setFields_writes (id : DeclId) (fields : List Field) : Writes stop (setFields id fields) :=
  modifyDecl_writes fun decl => by split <;> exact ⟨rfl, rfl⟩

theorem setConstants_writes (id : DeclId) (constants : List DeclId) : Writes stop (setConstants id constants) :=
  modifyDecl_writes fun decl => by split <;> exact ⟨rfl, rfl⟩

theorem setInit_writes (id : DeclId) (init : Option Stmt) : Writes stop (setInit id init) :=
  modifyDecl_writes fun decl => by split <;> exact ⟨rfl, rfl⟩

theorem setBody_writes (id : DeclId) (body : Option Stmt) : Writes stop (setBody id body) :=
  modifyDecl_writes fun decl => by split <;> exact ⟨rfl, rfl⟩

end Writes

def writing : Reader where
  inside := Extent.EndsIn
  holds host draft := draft.program.DeclaratorsInside ∧ host.stop ≤ draft.span.stop
  within _ draft := draft.program.DeclaratorsInside
  relates _ before after := after.program.DeclaratorsInside ∧ after.span.stop = before.span.stop
  opens held := held.1
  refl inside := ⟨inside, rfl⟩
  trans first second := ⟨second.1, second.2.trans first.2⟩
  reached related := related.1
  remains held related := ⟨related.1, related.2 ▸ held.2⟩
  scope inside := ⟨inside, fun related => ⟨related, fun _ => trivial⟩⟩
  declaration inside _ := ⟨⟨inside, Nat.le_refl _⟩, fun related => ⟨⟨related.1, rfl⟩, fun _ _ => trivial⟩⟩
  addType type inside _ _ := (addType_writes type _ inside rfl).mono fun _ _ held => ⟨held, trivial⟩
  namedType _ inside := (addType_writes _ _ inside rfl).mono fun _ _ held => ⟨held, trivial⟩
  tag standalone kind name inside _ := by
    refine (tagReference_writes standalone kind name _ _ inside rfl).mono fun id middle named => ?_
    exact (addType_writes _ middle named.1 named.2).mono fun _ _ held => ⟨held, trivial⟩
  record _ name inside _ := by
    refine (defineTag_writes name _ _ _ inside rfl).mono fun id first opened =>
      ⟨opened.1, fun {second fields} read _ => ?_⟩
    refine (setFields_writes id fields second read.1 (read.2.trans opened.2)).mono fun _ third set => ?_
    exact (addType_writes _ third set.1 set.2).mono fun _ _ held => ⟨held, trivial⟩
  enumeration name inside _ := by
    refine (defineTag_writes name _ _ _ inside rfl).mono fun id first opened =>
      ⟨opened.1, trivial, fun {second listed} read _ => ?_⟩
    refine (setConstants_writes id listed second read.1 (read.2.trans opened.2)).mono fun _ third set => ?_
    exact (addType_writes _ third set.1 set.2).mono fun _ _ held => ⟨held, trivial⟩
  enumerator {_ _ draft owner start init} name value inside _ _ _ := by
    have written : Writes draft.span.stop (do
        let id ← declare (some name) (.enumConstant value owner init) .unspecified start none none
        modify (·.bindOrdinary name id)) :=
      (declare_writes fun _ found => by cases found).bind fun id => writes_bindOrdinary name id
    exact ⟨written draft inside rfl, trivial⟩
  object _ _ _ held full bare _ _ := by
    refine (declareNamed_writes (fun _ => bare.trans (full.trans held.2)) _ held.1 rfl).mono fun id first opened => ?_
    exact ⟨opened.1, fun {second init} read _ => setInit_writes id init second read.1 (read.2.trans opened.2)⟩
  typedef _ held full _ _ _ := declareNamed_writes (fun _ => full.trans held.2) _ held.1 rfl

section Forms

variable {host outer : Extent} {stop : Nat}

theorem enterType_writes {standalone : Bool} {spec : TypeSpec} (placed : spec.Placed Extent.EndsIn AnyName host) :
    Writes stop (enterType standalone spec) := fun draft inside here =>
  (writing.enterType standalone spec draft inside placed).mono fun _ _ typed => ⟨typed.1.1, typed.1.2.trans here⟩

theorem enterDeclarator_writes {base : TypeId} {declarator : Declarator}
    (placed : declarator.Placed Extent.EndsIn AnyName host outer) : Writes stop (enterDeclarator base [] declarator) :=
  fun draft inside here => (writing.enterDeclarator base [] declarator draft inside trivial (by simp) placed).mono
    fun _ _ named => ⟨named.relates.1, named.relates.2.trans here⟩

theorem enterExpr_writes {expr : Expr} (placed : expr.Placed Extent.EndsIn AnyName host outer) :
    Writes stop (enterExpr expr) :=
  fun draft inside here => (writing.enterExpr expr draft inside placed).mono
    fun _ _ read => ⟨read.1.1, read.1.2.trans here⟩

end Forms

/-- Parameters have no declarator of their own. -/
theorem declareParams_writes {stop : Nat} (function : DeclId) (params : List TypedParam) :
    Writes stop (declareParams function params) := by
  induction params with
  | nil => exact writes_pure _
  | cons param rest ih =>
    cases named : param.name with
    | none =>
      simp only [declareParams, named]
      exact ih
    | some found =>
      simp only [declareParams, named]
      refine writes_get.bind fun draft => (addDecl_writes fun _ found => by cases found).bind fun id => ?_
      exact (writes_bindOrdinary _ id).bind fun _ => ih

/-- A function holds its declarator, and the declarations in its parameters and its body hold theirs. -/
theorem enterFunction_writes {host : Extent} {stop : Nat} {storage : StorageClass} {isInline : Bool} {base : TypeSpec}
    {declarator : Declarator} {extent : Extent} {body : Expr} (type : base.Placed Extent.EndsIn AnyName host)
    (named : declarator.Placed Extent.EndsIn AnyName host extent) (fits : extent.stop ≤ stop)
    (inner : body.Placed Extent.EndsIn AnyName host host) :
    Writes stop (enterFunction storage isInline base declarator extent body) := by
  refine (enterType_writes type).bind fun base => (enterDeclarator_writes named).bind fun typed => ?_
  split
  · exact writes_pure _
  · refine writes_get.bind fun draft => (declare_writes fun spans found => ?_).bind fun id => ?_
    · cases found
      exact fits
    · refine Writes.bind (writes_modify ?_) fun _ => (writes_bindOrdinary _ id).bind fun _ =>
        Writes.bind (writes_modify ?_) fun _ => (declareParams_writes id _).bind fun _ =>
        (enterExpr_writes inner).bind fun body => Writes.bind (writes_modify ?_) fun _ => setBody_writes id body
      · exact fun _ => ⟨rfl, rfl⟩
      · exact fun _ => ⟨rfl, rfl⟩
      · exact fun _ => ⟨rfl, rfl⟩

theorem kept_declaratorsInside : Kept Surface.Item.Fits fun draft => draft.program.DeclaratorsInside where
  names inside same := inside.congr same.decls
  code item draft fits inside _ place := by
    have here : draft.span.stop = item.extent.stop := congrArg Span.stop place
    obtain ⟨extent, form⟩ := item
    obtain ⟨host, placed, ends⟩ := fits
    cases form with
    | function =>
      obtain ⟨type, short, named, inner⟩ := placed
      have whole := ends.resolve_right fun tag => by simp at tag
      exact (enterFunction_writes type named (short.trans whole) inner draft inside here).mono fun _ _ held => held.1
    | declaration declaration =>
      rcases ends with whole | ⟨spec, tag⟩
      · exact (writing.enterDeclaration declaration draft ⟨inside, whole.trans (Nat.le_of_eq here.symm)⟩
          placed).mono fun _ _ related => related.1
      · cases tag
        exact (enterType_writes placed draft inside here).mono fun _ _ held => held.1
    | _ => exact inside

end Drafting

def FileSystem.IsNested (files : FileSystem) : Prop :=
  ∀ place document, (place, FileContent.document document) ∈ files.files → document.tree.isNested = true

theorem Program.ofDocument_declaratorsInside {files : FileSystem} (headers : files.IsNested) (search : SearchPath)
    (path : String) {document : Document} (nested : document.tree.isNested = true) :
    (Program.ofDocument files search path document).DeclaratorsInside := by
  have empty : ({} : Program).DeclaratorsInside := by
    intro id spans found
    cases found
  obtain ⟨draft, inside, same⟩ := Program.exists_draft_of_kept Drafting.kept_declaratorsInside empty
    (fun place document known => Surface.itemsOf_fit (headers place document known)) (Surface.itemsOf_fit nested)
  exact same ▸ inside.congr rfl

end Excerpt
