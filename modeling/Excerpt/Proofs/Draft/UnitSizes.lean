import Excerpt.Proofs.Draft.Arrays
import Excerpt.Proofs.Draft.Tracing

/-!
The sizes of all arrays of a unit, over functions, items, headers and files.
-/

namespace Excerpt

structure Program.Stays (before after : Program) : Prop extends before.Keeps after where
  body : ∀ id body, (before.decl id).kind.body? = some body → (after.decl id).kind.body? = some body

theorem Program.Stays.of_decl {before after : Program} (size : before.decls.size ≤ after.decls.size)
    (decl : ∀ id < before.decls.size, after.decl id = before.decl id) (types : before.TypesStay after) :
    before.Stays after := by
  refine ⟨.of_decl size decl types, fun id body read => ?_⟩
  have inside : id < before.decls.size := by
    by_contra outside
    rw [before.decl_of_size_le (Nat.not_lt.mp outside)] at read
    cases read
  rwa [decl id inside]

theorem Program.Stays.trans {before middle after : Program} (first : before.Stays middle)
    (second : middle.Stays after) : before.Stays after where
  toKeeps := first.toKeeps.trans second.toKeeps
  body id body read := second.body id body (first.body id body read)

theorem Draft.Grows.stays {before after : Draft} (grows : before.Grows after) : before.program.Stays after.program :=
  .of_decl grows.size grows.decl grows.types

namespace SizeReading

/-- The reading has a holder, whose type has an array of the size that was read. -/
def Found (program : Program) (reading : SizeReading) : Prop :=
  ∃ id ∈ reading.holder, id < program.decls.size ∧
    ∃ type ∈ (program.decl id).kind.declaredTypes, program.HasArray type reading.size

/-- The holder has the size, and a holder inside a function is declared in its body. -/
structure Recorded (program : Program) (reading : SizeReading) : Prop where
  found : reading.Found program
  declared : reading.isLocal = true → ∀ id ∈ reading.holder, ∀ function ∈ (program.decl id).context,
    ∃ body, (program.decl function).kind.body? = some body ∧ body.Declares id

variable {before after : Program} {reading : SizeReading}

theorem Found.stays (found : reading.Found before) (stays : before.Stays after) : reading.Found after := by
  obtain ⟨id, holder, inside, type, listed, array⟩ := found
  exact ⟨id, holder, inside.trans_le stays.size, type, stays.declaredTypes id inside type listed,
    array.stay stays.types⟩

theorem Found.lt_size (found : reading.Found before) {id : DeclId} (holder : id ∈ reading.holder) :
    id < before.decls.size := by
  obtain ⟨other, known, inside, -⟩ := found
  rwa [Option.mem_unique holder known]

theorem Recorded.stays (recorded : reading.Recorded before) (stays : before.Stays after) : reading.Recorded after := by
  refine ⟨recorded.found.stays stays, fun isLocal id holder function known => ?_⟩
  rw [stays.context id (recorded.found.lt_size holder)] at known
  obtain ⟨body, read, declares⟩ := recorded.declared isLocal id holder function known
  exact ⟨body, stays.body function body read, declares⟩

end SizeReading

namespace Drafting

open Surface

section Settled

variable {before after : Draft} {readings : List SizeReading} (settled : Settled before after [] readings)
include settled

theorem Settled.found : ∀ reading ∈ readings, reading.Found after.program := by
  intro reading member
  cases holder : reading.holder with
  | none =>
    obtain ⟨type, none, -⟩ := settled.own reading member holder
    cases none
  | some id =>
    have held := settled.held reading member id holder
    exact ⟨id, holder, held.inside, held.sized⟩

theorem Settled.recorded (atFileScope : before.function = none) :
    ∀ reading ∈ readings, reading.Recorded after.program := by
  intro reading member
  refine ⟨settled.found reading member, fun _ id held function known => ?_⟩
  rw [(settled.held reading member id held).context, atFileScope] at known
  cases known

end Settled

def openFunction (storage : StorageClass) (isInline : Bool) (extent : Extent) (name : String) (nameExtent : Extent)
    (typed : TypedName) : Drafting DeclId := do
  let draft ← get
  let span := draft.spanOf extent
  let id ← declare (some name) (.function typed.type none isInline) storage nameExtent.start
    (some ⟨span, span, draft.spanOf nameExtent⟩) (draft.definedAs? name)
  modify fun draft => { draft with defined := (draft.program.decl id).chain :: draft.defined }
  modify (·.bindOrdinary name id)
  modify fun draft => { draft.enterScope with function := some id }
  declareParams id typed.params
  return id

def enterSignature (base : TypeSpec) (declarator : Declarator) : Drafting TypedName := do
  let base ← enterType false base
  enterDeclarator base [] declarator

def enterBody (id : DeclId) (body : Expr) : Drafting PUnit := do
  let body ← enterExpr body
  modify fun draft => { draft.leaveScope with function := none }
  setBody id body

theorem enterFunction_eq (storage : StorageClass) (isInline : Bool) (base : TypeSpec) (declarator : Declarator)
    (extent : Extent) (body : Expr) :
    enterFunction storage isInline base declarator extent body = (do
      let typed ← enterSignature base declarator
      match typed.name with
      | none => pure ()
      | some (name, nameExtent) =>
        let id ← openFunction storage isInline extent name nameExtent typed
        enterBody id body) :=
  rfl

def signatureSizes (base : TypeSpec) (declarator : Declarator) (draft : Draft) : List SizeReading :=
  let type := (enterType false base).run draft
  typeSizes base draft ++ declaratorSizes type.1 [] declarator type.2

def functionSizes (storage : StorageClass) (isInline : Bool) (base : TypeSpec) (declarator : Declarator)
    (extent : Extent) (body : Expr) (draft : Draft) : List SizeReading :=
  let typed := (enterSignature base declarator).run draft
  match typed.1.name with
  | none => (signatureSizes base declarator draft).filter (·.holder.isSome)
  | some (name, nameExtent) =>
    let opened := (openFunction storage isInline extent name nameExtent typed.1).run typed.2
    (signatureSizes base declarator draft).map (·.adopt opened.1) ++ exprSizes body opened.2

def codeSizes : Form → Draft → List SizeReading
  | .function storage isInline base declarator extent body, draft =>
    functionSizes storage isInline base declarator extent body draft
  | .declaration declaration, draft => declarationSizes declaration draft
  | _, _ => []

section Files

variable (files : FileSystem) (search : SearchPath)

/-- The sizes in a header that is read in place of its directive. `sizes` lists those of a file. -/
def inclusionSizes (sizes : String → Document → Option IncludeId → Draft → List SizeReading) (header : String)
    (system : Bool) (draft : Draft) : List SizeReading :=
  let includer := draft.program.file draft.file
  let found : Option (String × Document) :=
    if system then none else (search.read files header (some includer.path)).toOption
  match found with
  | none => []
  | some (path, document) =>
    match files.locate path with
    | .error _ => []
    | .ok place =>
      if !draft.read.contains place then
        sizes path document (some draft.program.includes.size)
          { draft with
            program := draft.program.addInclude
              { spelled := header
                system
                resolved := found.map Prod.fst
                file := none
                parent := includer.includedBy
                item := draft.item }
            read := place :: draft.read }
      else []

def formSizes (sizes : String → Document → Option IncludeId → Draft → List SizeReading) :
    Form → Draft → List SizeReading
  | .inclusion header system, draft => inclusionSizes files search sizes header system draft
  | form, draft =>
    codeSizes form { draft with program := (draft.usesIn draft.span).foldl Program.addUse draft.program }

def itemSizes (sizes : String → Document → Option IncludeId → Draft → List SizeReading) (file : FileId)
    (item : Surface.Item) (draft : Draft) : List SizeReading :=
  let span : Span := ⟨file, item.extent.start, item.extent.stop⟩
  formSizes files search sizes item.form
    { draft with
      program := draft.program.addItem file span .other, file, item :=
        draft.program.items.size, span, function := none }

def itemsSizes (enter : String → Document → Option IncludeId → Drafting (Option FileId))
    (sizes : String → Document → Option IncludeId → Draft → List SizeReading) (file : FileId) :
    List Surface.Item → Draft → List SizeReading
  | [], _ => []
  | item :: rest, draft =>
    itemSizes files search sizes file item draft ++
      itemsSizes enter sizes file rest ((enterItem files search enter file item).run draft).2

def fileSizes : Nat → String → Document → Option IncludeId → Draft → List SizeReading
  | 0, _, _, _, _ => []
  | depth + 1, path, document, includedBy, draft =>
    itemsSizes files search (enterFile files search depth) (fileSizes depth) draft.program.files.size
      (itemsOf document.text document.tree)
      { draft with program := draft.program.addFile path document.text includedBy }

end Files

end Drafting

def Program.sizesOf (files : FileSystem) (search : SearchPath) (path : String) (document : Document) :
    List SizeReading :=
  Drafting.fileSizes files search (files.files.length + 1) path document none {}

def Opening.sizes (opening : Opening) : List SizeReading :=
  Drafting.codeSizes opening.item.form opening.start

namespace Drafting

open Surface

def Records {α : Type} (action : Drafting α) (draft : Draft) (readings : List SizeReading) : Prop :=
  Gives action draft fun _ after => ∀ reading ∈ readings, reading.Recorded after.program

theorem setBody_stays {draft : Draft} {id : DeclId} {type : TypeId} {isInline : Bool} {body : Option Stmt}
    (inside : id < draft.program.decls.size) (kind : (draft.program.decl id).kind = .function type none isInline) :
    Gives (setBody id body) draft fun _ after =>
      draft.program.Stays after.program ∧ (after.program.decl id).kind.body? = body := by
  refine ⟨⟨Program.keeps_modifyDecl ?_ (by simp [kind, DeclKind.declaredTypes]), ?_⟩, ?_⟩
  · intro decl
    split <;> rfl
  · intro other known read
    have different : other ≠ id := by
      rintro rfl
      rw [kind] at read
      cases read
    change ((draft.program.modifyDecl id _).decl other).kind.body? = some known
    rwa [Program.decl_modifyDecl, if_neg fun same => different same.1]
  · change ((draft.program.modifyDecl id _).decl id).kind.body? = body
    simp only [Program.decl_modifyDecl, inside, and_self, if_true, kind]
    rfl

theorem declareParams_grows (function : DeclId) (params : List TypedParam) (draft : Draft) :
    Gives (declareParams function params) draft fun _ after => draft.Grows after := by
  refine (declareParams_steps function params draft).grows ?_
  induction params generalizing draft with
  | nil => rfl
  | cons param rest ih =>
    cases named : param.name with
    | none =>
      simp only [declareParams, named]
      exact ih draft
    | some found =>
      simp only [declareParams, named]
      exact (ih _).trans (Draft.bindOrdinary_function _ _ _)

/-- The function at hand was declared since a draft and has the type of its declarator. -/
structure Opened (draft : Draft) (type : TypeId) (isInline : Bool) (id : DeclId) (after : Draft) : Prop where
  since : draft.program.decls.size ≤ id
  inside : id < after.program.decls.size
  kind : (after.program.decl id).kind = .function type none isInline
  context : (after.program.decl id).context = draft.function
  function : after.function = some id
  grows : draft.Grows { after with function := draft.function }

theorem declare_adds {draft : Draft} {name : Option String} {kind : DeclKind} {storage : StorageClass} {offset : Nat}
    {declarator : Option DeclaratorSpans} {previous : Option DeclId} :
    Gives (declare name kind storage offset declarator previous) draft fun id after =>
      id = draft.program.decls.size ∧ id < after.program.decls.size ∧ (after.program.decl id).kind = kind := by
  refine ⟨rfl, ?_, ?_⟩
  · change draft.program.decls.size < (draft.program.addDecl _ previous).decls.size
    simp
  · change ((draft.program.addDecl _ previous).decl draft.program.decls.size).kind = kind
    rw [Program.decl_addDecl_size]

theorem openFunction_opens (storage : StorageClass) (isInline : Bool) (extent : Extent) (name : String)
    (nameExtent : Extent) (typed : TypedName) (draft : Draft) :
    Gives (openFunction storage isInline extent name nameExtent typed) draft (Opened draft typed.type isInline) := by
  simp only [openFunction, gives_bind, gives_get, gives_modify, gives_pure]
  refine (declare_adds.and ((declare_here draft).and (declare_grows draft))).mono fun id third facts => ?_
  obtain ⟨⟨new, inside, kind⟩, here, grows⟩ := facts
  refine (declareParams_grows id typed.params _).mono fun _ fourth params => ?_
  obtain ⟨size, decl, types, function⟩ := params
  simp only [Draft.enterScope, Draft.bindOrdinary_program] at size decl types function
  refine ⟨new.ge, inside.trans_le size, ?_, ?_, function, grows.size.trans size, ?_, grows.types.trans types, rfl⟩
  · rw [decl id inside, kind]
  · rw [decl id inside, here.context]
  · intro old before
    rw [decl old (before.trans_le grows.size), grows.decl old before]

theorem signatureSizes_settled (base : TypeSpec) (declarator : Declarator) (draft : Draft) :
    Gives (enterSignature base declarator) draft fun typed after =>
      Settled draft after [typed.type] (signatureSizes base declarator draft) := by
  have first := typeSizes_settled false base draft
  have second := declaratorSizes_settled ((enterType false base).run draft).1 [] declarator
    ((enterType false base).run draft).2
  exact first.append second.1

/-- The function holds the sizes of its parameters, and what its body declares holds the others. -/
theorem enterBody_records {draft middle entered : Draft} {type : TypeId} {isInline : Bool} {id : DeclId}
    {readings : List SizeReading} (signature : Settled draft middle [type] readings)
    (opened : Opened middle type isInline id entered) (atFileScope : draft.function = none) (body : Expr) :
    Records (enterBody id body) entered (readings.map (·.adopt id) ++ exprSizes body entered) := by
  -- Inside the body another function is at hand, so the signature is settled in front of it.
  have outer : Settled draft { entered with function := middle.function } [] (readings.map (·.adopt id)) := by
    refine (signature.later opened.grows).adopt (signature.grows.size.trans opened.since) opened.inside ?_ ?_
    · rw [opened.context, signature.grows.function]
    · simp [opened.kind, DeclKind.declaredTypes]
  simp only [Records, enterBody, gives_bind, gives_modify]
  refine (exprSizes_settled body entered).mono fun stmt last facts => ?_
  obtain ⟨inner, declared⟩ := facts
  have same := inner.grows.decl id opened.inside
  refine Gives.mono (setBody_stays (opened.inside.trans_le inner.grows.size) (same ▸ opened.kind))
    fun _ after facts reading member => ?_
  obtain ⟨stays, read⟩ := facts
  rcases List.mem_append.mp member with member | member
  · exact (outer.recorded atFileScope reading member).stays (inner.grows.stays.trans stays)
  · refine ⟨(inner.found reading member).stays stays, fun isLocal holder held function known => ?_⟩
    have new := inner.held reading member holder held
    obtain rfl : id = function := by
      rw [stays.context holder new.inside] at known
      exact Option.some.inj ((opened.function.symm.trans new.context.symm).trans known)
    obtain ⟨body, listed, declares⟩ := declared reading member isLocal holder held
    exact ⟨body, read.trans (Option.mem_toList.mp listed), declares⟩

/-- What is recorded of a function while it is read is recorded when it is closed. -/
theorem functionSizes_recorded (storage : StorageClass) (isInline : Bool) (base : TypeSpec) (declarator : Declarator)
    (extent : Extent) (body : Expr) {draft : Draft} (atFileScope : draft.function = none) :
    Records (enterFunction storage isInline base declarator extent body) draft
      (functionSizes storage isInline base declarator extent body draft) := by
  have signature := signatureSizes_settled base declarator draft
  simp only [Records, enterFunction_eq, functionSizes, gives_bind]
  unfold Gives at signature ⊢
  generalize (enterSignature base declarator).run draft = typed at signature ⊢
  split
  · next named =>
    simp only [named]
    exact signature.filter.recorded atFileScope
  · next name nameExtent named =>
    simp only [named]
    exact enterBody_records signature
      (openFunction_opens storage isInline extent name nameExtent typed.1 typed.2) atFileScope body

theorem codeSizes_recorded (form : Form) {draft : Draft} (atFileScope : draft.function = none) :
    Records (codeOf form) draft (codeSizes form draft) := by
  cases form with
  | function storage isInline base declarator extent body =>
    exact functionSizes_recorded storage isInline base declarator extent body atFileScope
  | declaration declaration => exact (declarationSizes_settled declaration draft).recorded atFileScope
  | _ => exact List.forall_mem_nil _

section Files

variable (files : FileSystem) (search : SearchPath)

theorem inclusionSizes_eq (sizes : String → Document → Option IncludeId → Draft → List SizeReading) (header : String)
    (system : Bool) (draft : Draft) : inclusionSizes files search sizes header system draft =
      match draft.header? files search header system with
      | some (path, document, opened) => sizes path document (some draft.program.includes.size) opened
      | none => [] := by
  simp only [inclusionSizes, Draft.header?]
  generalize (if system then none else (search.read files header
    (some (draft.program.file draft.file).path)).toOption) = found
  cases found with
  | none => rfl
  | some read =>
    obtain ⟨path, document⟩ := read
    dsimp only
    cases files.locate path with
    | error cause => rfl
    | ok place =>
      dsimp only
      cases draft.read.contains place <;> rfl

variable {sizes : String → Document → Option IncludeId → Draft → List SizeReading}
  {inner : String → Document → Option IncludeId → Draft → List Opening}
  (same : ∀ path document inclusion draft,
    sizes path document inclusion draft = (inner path document inclusion draft).flatMap Opening.sizes)
include same

/-- The sizes of an item and of the header that it brings in are those of the items entered. -/
theorem itemSizes_eq (document : Document) (file : FileId) (item : Surface.Item) (draft : Draft) :
    itemSizes files search sizes file item draft =
      (itemOpenings files search inner document file item draft).flatMap Opening.sizes := by
  obtain ⟨extent, form⟩ := item
  cases form with
  | inclusion header system =>
    change inclusionSizes files search sizes header system (draft.openItem file extent) = _
    rw [inclusionSizes_eq, itemOpenings, List.flatMap_cons]
    dsimp only
    cases (draft.openItem file extent).header? files search header system with
    | none => rfl
    | some read =>
      obtain ⟨path, document, opened⟩ := read
      exact same path document _ opened
  | function | declaration | other | define | undef | directive => exact (List.append_nil _).symm

theorem itemsSizes_eq (enter : String → Document → Option IncludeId → Drafting (Option FileId)) (document : Document)
    (file : FileId) (items : List Surface.Item) (draft : Draft) :
    itemsSizes files search enter sizes file items draft =
      (itemsOpenings files search enter inner document file items draft).flatMap Opening.sizes := by
  induction items generalizing draft with
  | nil => rfl
  | cons item rest ih =>
    rw [itemsSizes, itemsOpenings, List.flatMap_append, itemSizes_eq files search same document, ih]

end Files

theorem fileSizes_eq (files : FileSystem) (search : SearchPath) (depth : Nat) (path : String) (document : Document)
    (inclusion : Option IncludeId) (draft : Draft) : fileSizes files search depth path document inclusion draft =
      (fileOpenings files search depth path document inclusion draft).flatMap Opening.sizes := by
  induction depth generalizing path document inclusion draft with
  | zero => rfl
  | succ depth ih => exact itemsSizes_eq files search ih _ document _ _ _

end Drafting

theorem Program.sizesOf_recorded (files : FileSystem) (search : SearchPath) (path : String) (document : Document) :
    ∀ reading ∈ Program.sizesOf files search path document,
      reading.Recorded (Program.ofDocument files search path document) := by
  intro reading member
  rw [Program.sizesOf, Drafting.fileSizes_eq] at member
  obtain ⟨opening, listed, own⟩ := List.mem_flatMap.mp member
  have opened := Program.ofDocument_opened files search path document
  have lasts := opened.lasts opening listed
  have atFileScope : opening.start.function = none := (opened.sound opening listed).function
  have recorded : reading.Recorded opening.after.program :=
    Drafting.codeSizes_recorded opening.item.form atFileScope reading own
  exact recorded.stays (.of_decl lasts.size lasts.decls lasts.carries.types)

end Excerpt
