import Excerpt.Proofs.Draft.Formation
import Excerpt.Proofs.Draft.Laying

/-!
What the names in scope stand for. At file scope a name stands for a declaration outside all functions, in a block for
one of those or for one of the function that is being read.
-/

namespace Excerpt

namespace Program

/-- Code of `function`, or code outside all functions, may refer to `id`. -/
structure Visible (program : Program) (function : Option DeclId) (id : DeclId) : Prop where
  known : id < program.decls.size
  context : (program.decl id).context = none ∨ (program.decl id).context = function

/-- Code of `function` may refer to every declaration that a type names, itself or through its parts. -/
inductive TypeVisible (program : Program) (function : Option DeclId) : TypeId → Prop
  | mk {type : TypeId} (known : type < program.types.size)
      (named : ∀ id, (program.type type).named? = some id → program.Visible function id)
      (parts : ∀ part ∈ (program.type type).parts, TypeVisible program function part) :
      TypeVisible program function type

/-- The function to which the body or the initializer of a declaration belongs. -/
def home (program : Program) (id : DeclId) : Option DeclId :=
  if (program.decl id).kind.isFunction then some id else (program.decl id).context

/-- Declarations keep their names, their functions and their chains, and types and files stay as they are. -/
structure Carries (before after : Program) : Prop where
  size : before.decls.size ≤ after.decls.size
  chain : ∀ id : Nat, id < before.decls.size → (after.decl id).chain = (before.decl id).chain
  head : ∀ chain id, (before.chain chain).head? = some id → (after.chain chain).head? = some id
  context : ∀ id : Nat, id < before.decls.size → (after.decl id).context = (before.decl id).context
  name : ∀ id : Nat, id < before.decls.size → (after.decl id).name = (before.decl id).name
  types : before.TypesStay after
  files : ∀ id : Nat, id < before.files.size → id < after.files.size ∧ after.file id = before.file id

end Program

/-- A node refers to what code of `function` may refer to. A name that is spelled out is that of its declaration. -/
def StmtKind.Sees (program : Program) (function : Option DeclId) (span : Span) : StmtKind → Prop
  | .declRef id spelled => program.Visible function id ∧ (spelled = true →
      span.file < program.files.size ∧ (program.decl id).name = some (String.ofList (program.text span)))
  | .localDecl id => id < program.decls.size ∧ (program.decl id).context = function
  | .typeRef type => program.TypeVisible function type
  | _ => True

def Stmt.Sees (program : Program) (function : Option DeclId) (stmt : Stmt) : Prop :=
  ∀ node ∈ stmt.preorder, node.kind.Sees program function node.span

/-- The declarations with which a declaration makes up one enumeration. -/
def DeclKind.linked : DeclKind → List DeclId
  | .enumeration constants _ => constants
  | .enumConstant _ owner _ => [owner]
  | _ => []

/-- The declaration opens its chain, or it continues one that its code may refer to. -/
def Program.Joins (program : Program) (id : DeclId) : Prop :=
  (program.chain (program.decl id).chain).head? = some id ∨
    ∃ earlier < id, (program.decl earlier).chain = (program.decl id).chain ∧
      program.Visible (program.decl id).context earlier

/-- A declaration refers to nothing inside another function, and a function with a body lies in none. -/
structure Program.Confined (program : Program) (id : DeclId) : Prop where
  joins : program.Joins id
  linked : ∀ member ∈ (program.decl id).kind.linked, program.Visible (program.decl id).context member
  outermost : (program.decl id).kind.hasBody = true → (program.decl id).context = none
  types : ∀ type ∈ (program.decl id).kind.declaredTypes, program.TypeVisible (program.decl id).context type
  body : ∀ stmt, (program.decl id).kind.body? = some stmt → stmt.Sees program (program.home id)

theorem DeclKind.of_hasBody {kind : DeclKind} (hasBody : kind.hasBody = true) :
    kind.isFunction = true ∧ ∃ stmt, kind.body? = some stmt := by
  cases kind with
  | function type body isInline =>
    cases body with
    | none => cases hasBody
    | some stmt => exact ⟨rfl, stmt, rfl⟩
  | var | record | enumeration | enumConstant | typedef => cases hasBody

section Carries

variable {before middle after : Program} {function : Option DeclId} {id : DeclId} {program : Program}

theorem Program.Visible.widen (visible : program.Visible none id) : program.Visible function id :=
  ⟨visible.known, .inl (or_self_iff.mp visible.context)⟩

theorem Program.TypeVisible.widen {type : TypeId} (visible : program.TypeVisible none type) :
    program.TypeVisible function type := by
  induction visible with
  | mk known named parts ih => exact .mk known (fun id found => (named id found).widen) ih

/-- Whatever a type is made of names what its function may refer to. -/
theorem Program.TypeVisible.named_of_part {type part : TypeId}
    (visible : program.TypeVisible function type)
    (reached : Relation.ReflTransGen program.HasPart type part)
    (found : (program.type part).named? = some id) : program.Visible function id := by
  have reachedVisible : program.TypeVisible function part := by
    clear found
    induction reached with
    | refl => exact visible
    | tail _ isPart ih =>
      cases ih with
      | mk _ _ parts => exact parts _ isPart
  cases reachedVisible with
  | mk _ named => exact named id found

theorem Program.Carries.trans (first : before.Carries middle) (second : middle.Carries after) :
    before.Carries after where
  size := first.size.trans second.size
  chain id old := (second.chain id (old.trans_le first.size)).trans (first.chain id old)
  head chain id found := second.head chain id (first.head chain id found)
  context id old := (second.context id (old.trans_le first.size)).trans (first.context id old)
  name id old := (second.name id (old.trans_le first.size)).trans (first.name id old)
  types := first.types.trans second.types
  files id old := by
    obtain ⟨known, same⟩ := first.files id old
    obtain ⟨last, again⟩ := second.files id known
    exact ⟨last, again.trans same⟩

theorem Program.carries_of_decls (decls : after.decls = before.decls) (chains : after.chains = before.chains)
    (types : before.TypesStay after)
    (files : ∀ id : Nat, id < before.files.size → id < after.files.size ∧ after.file id = before.file id) :
    before.Carries after := by
  have decl : ∀ id, after.decl id = before.decl id := fun id => by rw [Program.decl, decls, ← Program.decl]
  exact ⟨(congrArg Array.size decls).ge, fun id _ => by rw [decl],
    fun chain id found => by rw [Program.chain, chains]; exact found, fun id _ => by rw [decl],
    fun id _ => by rw [decl], types, files⟩

theorem Program.head_addDecl {decl : Decl} {previous : Option DeclId} {chain : ChainId}
    (found : (program.chain chain).head? = some id) :
    ((program.addDecl decl previous).chain chain).head? = some id := by
  have inside : chain < program.chains.size := by
    by_contra outside
    simp [Program.chain, outside] at found
  cases previous with
  | none => simpa [Program.chain, Program.addDecl, Array.getElem?_push, Nat.ne_of_lt inside] using found
  | some earlier =>
    simp only [Program.chain, Program.addDecl, Array.getD_eq_getD_getElem?, Array.getElem?_modify] at found ⊢
    split <;> simp_all

theorem Program.carries_addDecl (program : Program) (decl : Decl) (previous : Option DeclId) :
    program.Carries (program.addDecl decl previous) where
  size := by simp
  chain id old := by rw [Program.decl_addDecl_of_lt old]
  head _ _ found := Program.head_addDecl found
  context id old := by rw [Program.decl_addDecl_of_lt old]
  name id old := by rw [Program.decl_addDecl_of_lt old]
  types := .of_eq (by cases previous <;> rfl)
  files id old := by cases previous <;> exact ⟨old, rfl⟩

structure Decl.SameHead (before after : Decl) : Prop where
  chain : after.chain = before.chain
  context : after.context = before.context
  name : after.name = before.name

theorem Program.carries_modifyDecl {change : Decl → Decl}
    (head : (program.decl id).SameHead (change (program.decl id))) :
    program.Carries (program.modifyDecl id change) := by
  have heads : ∀ other, (program.decl other).SameHead ((program.modifyDecl id change).decl other) := by
    intro other
    rw [Program.decl_modifyDecl]
    split
    · next same => exact same.1 ▸ head
    · exact ⟨rfl, rfl, rfl⟩
  exact
    { size := by simp
      chain := fun other _ => (heads other).chain
      head := fun _ _ found => found
      context := fun other _ => (heads other).context
      name := fun other _ => (heads other).name
      types := .of_eq rfl
      files := fun _ old => ⟨old, rfl⟩ }

theorem Program.carries_addType (program : Program) (type : CType) : program.Carries (program.addType type).2 := by
  unfold Program.addType
  split
  · exact Program.carries_of_decls rfl rfl (.of_eq rfl) fun _ old => ⟨old, rfl⟩
  · exact Program.carries_of_decls rfl rfl (.push program type) fun _ old => ⟨old, rfl⟩

variable (carries : before.Carries after)
include carries

theorem Program.Visible.mono (visible : before.Visible function id) : after.Visible function id := by
  refine ⟨visible.known.trans_le carries.size, ?_⟩
  rw [carries.context id visible.known]
  exact visible.context

theorem Program.TypeVisible.mono {type : TypeId} (visible : before.TypeVisible function type) :
    after.TypeVisible function type := by
  induction visible with
  | @mk type known named parts ih =>
    obtain ⟨stays, same⟩ := carries.types type known
    refine .mk stays (fun id found => ?_) fun part isPart => ?_
    · rw [same] at found
      exact (named id found).mono carries
    · rw [same] at isPart
      exact ih part isPart

theorem Stmt.Sees.mono {stmt : Stmt} (sees : stmt.Sees before function) : stmt.Sees after function := by
  intro node member
  have own := sees node member
  cases kind : node.kind with
  | declRef id spelled =>
    rw [kind] at own
    refine ⟨own.1.mono carries, fun isSpelled => ?_⟩
    obtain ⟨known, name⟩ := own.2 isSpelled
    obtain ⟨stays, same⟩ := carries.files _ known
    refine ⟨stays, ?_⟩
    rw [carries.name id own.1.known, name, Program.text, Program.text, same]
  | localDecl id =>
    rw [kind] at own
    exact ⟨own.1.trans_le carries.size, (carries.context id own.1).trans own.2⟩
  | typeRef type =>
    rw [kind] at own
    exact Program.TypeVisible.mono carries own
  | _ => trivial

theorem Program.Joins.mono (joins : before.Joins id) (same : after.decl id = before.decl id) : after.Joins id := by
  unfold Program.Joins
  rw [same]
  refine joins.imp (carries.head _ _) ?_
  rintro ⟨earlier, less, chain, visible⟩
  exact ⟨earlier, less, (carries.chain earlier visible.known).trans chain, visible.mono carries⟩

theorem Program.Confined.mono (confined : before.Confined id) (same : after.decl id = before.decl id) :
    after.Confined id := by
  have home : after.home id = before.home id := by rw [Program.home, same, ← Program.home]
  refine ⟨confined.joins.mono carries same, fun member listed => ?_, same ▸ confined.outermost, ?_, ?_⟩
  · rw [same] at listed ⊢
    exact (confined.linked member listed).mono carries
  · intro type listed
    rw [same] at listed ⊢
    exact (confined.types type listed).mono carries
  · intro stmt found
    rw [same] at found
    rw [home]
    exact (confined.body stmt found).mono carries

end Carries

/-- Every name of a scope stands for a declaration of that name to which code of `function` may refer. -/
structure Scope.Shows (program : Program) (function : Option DeclId) (scope : Scope) : Prop where
  ordinary : ∀ name id, (name, id) ∈ scope.ordinary → program.Visible function id ∧ (program.decl id).name = some name
  tags : ∀ name id, (name, id) ∈ scope.tags → program.Visible function id

theorem Scope.Shows.mono {before after : Program} {function : Option DeclId} {scope : Scope}
    (shows_ : scope.Shows before function) (carries : before.Carries after) : scope.Shows after function := by
  constructor
  · intro name id bound
    obtain ⟨visible, named⟩ := shows_.ordinary name id bound
    exact ⟨visible.mono carries, (carries.name id visible.known).trans named⟩
  · intro name id bound
    exact (shows_.tags name id bound).mono carries

namespace Draft

/-- Code of `function` is about to be read in a file with the text `source`, and it may use every name in scope. -/
structure Scoped (source : List Char) (function : Option DeclId) (draft : Draft) : Prop where
  current : draft.function = function
  file : draft.file < draft.program.files.size
  text : (draft.program.file draft.file).text = source
  outside : draft.blocks = [] → function = none
  outer : draft.fileScope.Shows draft.program none
  inner : ∀ scope ∈ draft.blocks, scope.Shows draft.program function

/-- What was read between two drafts left the scopes as many as they were, and what it declared is confined. -/
structure Confines (source : List Char) (function : Option DeclId) (before after : Draft) : Prop where
  inScope : after.Scoped source function
  carries : before.program.Carries after.program
  old : ∀ id : Nat, id < before.program.decls.size → after.program.decl id = before.program.decl id
  blocks : after.blocks.length = before.blocks.length
  decls : ∀ id : Nat, before.program.decls.size ≤ id → id < after.program.decls.size → after.program.Confined id

section Scoped

variable {source : List Char} {function : Option DeclId} {draft : Draft} {name : String} {id : DeclId}
  (inScope : draft.Scoped source function)
include inScope

theorem Scoped.scopes {scope : Scope} (member : scope ∈ draft.scopes) : scope.Shows draft.program function := by
  rcases List.mem_append.mp member with member | member
  · exact inScope.inner scope member
  · rw [List.mem_singleton.mp member]
    constructor
    · intro name id bound
      obtain ⟨visible, named⟩ := inScope.outer.ordinary name id bound
      exact ⟨visible.widen, named⟩
    · intro name id bound
      exact (inScope.outer.tags name id bound).widen

theorem Scoped.ordinary (found : draft.ordinary? name = some id) :
    draft.program.Visible function id ∧ (draft.program.decl id).name = some name := by
  obtain ⟨scope, member, bound⟩ := List.exists_of_findSome?_eq_some found
  exact (inScope.scopes member).ordinary name id (mem_of_lookup bound)

theorem Scoped.tag (found : draft.tag? name = some id) : draft.program.Visible function id := by
  obtain ⟨scope, member, bound⟩ := List.exists_of_findSome?_eq_some found
  exact (inScope.scopes member).tags name id (mem_of_lookup bound)

theorem Scoped.carry {later : Draft} (carries : draft.program.Carries later.program) (file : later.file = draft.file)
    (fileScope : later.fileScope = draft.fileScope) (blocks : later.blocks = draft.blocks)
    (current : later.function = draft.function) : later.Scoped source function := by
  obtain ⟨known, same⟩ := carries.files _ inScope.file
  refine ⟨current.trans inScope.current, file ▸ known, ?_, ?_, ?_, ?_⟩
  · rw [file, same, inScope.text]
  · rw [blocks]
    exact inScope.outside
  · rw [fileScope]
    exact inScope.outer.mono carries
  · rw [blocks]
    exact fun scope member => (inScope.inner scope member).mono carries

theorem Scoped.modifyInnermost {change : Scope → Scope}
    (adds : ∀ scope : Scope, scope.Shows draft.program function → (change scope).Shows draft.program function) :
    (draft.modifyInnermost change).Scoped source function := by
  unfold Draft.modifyInnermost
  split
  · next none =>
    have outside := inScope.outside none
    rw [outside] at adds
    exact ⟨inScope.current, inScope.file, inScope.text, inScope.outside, adds _ inScope.outer, inScope.inner⟩
  · next scope rest some =>
    refine ⟨inScope.current, inScope.file, inScope.text, fun none => (by cases none), inScope.outer,
      fun other member => ?_⟩
    have inner := inScope.inner
    rw [some] at inner
    rcases List.mem_cons.mp member with rfl | member
    · exact adds scope (inner scope List.mem_cons_self)
    · exact inner other (List.mem_cons_of_mem _ member)

theorem Scoped.bindOrdinary (visible : draft.program.Visible function id)
    (named : (draft.program.decl id).name = some name) : (draft.bindOrdinary name id).Scoped source function := by
  refine inScope.modifyInnermost fun scope shows_ => ⟨fun other decl bound => ?_, shows_.tags⟩
  rcases List.mem_cons.mp bound with same | bound
  · cases same
    exact ⟨visible, named⟩
  · exact shows_.ordinary other decl bound

theorem Scoped.bindTag (visible : draft.program.Visible function id) :
    (draft.bindTag name id).Scoped source function := by
  refine inScope.modifyInnermost fun scope shows_ => ⟨shows_.ordinary, fun other decl bound => ?_⟩
  rcases List.mem_cons.mp bound with same | bound
  · cases same
    exact visible
  · exact shows_.tags other decl bound

theorem Scoped.bindFileTag (visible : draft.program.Visible none id) :
    (draft.bindFileTag name id).Scoped source function := by
  refine ⟨inScope.current, inScope.file, inScope.text, inScope.outside,
    ⟨inScope.outer.ordinary, fun other decl bound => ?_⟩, inScope.inner⟩
  rcases List.mem_cons.mp bound with same | bound
  · cases same
    exact visible
  · exact inScope.outer.tags other decl bound

theorem Scoped.enterScope : draft.enterScope.Scoped source function := by
  refine ⟨inScope.current, inScope.file, inScope.text, fun none => (by cases none), inScope.outer,
    fun scope member => ?_⟩
  rcases List.mem_cons.mp member with rfl | member
  · exact ⟨fun _ _ none => (by cases none), fun _ _ none => by cases none⟩
  · exact inScope.inner scope member

end Scoped

section Confines

variable {source : List Char} {function : Option DeclId} {before middle after : Draft} {id : DeclId}

theorem Confines.refl (inScope : before.Scoped source function) : before.Confines source function before where
  inScope := inScope
  carries := Program.carries_of_decls rfl rfl (.of_eq rfl) fun _ old => ⟨old, rfl⟩
  old _ _ := rfl
  blocks := rfl
  decls _ new known := absurd known (Nat.not_lt.mpr new)

theorem Confines.trans (first : before.Confines source function middle)
    (second : middle.Confines source function after) : before.Confines source function after where
  inScope := second.inScope
  carries := first.carries.trans second.carries
  old id known := (second.old id (known.trans_le first.carries.size)).trans (first.old id known)
  blocks := second.blocks.trans first.blocks
  decls id new known := by
    by_cases early : id < middle.program.decls.size
    · exact (first.decls id new early).mono second.carries (second.old id early)
    · exact second.decls id (Nat.not_lt.mp early) known

theorem Confines.same {later : Draft} (confines : before.Confines source function after)
    (inScope : later.Scoped source function)
    (program : later.program = after.program) (blocks : later.blocks.length = after.blocks.length) :
    before.Confines source function later := by
  refine ⟨inScope, ?_, ?_, blocks.trans confines.blocks, ?_⟩
  all_goals rw [program]
  · exact confines.carries
  · exact confines.old
  · exact confines.decls

/-- A declaration made since the start may receive members to which its function may refer. -/
theorem Confines.revise (confines : before.Confines source function after) {change : Decl → Decl}
    (since : before.program.decls.size ≤ id) (known : id < after.program.decls.size)
    (head : (after.program.decl id).SameHead (change (after.program.decl id)))
    (linked : ∀ member ∈ (change (after.program.decl id)).kind.linked,
      after.program.Visible (after.program.decl id).context member)
    (outermost : (change (after.program.decl id)).kind.hasBody = true → (after.program.decl id).context = none)
    (types : ∀ type ∈ (change (after.program.decl id)).kind.declaredTypes,
      after.program.TypeVisible (after.program.decl id).context type)
    (body : ∀ stmt, (change (after.program.decl id)).kind.body? = some stmt → stmt.Sees after.program
      (if (change (after.program.decl id)).kind.isFunction then some id else (after.program.decl id).context)) :
    before.Confines source function { after with program := after.program.modifyDecl id change } := by
  have carries := Program.carries_modifyDecl head
  obtain ⟨chain, context, -⟩ := head
  refine ⟨confines.inScope.carry carries rfl rfl rfl rfl, confines.carries.trans carries, fun other old => ?_,
    confines.blocks, fun other new inside => ?_⟩
  · have differs : other ≠ id := Nat.ne_of_lt (old.trans_le since)
    dsimp only
    rw [Program.decl_modifyDecl, if_neg fun same => differs same.1, confines.old other old]
  · rw [Program.modifyDecl_size] at inside
    dsimp only at carries ⊢
    by_cases same : other = id
    · have own : (after.program.modifyDecl id change).decl other = change (after.program.decl id) := by
        rw [Program.decl_modifyDecl, if_pos ⟨same, same ▸ known⟩]
      refine ⟨?_, ?_, ?_, ?_, ?_⟩
      · rcases (confines.decls id since known).joins with opens | ⟨earlier, less, joined, visible⟩
        · left
          rw [own, chain, same]
          exact carries.head _ _ opens
        · right
          refine ⟨earlier, same ▸ less, ?_, ?_⟩
          · rw [own, chain, carries.chain earlier visible.known, joined]
          · rw [own, context]
            exact visible.mono carries
      · rw [own, context]
        exact fun member listed => (linked member listed).mono carries
      · rw [own, context]
        exact outermost
      · rw [own, context]
        exact fun type listed => (types type listed).mono carries
      · rw [Program.home, own, context, same]
        exact fun stmt found => (body stmt found).mono carries
    · refine (confines.decls other new inside).mono carries ?_
      rw [Program.decl_modifyDecl, if_neg fun both => same both.1]

end Confines

structure Added (source : List Char) (function : Option DeclId) (draft : Draft) (decl : Decl) (id : DeclId)
    (after : Draft) : Prop where
  confines : draft.Confines source function after
  id_eq : id = draft.program.decls.size
  known : id < after.program.decls.size
  decl : ∃ chain, after.program.decl id = { decl with chain }

section Added

variable {source : List Char} {function : Option DeclId} {draft after : Draft} {decl : Decl} {id : DeclId}
  (added : draft.Added source function decl id after)
include added

theorem Added.kind : (after.program.decl id).kind = decl.kind := by
  obtain ⟨chain, same⟩ := added.decl
  rw [same]

theorem Added.context : (after.program.decl id).context = decl.context := by
  obtain ⟨chain, same⟩ := added.decl
  rw [same]

theorem Added.visible : after.program.Visible decl.context id :=
  ⟨added.known, .inr added.context⟩

theorem Added.ordinary {name : String} (here : decl.context = function) (named : decl.name = some name) :
    draft.Added source function decl id (after.bindOrdinary name id) := by
  have visible : after.program.Visible function id := here ▸ added.visible
  have own : (after.program.decl id).name = some name := by
    obtain ⟨chain, same⟩ := added.decl
    rw [same, named]
  have blocks := (@Draft.bindOrdinary_frame after name id).2.2
  refine ⟨added.confines.same (added.confines.inScope.bindOrdinary visible own) (bindOrdinary_program _ _ _) blocks,
    added.id_eq, ?_, ?_⟩
  all_goals rw [bindOrdinary_program]
  · exact added.known
  · exact added.decl

theorem Added.tag (name : String) (here : decl.context = function) :
    draft.Added source function decl id (after.bindTag name id) := by
  have visible : after.program.Visible function id := here ▸ added.visible
  have blocks := (@Draft.bindTag_frame after name id).2.2.1
  refine ⟨added.confines.same (added.confines.inScope.bindTag visible) (bindTag_program _ _ _) blocks,
    added.id_eq, ?_, ?_⟩
  all_goals rw [bindTag_program]
  · exact added.known
  · exact added.decl

end Added

end Draft

namespace Drafting

open Surface

section Primitives

variable {source : List Char} {function : Option DeclId} {draft : Draft} (inScope : draft.Scoped source function)
  {name : String} {storage : StorageClass}
include inScope

/-- A type in the table names the same declarations as before, so finding it again is as good as adding it. -/
theorem addType_confines {type : CType} (named : ∀ id, type.named? = some id → draft.program.Visible function id)
    (parts : ∀ part ∈ type.parts, draft.program.TypeVisible function part) :
    Gives (addType type) draft fun id after =>
      draft.Confines source function after ∧ after.program.TypeVisible function id := by
  have carries := draft.program.carries_addType type
  have same := draft.program.type_addType type
  have decls : (draft.program.addType type).2.decls = draft.program.decls := by
    unfold Program.addType
    split <;> rfl
  have inside : (draft.program.addType type).1 < (draft.program.addType type).2.types.size := by
    unfold Program.addType
    split
    · next id found =>
      obtain ⟨inside, -⟩ := Array.findIdx?_eq_some_iff_getElem.mp found
      exact inside
    · simp
  have visible : (draft.program.addType type).2.TypeVisible function (draft.program.addType type).1 := by
    refine .mk inside (fun id found => ?_) fun part isPart => ?_
    · rw [same] at found
      exact (named id found).mono carries
    · rw [same] at isPart
      exact (parts part isPart).mono carries
  refine ⟨⟨inScope.carry carries rfl rfl rfl rfl, carries, fun id _ => ?_, rfl, fun id new known => ?_⟩, visible⟩
  · change (draft.program.addType type).2.decl id = _
    rw [Program.decl, decls, ← Program.decl]
  · change id < (draft.program.addType type).2.decls.size at known
    rw [decls] at known
    exact absurd known (Nat.not_lt.mpr new)

/-- A declaration continues only what its code may refer to, and its number is new. -/
theorem addDecl_added {decl : Decl} {previous : Option DeclId}
    (continues : ∀ earlier, previous = some earlier → draft.program.Visible decl.context earlier)
    (linked : ∀ member ∈ decl.kind.linked, draft.program.Visible decl.context member)
    (types : ∀ type ∈ decl.kind.declaredTypes, draft.program.TypeVisible decl.context type)
    (body : ∀ stmt, decl.kind.body? = some stmt →
      decl.kind.isFunction = false ∧ stmt.Sees draft.program decl.context) :
    Gives (addDecl decl previous) draft (draft.Added source function decl) := by
  have carries := draft.program.carries_addDecl decl previous
  have size : (draft.program.addDecl decl previous).decls.size = draft.program.decls.size + 1 := Program.addDecl_size
  have new : (draft.program.addDecl decl previous).decl draft.program.decls.size =
      { decl with chain := draft.program.nextChain previous } := Program.decl_addDecl_size
  refine ⟨⟨inScope.carry carries rfl rfl rfl rfl, carries, fun id old => Program.decl_addDecl_of_lt old, rfl,
    fun id since known => ?_⟩, rfl, ?_, ⟨_, new⟩⟩
  · change id < (draft.program.addDecl decl previous).decls.size at known
    obtain rfl : id = draft.program.decls.size := by omega
    change (draft.program.addDecl decl previous).Confined draft.program.decls.size
    refine ⟨?_, ?_, ?_, ?_, ?_⟩
    · unfold Program.Joins
      rw [new]
      cases previous with
      | none =>
        left
        simp [Program.chain, Program.addDecl, Program.nextChain]
      | some earlier =>
        have visible := continues earlier rfl
        exact .inr ⟨earlier, visible.known, carries.chain earlier visible.known, visible.mono carries⟩
    · rw [new]
      exact fun member listed => (linked member listed).mono carries
    · rw [new]
      intro hasBody
      obtain ⟨isFunction, stmt, found⟩ := DeclKind.of_hasBody hasBody
      rw [(body stmt found).1] at isFunction
      cases isFunction
    · rw [new]
      exact fun type listed => (types type listed).mono carries
    · intro stmt found
      rw [new] at found
      obtain ⟨plain, sees⟩ := body stmt found
      rw [Program.home, new]
      simp only [plain]
      exact sees.mono carries
  · change draft.program.decls.size < (draft.program.addDecl decl previous).decls.size
    omega

theorem declare_added {name : Option String} {kind : DeclKind} {offset : Nat}
    {declarator : Option DeclaratorSpans} {previous : Option DeclId}
    (continues : ∀ earlier, previous = some earlier → draft.program.Visible function earlier)
    (linked : ∀ member ∈ kind.linked, draft.program.Visible function member)
    (types : ∀ type ∈ kind.declaredTypes, draft.program.TypeVisible function type)
    (body : ∀ stmt, kind.body? = some stmt → kind.isFunction = false ∧ stmt.Sees draft.program function) :
    Gives (declare name kind storage offset declarator previous) draft (draft.Added source function
      ⟨name, kind, storage, draft.span, ⟨draft.item, offset⟩, declarator, draft.function, draft.item, 0⟩) :=
  addDecl_added inScope (inScope.current ▸ continues) (inScope.current ▸ linked) (inScope.current ▸ types)
    (inScope.current ▸ body)

/-- A tag is looked up in the scopes that are open, and its first mention belongs to no function. -/
theorem tagReference_confines (standalone : Bool) (kind : TagKind) (name : String) (start : Nat) :
    Gives (tagReference standalone kind name start) draft fun id after =>
      draft.Confines source function after ∧ after.program.Visible function id := by
  have types : ∀ function, ∀ type ∈ kind.incomplete.declaredTypes, draft.program.TypeVisible function type := by
    cases kind <;> exact fun _ _ none => by cases none
  have body : ∀ function stmt, kind.incomplete.body? = some stmt →
      kind.incomplete.isFunction = false ∧ stmt.Sees draft.program function := by
    cases kind <;> exact fun _ _ none => by cases none
  have linked : kind.incomplete.linked = [] := by cases kind <;> rfl
  simp only [tagReference, gives_bind, gives_get]
  split
  · simp only [gives_bind, gives_modify, gives_pure]
    have continues := fun earlier (found : draft.innermost.tags.lookup name = some earlier) =>
      (inScope.scopes draft.innermost_mem_scopes).tags name earlier (mem_of_lookup found)
    refine (declare_added inScope continues (by simp [linked]) (types _) (body _)).mono fun id after added => ?_
    have bound := added.tag name inScope.current
    exact ⟨bound.confines, inScope.current ▸ bound.visible⟩
  · split
    · next id found => exact ⟨.refl inScope, inScope.tag found⟩
    · let forward : Decl :=
        ⟨some name, kind.incomplete, .unspecified, draft.span, ⟨draft.item, start⟩, none, none, draft.item, 0⟩
      have added : Gives (addDecl forward none) draft (draft.Added source function forward) :=
        addDecl_added inScope (by simp) (by simp [forward, linked]) (types none) (body none)
      simp only [gives_bind, gives_modify, gives_pure]
      refine added.mono fun id after added => ?_
      have visible : after.program.Visible none id := added.visible
      exact ⟨added.confines.same (added.confines.inScope.bindFileTag visible) rfl rfl, visible.widen⟩

theorem defineTag_added {name : Option String} {start : Nat} {kind : DeclKind} (types : kind.declaredTypes = [])
    (body : kind.body? = none) (linked : kind.linked = []) :
    Gives (defineTag name start kind) draft (draft.Added source function
      ⟨name, kind, .unspecified, draft.span, ⟨draft.item, start⟩, none, draft.function, draft.item, 0⟩) := by
  simp only [defineTag, gives_bind, gives_get]
  refine (declare_added inScope (fun earlier found => ?_) (by simp [linked]) (by simp [types]) (by simp [body])).mono
    fun id after added => ?_
  · obtain ⟨name, -, bound⟩ := Option.bind_eq_some_iff.mp (Option.filter_eq_some_iff.mp found).1
    exact (inScope.scopes draft.innermost_mem_scopes).tags name earlier (mem_of_lookup bound)
  cases name with
  | none => exact added
  | some name => exact added.tag name inScope.current

theorem redeclared_visible {isFunction : Bool} {earlier : DeclId}
    (found : draft.redeclared? name isFunction storage = some earlier) :
    draft.program.Visible none earlier := by
  unfold Draft.redeclared? at found
  split at found
  · cases found
  · exact (inScope.outer.ordinary name earlier (mem_of_lookup (Option.filter_eq_some_iff.mp found).1)).1

theorem declareObject_added {isInline : Bool} {full bare nameExtent : Extent} {type : TypeId}
    (visible : draft.program.TypeVisible function type) :
    Gives (declareObject storage isInline full bare name nameExtent type) draft (draft.Added source function
      ⟨some name, objectKind draft type isInline, storage, draft.span, ⟨draft.item, nameExtent.start⟩,
        some ⟨draft.spanOf full, draft.spanOf bare, draft.spanOf nameExtent⟩, draft.function, draft.item, 0⟩) := by
  simp only [declareObject, gives_bind, gives_get, gives_modify, gives_pure]
  refine (declare_added inScope (fun earlier found => ?_) (fun member listed => ?_) (fun other listed => ?_)
    fun stmt found => ?_).mono fun id after added => added.ordinary inScope.current rfl
  · exact (redeclared_visible inScope found).widen
  · split at listed <;> cases listed
  · rw [← objectKind, objectKind_declaredTypes, List.mem_singleton] at listed
    exact listed ▸ visible
  · split at found <;> cases found

theorem declareTypedef_added {extent nameExtent : Extent} {type : TypeId}
    (visible : draft.program.TypeVisible function type) :
    Gives (declareTypedef extent name nameExtent type) draft fun _ after => draft.Confines source function after := by
  simp only [declareTypedef, gives_bind, gives_get, gives_modify, gives_pure]
  refine (declare_added inScope (fun earlier found => ?_) (fun _ none => by cases none) (fun other listed => ?_)
    fun stmt found => ?_).mono fun id after added => ?_
  · obtain ⟨bound, -⟩ := Option.filter_eq_some_iff.mp found
    exact ((inScope.scopes draft.innermost_mem_scopes).ordinary name earlier (mem_of_lookup bound)).1
  · exact List.mem_singleton.mp listed ▸ visible
  · cases found
  · exact (added.ordinary inScope.current rfl).confines

theorem namedType_named {id : DeclId} (found : (draft.namedType name).named? = some id) :
    draft.program.Visible function id := by
  unfold Draft.namedType at found
  split at found
  · next bound =>
    split at found
    · cases found
      exact (inScope.ordinary bound).1
    · cases found
  · cases found

end Primitives

end Drafting

end Excerpt
