import Excerpt.Proofs.Closure.ArraySizes
import Excerpt.Proofs.Closure.Chains
import Excerpt.Proofs.Draft.ScopeDiscipline

namespace Excerpt

namespace Program

/-- Code of `function` may refer to the entity of `member`. -/
def Touches (program : Program) (function : Option DeclId) (member : DeclId) : Prop :=
  ∃ named, program.Visible function named ∧ member ∈ program.redecls named

theorem visible_of_fileScope {program : Program} {name : String} {id : DeclId} (listed : id ∈ program.fileScope name) :
    program.Visible none id := by
  obtain ⟨known, named⟩ := List.mem_filter.mp listed
  simp only [Decl.isOrdinaryFileScope, Decl.isFileScope, Bool.and_eq_true, Option.isNone_iff_eq_none] at named
  exact ⟨List.mem_range.mp known, .inl named.1.1⟩

variable {program : Program} (confined : ∀ id : Nat, id < program.decls.size → program.Confined id)
include confined

/-- Following what a declaration continues, backwards in the table, ends at the head of its chain. No step leads into
another function. -/
theorem exists_opening {id : Nat} (known : id < program.decls.size) : ∃ head ≤ id,
    (program.chain (program.decl id).chain).head? = some head ∧
      ((program.decl head).context = none ∨ (program.decl head).context = (program.decl id).context) := by
  induction id using Nat.strong_induction_on with
  | _ id ih =>
    rcases (confined id known).joins with opens | ⟨earlier, less, chain, visible⟩
    · exact ⟨id, Nat.le_refl id, opens, .inr rfl⟩
    · obtain ⟨head, below, opens, context⟩ := ih earlier less visible.known
      refine ⟨head, below.trans less.le, chain ▸ opens, ?_⟩
      rcases context with outer | same
      · exact .inl outer
      · rw [same]
        exact visible.context

/-- Two declarations of one entity are in the same function unless the entity was declared at file scope before. -/
theorem outer_or_same {id other : Nat} (known : id < program.decls.size) (otherKnown : other < program.decls.size)
    (chain : (program.decl id).chain = (program.decl other).chain) :
    (∃ outer ∈ program.redecls id, outer ≤ id ∧ (program.decl outer).context = none) ∨
      (program.decl id).context = (program.decl other).context := by
  obtain ⟨head, below, opens, context⟩ := exists_opening confined known
  obtain ⟨first, -, opensOther, contextOther⟩ := exists_opening confined otherKnown
  obtain rfl : head = first := by
    rw [← chain, opens] at opensOther
    exact Option.some.inj opensOther
  by_cases outer : (program.decl head).context = none
  · exact .inl ⟨head, List.mem_of_head? opens, below, outer⟩
  · exact .inr ((context.resolve_left outer).symm.trans (contextOther.resolve_left outer))

/-- Code reaches into a function only from there, or through an entity that was declared at file scope before. -/
theorem Touches.outer_or_eq (consistent : program.Consistent) {function : Option DeclId} {member enclosing : DeclId}
    (touches : program.Touches function member) (inner : (program.decl member).context = some enclosing) :
    (∃ outer ∈ program.redecls member, outer ≤ member ∧ (program.decl outer).context = none) ∨
      function = some enclosing := by
  obtain ⟨named, visible, listed⟩ := touches
  obtain ⟨known, chain⟩ := (consistent.chains _ member).mp listed
  rcases outer_or_same confined known visible.known chain with outer | same
  · exact .inl outer
  · rw [inner] at same
    rcases visible.context with none | own
    · rw [none] at same
      cases same
    · exact .inr (own.symm.trans same.symm)

end Program

namespace Session

variable {session : Session}

/-- A declaration inside `function` of an entity that a marked declaration at file scope has declared before. -/
structure Redeclares (session : Session) (closure : Closure) (function id : DeclId) : Prop where
  marked : id ∈ closure.decls
  inner : (session.program.decl id).context = some function
  outer : ∃ other ∈ closure.decls, other ∈ session.program.redecls id ∧ other < id ∧
    (session.program.decl other).isFileScope = true

def NeedsInside (session : Session) (function id member : DeclId) : Prop :=
  (session.program.decl member).context = some function ∧ (session.DeclNeeds id member ∨ session.BodyNeeds id member)

/-- A declaration in `function` that redeclares something of the file is `id`, or it leads to `id` inside the
function. -/
def LedTo (session : Session) (closure : Closure) (function id : DeclId) : Prop :=
  ∃ first, session.Redeclares closure function first ∧ Relation.ReflTransGen (session.NeedsInside function) first id

theorem lookupContext_of_plain {id : DeclId} (plain : (session.program.decl id).kind.hasBody = false) :
    session.lookupContext id = (session.program.decl id).context := by
  cases context : (session.program.decl id).context <;> simp [lookupContext, context, plain]

theorem lookupContext_of_body {id : DeclId} (outer : (session.program.decl id).context = none)
    (hasBody : (session.program.decl id).kind.hasBody = true) : session.lookupContext id = some id := by
  simp [lookupContext, outer, hasBody]

theorem lookupContext_eq (id : DeclId) : session.lookupContext id = (session.program.decl id).context ∨
    (session.program.decl id).context = none ∧ session.lookupContext id = some id := by
  cases hasBody : (session.program.decl id).kind.hasBody with
  | false => exact .inl (lookupContext_of_plain hasBody)
  | true =>
    cases context : (session.program.decl id).context with
    | none => exact .inr ⟨rfl, lookupContext_of_body context hasBody⟩
    | some function => simp [lookupContext, context]

theorem visible_lookupContext {id member : DeclId}
    (visible : session.program.Visible (session.program.decl id).context member) :
    session.program.Visible (session.lookupContext id) member := by
  rcases session.lookupContext_eq id with same | ⟨none, -⟩
  · rwa [same]
  · rw [none] at visible
    exact visible.widen

theorem typeVisible_lookupContext {id : DeclId} {type : TypeId}
    (visible : session.program.TypeVisible (session.program.decl id).context type) :
    session.program.TypeVisible (session.lookupContext id) type := by
  rcases session.lookupContext_eq id with same | ⟨none, -⟩
  · rwa [same]
  · rw [none] at visible
    exact visible.widen

section Needs

variable (confined : ∀ id : Nat, id < session.program.decls.size → session.program.Confined id)
include confined

theorem visible_owner {constant owner : DeclId} (owned : session.owner? constant = some owner) :
    session.program.Visible (session.program.decl constant).context owner := by
  unfold owner? at owned
  split at owned
  · next kind =>
    cases owned
    have known := Program.lt_size_of_sort (congrArg DeclKind.sort kind) (by simp [DeclKind.sort])
    exact (confined constant known).linked owner (by simp [kind, DeclKind.linked])
  · cases owned

theorem TypeNeeds.touches {context : Option DeclId} {type : TypeId} {member : DeclId}
    (needed : session.TypeNeeds context type member) (visible : session.program.TypeVisible context type) :
    session.program.Touches context member := by
  obtain ⟨part, named, reached, names, last, -, listed, -⟩ := needed
  refine ⟨named, ?_, listed⟩
  generalize shape : session.program.type part = form at names
  cases names with
  | record | enumeration | typedef => exact visible.named_of_part reached (by rw [shape]; rfl)
  | arraySize found owned =>
    have own := visible_owner confined owned
    rcases Program.context_of_enumConstant found with none | same
    · rw [none] at own
      exact own.widen
    · rwa [same] at own

theorem DeclNeeds.touches {id member : DeclId} (known : id < session.program.decls.size)
    (needed : session.DeclNeeds id member) : session.program.Touches (session.lookupContext id) member := by
  cases needed with
  | type declared needed =>
    exact needed.touches confined (typeVisible_lookupContext ((confined id known).types _ declared))
  | @constant constants complete constant kind listed marked =>
    obtain ⟨last, -, present, -⟩ := marked
    refine ⟨constant, visible_lookupContext ((confined id known).linked constant ?_), present⟩
    rwa [kind]
  | @owner value owner init kind marked =>
    obtain ⟨last, -, present, -⟩ := marked
    exact ⟨owner, visible_lookupContext (visible_owner confined (by simp [owner?, kind])), present⟩

theorem home_eq_lookupContext {id : DeclId} (known : id < session.program.decls.size) {body : Stmt}
    (found : (session.program.decl id).kind.body? = some body) :
    session.program.home id = session.lookupContext id := by
  cases hasBody : (session.program.decl id).kind.hasBody with
  | true =>
    rw [Program.home, (DeclKind.of_hasBody hasBody).1,
      lookupContext_of_body ((confined id known).outermost hasBody) hasBody]
    rfl
  | false =>
    have plain : (session.program.decl id).kind.isFunction = false := by
      cases kind : (session.program.decl id).kind with
      | function type own isInline => simp_all [DeclKind.hasBody, DeclKind.body?]
      | var | record | enumeration | enumConstant | typedef => rfl
    rw [Program.home, plain, lookupContext_of_plain hasBody]
    rfl

/-- Every node of a body, in the initializers of its variables too, refers to what is visible in its function. -/
theorem BodyNeeds.touches {id member : DeclId} (known : id < session.program.decls.size)
    (needed : session.BodyNeeds id member) : session.program.Touches (session.lookupContext id) member := by
  obtain ⟨body, stmt, found, reached, needed⟩ := needed
  have sees :=
    Program.sees_of_reaches confined ((confined id known).body body found) reached stmt stmt.self_mem_preorder
  rw [home_eq_lookupContext confined known found] at sees
  generalize stmt.kind = shape at sees needed
  rcases needed with @⟨named, _, spelled, shared, marked⟩ | @⟨inner, _, type, init, kind, needed⟩ |
    @⟨inner, _, kind, earlier⟩ | @⟨type, _, needed⟩
  · obtain ⟨last, -, present, -⟩ := marked
    exact ⟨named, sees.1, present⟩
  · have own := (confined inner sees.1).types type (by simp [kind, DeclKind.declaredTypes])
    have same : session.lookupContext inner = session.lookupContext id :=
      (lookupContext_of_plain (by rw [kind]; rfl)).trans sees.2
    exact same ▸ needed.touches confined (typeVisible_lookupContext own)
  · exact ⟨inner, ⟨sees.1, .inr sees.2⟩, earlier.1⟩
  · exact needed.touches confined sees

end Needs

section Closures

variable {requested : List String} {closure : Closure} (consistent : session.program.Consistent)
  (confined : ∀ id : Nat, id < session.program.decls.size → session.program.Confined id)
  (found : session.closure requested = .ok closure)
include consistent found

theorem ledTo_of_outer {function member : DeclId} (marked : member ∈ closure.decls)
    (inner : (session.program.decl member).context = some function)
    (outer : ∃ outer ∈ session.program.redecls member, outer ≤ member ∧ (session.program.decl outer).context = none) :
    session.LedTo closure function member := by
  obtain ⟨outer, listed, below, none⟩ := outer
  refine ⟨member, ⟨marked, inner, outer, earlier_marked consistent found marked listed below, listed, ?_, ?_⟩, .refl⟩
  · refine Nat.lt_of_le_of_ne below fun same => ?_
    rw [same, inner] at none
    cases none
  · rw [Decl.isFileScope, none]
    rfl

include confined

theorem ledTo_of_touches {function member : DeclId} (marked : member ∈ closure.decls)
    (inner : (session.program.decl member).context = some function) (touches : session.program.Touches none member) :
    session.LedTo closure function member := by
  rcases touches.outer_or_eq confined consistent inner with outer | none
  · exact ledTo_of_outer consistent found marked inner outer
  · cases none

/-- What a marked declaration needs inside a function is accounted for when the declaration is. -/
theorem enclosing_step {function id member : DeclId} (marked : id ∈ closure.decls)
    (memberMarked : member ∈ closure.decls)
    (accounted : ∀ function, (session.program.decl id).context = some function →
      function ∈ closure.decls ∨ session.LedTo closure function id)
    (needed : session.DeclNeeds id member ∨ session.BodyNeeds id member)
    (inner : (session.program.decl member).context = some function) :
    function ∈ closure.decls ∨ session.LedTo closure function member := by
  have known := closure_lt consistent found marked
  have touches : session.program.Touches (session.lookupContext id) member :=
    needed.elim (DeclNeeds.touches confined known) (BodyNeeds.touches confined known)
  rcases touches.outer_or_eq confined consistent inner with outer | own
  · exact .inr (ledTo_of_outer consistent found memberMarked inner outer)
  · rcases session.lookupContext_eq id with same | ⟨-, same⟩
    · refine (accounted function (same.symm.trans own)).imp_right fun ⟨first, redeclares, leads⟩ => ?_
      exact ⟨first, redeclares, leads.tail ⟨inner, needed⟩⟩
    · cases own.symm.trans same
      exact .inl marked

end Closures

/-- With a declaration inside a function the function is marked, unless a declaration in the function that redeclares
something of the file leads to it. -/
theorem enclosing_marked_or_ledTo (read : session.IsRead) {requested : List String} {closure : Closure}
    (found : session.closure requested = .ok closure) {id function : DeclId} (marked : id ∈ closure.decls)
    (inner : (session.program.decl id).context = some function) :
    function ∈ closure.decls ∨ session.LedTo closure function id := by
  have consistent := read.consistent
  have confined : ∀ id : Nat, id < session.program.decls.size → session.program.Confined id := by
    obtain ⟨files, search, path, document, same⟩ := read
    rw [same]
    exact fun _ => (Program.ofDocument_opened files search path document).confined
  have obeys := closure_obeys consistent found
  -- The declarations that are accounted for obey the rules, so they are all that is marked.
  have kept : session.Obeys requested
      { id | id ∈ closure.decls ∧ ∀ function, (session.program.decl id).context = some function →
        function ∈ closure.decls ∨ session.LedTo closure function id }
      { directive | directive ∈ closure.macros } := by
    refine ⟨fun name asked chain own last representative member present below => ?_, fun id facts member needed => ?_,
      fun id facts plain member needed => ?_, fun id facts => obeys.uses id facts.1,
      fun directive present expanded member needed => ?_⟩
    · have memberMarked := obeys.requests name asked chain own last representative member present below
      refine ⟨memberMarked,
        fun function inner => .inr (ledTo_of_touches consistent confined found memberMarked inner ?_)⟩
      obtain ⟨named, listed, rfl⟩ := List.mem_map.mp (List.mem_eraseDups.mp own)
      exact ⟨named, Program.visible_of_fileScope (List.mem_filter.mp listed).1, present⟩
    · have memberMarked := obeys.declarations id facts.1 member needed
      exact ⟨memberMarked,
        fun function => enclosing_step consistent confined found facts.1 memberMarked facts.2 (.inl needed)⟩
    · have memberMarked := obeys.bodies id facts.1 plain member needed
      exact ⟨memberMarked,
        fun function => enclosing_step consistent confined found facts.1 memberMarked facts.2 (.inr needed)⟩
    · have memberMarked := obeys.replacements directive present expanded member needed
      refine ⟨memberMarked,
        fun function inner => .inr (ledTo_of_touches consistent confined found memberMarked inner ?_)⟩
      obtain ⟨name, -, constant, listed, owner, owned, last, -, joined, -⟩ := needed
      have visible := visible_owner confined owned
      rw [or_self_iff.mp (Program.visible_of_fileScope listed).context] at visible
      exact ⟨owner, visible, joined⟩
  exact ((closure_subset consistent found kept).1 id marked).2 function inner

def sharedVariable : Session :=
  ({} : Config).session (.ofDocument ⟨[], []⟩ ⟨[]⟩ "unit.c"
    (Written.document
      [("", .object "x"),
        ("\n", .function "g" (.blockValue "parenthesized_expression" (.storedObject "extern" "x") (.reference "x"))),
        ("\n", .function "f" (.reference "x"))]))

def sharedVariableClosure : Closure :=
  { roots := [3], decls := [0, 2, 3], macros := [], needsUndef := [], renames := [], passSizes := [3] }

set_option maxRecDepth 10000 in
theorem enclosing_sharedVariable : sharedVariable.closure ["f"] = .ok sharedVariableClosure ∧
    2 ∈ sharedVariableClosure.decls ∧ (sharedVariable.program.decl 2).context = some 1 ∧
    sharedVariable.LedTo sharedVariableClosure 1 2 := by
  have facts : sharedVariable.closure ["f"] = .ok sharedVariableClosure ∧
      (sharedVariable.program.decl 2).context = some 1 := by
    decide +kernel
  obtain ⟨found, inner⟩ := facts
  have accounted :=
    enclosing_marked_or_ledTo ⟨_, _, _, _, rfl⟩ found (by decide : 2 ∈ sharedVariableClosure.decls) inner
  exact ⟨found, by decide, inner, accounted.resolve_left (by decide)⟩

set_option maxRecDepth 10000 in
/-- The declaration in the block is marked, though its function is not. -/
theorem unmarked_function_of_marked : sharedVariable.closure ["f"] = .ok sharedVariableClosure ∧
    ¬ ∀ id ∈ sharedVariableClosure.decls, ∀ function, (sharedVariable.program.decl id).context = some function →
      function ∈ sharedVariableClosure.decls := by
  have facts : sharedVariable.closure ["f"] = .ok sharedVariableClosure ∧
      (sharedVariable.program.decl 2).context = some 1 := by
    decide +kernel
  refine ⟨facts.1, fun enclosed => ?_⟩
  have marked := enclosed 2 (by decide) 1 facts.2
  revert marked
  decide

end Session

end Excerpt
