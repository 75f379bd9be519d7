import Excerpt.Proofs.Closure.Saturation
import Excerpt.Proofs.Draft.Consistency

/-!
What marking a declaration or a directive means, as rules about sets. The rules name what is needed and not how it is
found. Each is shown to agree with the list that the marking goes through.
-/

namespace Excerpt

namespace Session

variable (session : Session)

def IsRead : Prop :=
  ∃ files search path document, session.program = Program.ofDocument files search path document

/-- Marking `id` marks `member`: the representative of its chain, `id` itself, or a declaration of the chain before one
of the two. -/
def MarkedWith (id member : DeclId) : Prop :=
  ∃ last, (last = id ∨ session.program.representative? (session.program.decl id).chain = some last) ∧
    member ∈ session.program.redecls id ∧ member ≤ last

/-- A type by itself names an entity: its declaration, or the enumeration from which an array size may come. -/
inductive TypeNames (context : Option DeclId) : CType → DeclId → Prop
  | record (decl : DeclId) : TypeNames context (.record decl) decl
  | enumeration (decl : DeclId) : TypeNames context (.enumeration decl) decl
  | typedef (decl : DeclId) : TypeNames context (.typedef decl) decl
  | arraySize {element : TypeId} {value : Int64} {constant owner : DeclId}
      (found : session.program.enumConstant? value context = some constant)
      (owned : session.owner? constant = some owner) :
      TypeNames context (.array element (some value)) owner

def TypeNeeds (context : Option DeclId) (type : TypeId) (member : DeclId) : Prop :=
  ∃ part named, Relation.ReflTransGen session.program.HasPart type part ∧
    session.TypeNames context (session.program.type part) named ∧ session.MarkedWith named member

inductive DeclNeeds (id member : DeclId) : Prop
  | type {type : TypeId} (declared : type ∈ (session.program.decl id).kind.declaredTypes)
      (needed : session.TypeNeeds (session.lookupContext id) type member)
  | constant {constants : List DeclId} {complete : Bool} {constant : DeclId}
      (kind : (session.program.decl id).kind = .enumeration constants complete) (listed : constant ∈ constants)
      (marked : session.MarkedWith constant member)
  | owner {value : Int64} {owner : DeclId} {init : Option Stmt}
      (kind : (session.program.decl id).kind = .enumConstant value owner init)
      (marked : session.MarkedWith owner member)

inductive NodeNeeds (id : DeclId) : StmtKind → DeclId → Prop
  | reference {named member : DeclId} {spelled : Bool}
      (shared : ∃ other ∈ session.program.redecls named, (session.program.decl other).isFileScope = true)
      (marked : session.MarkedWith named member) : NodeNeeds id (.declRef named spelled) member
  | variable {inner member : DeclId} {type : TypeId} {init : Option Stmt}
      (kind : (session.program.decl inner).kind = .var type init)
      (needed : session.TypeNeeds (session.lookupContext inner) type member) : NodeNeeds id (.localDecl inner) member
  | declaration {inner member : DeclId} (kind : (session.program.decl inner).kind.isVar = false)
      (earlier : member ∈ session.program.redecls inner ∧ member ≤ inner) : NodeNeeds id (.localDecl inner) member
  | type {type : TypeId} {member : DeclId} (needed : session.TypeNeeds (session.lookupContext id) type member) :
      NodeNeeds id (.typeRef type) member

def BodyNeeds (id member : DeclId) : Prop :=
  ∃ body stmt, (session.program.decl id).kind.body? = some body ∧
    Relation.ReflTransGen session.program.StmtStep body stmt ∧ session.NodeNeeds id stmt.kind member

/-- The replacement of a directive names a constant whose enumeration marks `member`. -/
def ReplacementNeeds (directive : MacroId) (member : DeclId) : Prop :=
  ∃ name ∈ (session.program.directive directive).names, ∃ constant ∈ session.program.fileScope name,
    ∃ owner, session.owner? constant = some owner ∧ session.MarkedWith owner member

/-- Expanding `name` at `pos` uses the directive: it is visible there under the name or under a name that the
replacements met so far hold. -/
def Expands (name : String) (pos : SourcePos) (directive : MacroId) : Prop :=
  Leads (fun name => session.program.visibleDefinition? name pos) (fun id => (session.program.directive id).names) name
    directive

def isRequested (requested : List String) (chain : ChainId) : Bool :=
  requested.any fun name => (session.program.functionChains name).contains chain

/-- The symbol is reached through a pointer: it is not requested, lies in expanded text and may become a pointer. -/
def isExternalized (requested : List String) (id : DeclId) : Bool :=
  !session.isRequested requested (session.program.decl id).chain && session.isDeclExpanded id &&
    (session.program.rename? session.policy id).isSome

/-- Where the search for macro uses ends: behind the declarator of a symbol that becomes a pointer, else behind the
declaration. -/
def scanStop (requested : List String) (id : DeclId) : Nat :=
  let decl := session.program.decl id
  if session.isExternalized requested id then (decl.declarator.map (·.bare.stop)).getD decl.span.stop
  else decl.span.stop

def scannedUses (requested : List String) (id : DeclId) : List MacroUse :=
  let decl := session.program.decl id
  session.program.usesBetween ⟨decl.item, decl.span.start⟩ ⟨decl.item, session.scanStop requested id⟩

structure Obeys (requested : List String) (decls : Set DeclId) (macros : Set MacroId) : Prop where
  requests : ∀ name ∈ requested, ∀ chain ∈ session.program.functionChains name, ∀ last,
    session.program.representative? chain = some last → ∀ member ∈ session.program.chain chain, member ≤ last →
      member ∈ decls
  declarations : ∀ id ∈ decls, ∀ member, session.DeclNeeds id member → member ∈ decls
  bodies : ∀ id ∈ decls, session.isExternalized requested id = false → ∀ member, session.BodyNeeds id member →
    member ∈ decls
  uses : ∀ id ∈ decls, ∀ occurrence ∈ session.scannedUses requested id, ∀ directive,
    session.Expands occurrence.name occurrence.pos directive → directive ∈ macros
  replacements : ∀ directive ∈ macros, session.isMacroExpanded directive = true →
    ∀ member, session.ReplacementNeeds directive member → member ∈ decls

end Session

theorem Session.IsRead.consistent {session : Session} (read : session.IsRead) : session.program.Consistent := by
  obtain ⟨files, search, path, document, same⟩ := read
  exact same ▸ Program.ofDocument_consistent files search path document

namespace Program.Consistent

variable {program : Program} (consistent : program.Consistent)
include consistent

theorem chainsInside : program.ChainsInside :=
  fun chain id member => ((consistent.chains chain id).mp member).1

theorem chain_of_mem {chain : ChainId} {id : DeclId} (member : id ∈ program.chain chain) :
    (program.decl id).chain = chain :=
  ((consistent.chains chain id).mp member).2

end Program.Consistent

theorem Program.representative_mem {program : Program} {chain : ChainId} {id : DeclId}
    (found : program.representative? chain = some id) : id ∈ program.chain chain := by
  unfold Program.representative? at found
  cases defined : (program.chain chain).find? fun member => (program.decl member).kind.isDefinition with
  | none =>
    simp only [defined, Option.none_or] at found
    exact List.mem_of_getLast? found
  | some definition =>
    simp only [defined, Option.some_or, Option.some.injEq] at found
    exact found ▸ List.mem_of_find?_eq_some defined

theorem Program.representative_eq_none {program : Program} {chain : ChainId}
    (missing : program.representative? chain = none) : program.chain chain = [] := by
  unfold Program.representative? at missing
  exact List.getLast?_eq_none_iff.mp (Option.or_eq_none_iff.mp missing).2

namespace Session

variable {session : Session} {requested : List String}

section Lists

variable (consistent : session.program.Consistent) {id member : DeclId}
include consistent

theorem mem_upTo : member ∈ session.upTo id ↔ member ∈ session.program.redecls id ∧ member ≤ id := by
  have cut : (session.program.redecls id).Pairwise fun first second =>
      decide (second ≤ id) = true → decide (first ≤ id) = true :=
    (consistent.ascending _).imp fun less => by simpa using fun below => Nat.le_trans (Nat.le_of_lt less) below
  rw [upTo, takeWhile_eq_filter cut, List.mem_filter, decide_eq_true_eq]

/-- An entity is marked up to its definition, or up to the declaration at hand if that comes later. -/
theorem mem_entity : member ∈ session.entity id ↔ session.MarkedWith id member := by
  unfold entity MarkedWith
  cases found : session.program.representative? (session.program.decl id).chain with
  | none => simp [Program.redecls, Program.representative_eq_none found]
  | some representative =>
    have same : session.program.redecls representative = session.program.redecls id := by
      rw [Program.redecls, consistent.chain_of_mem (Program.representative_mem found), ← Program.redecls]
    have mem_rest : member ∈ (if representative < id then session.upTo id else []) ↔
        representative < id ∧ member ∈ session.program.redecls id ∧ member ≤ id := by
      split_ifs with less <;> simp [less, mem_upTo consistent]
    simp only [List.mem_append, mem_upTo consistent, mem_rest, same, Option.some.injEq]
    constructor
    · rintro (⟨present, before⟩ | ⟨-, present, before⟩)
      · exact ⟨representative, .inr rfl, present, before⟩
      · exact ⟨id, .inl rfl, present, before⟩
    · rintro ⟨last, rfl | rfl, present, before⟩
      · by_cases less : representative < last
        · exact .inr ⟨less, present, before⟩
        · exact .inl ⟨present, Nat.le_trans before (Nat.le_of_not_lt less)⟩
      · exact .inl ⟨present, before⟩

/-- An enum constant is never redeclared, so it is an entity by itself. -/
theorem mem_upTo_of_constant (constant : (session.program.decl id).kind.isEnumConstant = true) :
    member ∈ session.upTo id ↔ session.MarkedWith id member := by
  rw [← mem_entity consistent]
  have alone := consistent.alone id constant
  have representative : session.program.representative? (session.program.decl id).chain = some id := by
    cases found : session.program.representative? (session.program.decl id).chain with
    | none =>
      rw [Program.redecls, Program.representative_eq_none found] at alone
      cases alone
    | some other =>
      have present : other ∈ session.program.redecls id := Program.representative_mem found
      rw [alone, List.mem_singleton] at present
      rw [present]
  simp [entity, representative]

theorem mem_typeNodeDecls {context : Option DeclId} {type : CType} :
    member ∈ session.typeNodeDecls context type ↔
      ∃ named, session.TypeNames context type named ∧ session.MarkedWith named member := by
  constructor
  · intro needed
    unfold typeNodeDecls at needed
    split at needed
    · unfold arraySizeDecls at needed
      split at needed
      · next owned =>
        obtain ⟨constant, found, owned⟩ := Option.bind_eq_some_iff.mp owned
        exact ⟨_, .arraySize found owned, (mem_entity consistent).mp needed⟩
      · cases needed
    · exact ⟨_, .record _, (mem_entity consistent).mp needed⟩
    · exact ⟨_, .enumeration _, (mem_entity consistent).mp needed⟩
    · exact ⟨_, .typedef _, (mem_entity consistent).mp needed⟩
    · cases needed
  · rintro ⟨named, names, marked⟩
    have needed := (mem_entity consistent).mpr marked
    cases names with
    | record => exact needed
    | enumeration => exact needed
    | typedef => exact needed
    | arraySize found owned => simpa [typeNodeDecls, arraySizeDecls, found, owned] using needed

theorem mem_typeDecls {context : Option DeclId} {type : TypeId} :
    member ∈ session.typeDecls type context ↔ session.TypeNeeds context type member := by
  simp only [typeDecls, List.mem_flatMap, Program.mem_components_iff, mem_typeNodeDecls consistent, TypeNeeds]
  constructor
  · rintro ⟨part, inside, named, names, marked⟩
    exact ⟨part, named, inside, names, marked⟩
  · rintro ⟨part, named, inside, names, marked⟩
    exact ⟨part, inside, named, names, marked⟩

theorem mem_declDecls : member ∈ session.declDecls id ↔ session.DeclNeeds id member := by
  have types : session.DeclNeeds id member ↔
      (∃ type ∈ (session.program.decl id).kind.declaredTypes,
        member ∈ session.typeDecls type (session.lookupContext id)) ∨
      (∃ constants complete, (session.program.decl id).kind = .enumeration constants complete ∧
        ∃ constant ∈ constants, member ∈ session.upTo constant) ∨
      ∃ value owner init, (session.program.decl id).kind = .enumConstant value owner init ∧
        member ∈ session.entity owner := by
    constructor
    · rintro (⟨declared, needed⟩ | ⟨kind, listed, marked⟩ | ⟨kind, marked⟩)
      · exact .inl ⟨_, declared, (mem_typeDecls consistent).mpr needed⟩
      · have constant := consistent.constants id _ _ kind _ listed
        exact .inr (.inl ⟨_, _, kind, _, listed, (mem_upTo_of_constant consistent constant).mpr marked⟩)
      · exact .inr (.inr ⟨_, _, _, kind, (mem_entity consistent).mpr marked⟩)
    · rintro (⟨type, declared, needed⟩ | ⟨constants, complete, kind, constant, listed, needed⟩ |
        ⟨value, owner, init, kind, needed⟩)
      · exact .type declared ((mem_typeDecls consistent).mp needed)
      · have isConstant := consistent.constants id _ _ kind _ listed
        exact .constant kind listed ((mem_upTo_of_constant consistent isConstant).mp needed)
      · exact .owner kind ((mem_entity consistent).mp needed)
  rw [types, declDecls]
  cases (session.program.decl id).kind <;> simp [DeclKind.declaredTypes]

theorem mem_nodeDecls {kind : StmtKind} : member ∈ session.nodeDecls id kind ↔ session.NodeNeeds id kind member := by
  constructor
  · intro needed
    unfold nodeDecls at needed
    split at needed
    · split at needed
      · next shared =>
        exact .reference (List.any_eq_true.mp shared) ((mem_entity consistent).mp needed)
      · cases needed
    · split at needed
      · next kind => exact .variable kind ((mem_typeDecls consistent).mp needed)
      · next other =>
        refine .declaration ?_ ((mem_upTo consistent).mp needed)
        cases kind : (session.program.decl _).kind with
        | var type init => exact absurd kind (other type init)
        | _ => rfl
    · exact .type ((mem_typeDecls consistent).mp needed)
    · cases needed
  · rintro (⟨shared, marked⟩ | ⟨kind, needed⟩ | ⟨kind, earlier⟩ | ⟨needed⟩)
    · rw [nodeDecls, if_pos (List.any_eq_true.mpr shared)]
      exact (mem_entity consistent).mpr marked
    · simp only [nodeDecls, kind]
      exact (mem_typeDecls consistent).mpr needed
    · simp only [nodeDecls]
      split
      · next var => rw [var] at kind; cases kind
      · exact (mem_upTo consistent).mpr earlier
    · exact (mem_typeDecls consistent).mpr needed

theorem mem_bodyDecls : member ∈ session.bodyDecls id ↔ session.BodyNeeds id member := by
  unfold bodyDecls BodyNeeds
  cases (session.program.decl id).kind.body? with
  | none => simp
  | some body =>
    simp only [List.mem_flatMap, Program.mem_nodes_iff consistent.locals, mem_nodeDecls consistent, Option.some.injEq,
      exists_and_left, exists_eq_left']

theorem mem_macroDecls {directive : MacroId} :
    member ∈ session.macroDecls directive ↔ session.ReplacementNeeds directive member := by
  simp only [macroDecls, List.mem_flatMap, List.mem_filterMap, mem_entity consistent, ReplacementNeeds]
  refine exists_congr fun name => and_congr_right fun _ => ?_
  constructor
  · rintro ⟨owner, ⟨constant, present, owned⟩, marked⟩
    exact ⟨constant, present, owner, owned, marked⟩
  · rintro ⟨constant, present, owner, owned, marked⟩
    exact ⟨owner, ⟨constant, present, owned⟩, marked⟩

end Lists

theorem isExternalized_of_off (off : session.policy.enabled = false) (requested : List String) (id : DeclId) :
    session.isExternalized requested id = false := by
  simp [isExternalized, Program.rename?, off]

theorem expansionFrom_eq_searchFrom (pos : SourcePos) (fuel : Nat) (seen : List MacroId) (stack : List String) :
    session.expansionFrom pos fuel seen stack =
      searchFrom (fun name => session.program.visibleDefinition? name pos)
        (fun id => (session.program.directive id).names) fuel seen stack := by
  induction fuel generalizing seen stack with
  | zero => simp [expansionFrom, searchFrom]
  | succ fuel ih =>
    cases stack with
    | nil => simp [expansionFrom, searchFrom]
    | cons name stack =>
      simp only [expansionFrom, searchFrom]
      cases session.program.visibleDefinition? name pos <;> simp [ih]

theorem names_of_size_le (program : Program) (id : MacroId) (outside : program.macros.size ≤ id) :
    (program.directive id).names = [] := by
  simp only [Program.directive, Array.getD, Nat.not_lt.mpr outside, ↓reduceDIte]
  rfl

theorem unseenKeys_names (program : Program) :
    unseenKeys (fun id => (program.directive id).names) program.macros.size [] =
    (program.macros.toList.flatMap (·.names)).length := by
  rw [List.length_flatMap, sum_weights_eq_sum_range _ _ default, unseenKeys]
  simp [Program.directive, Array.getD_eq_getD_getElem?, List.getD_eq_getElem?_getD]

theorem mem_expansion {name : String} {pos : SourcePos} {directive : MacroId} :
    directive ∈ session.expansion name pos ↔ session.Expands name pos directive := by
  rw [expansion, expansionFrom_eq_searchFrom, mem_searchFrom_iff (names_of_size_le _), Expands]
  rw [unseenKeys_names]

theorem roots_of_mapM {roots : List DeclId} (found : requested.mapM session.root = .ok roots) :
    (∀ name ∈ requested, ∃ root ∈ roots, session.root name = .ok root) ∧
      ∀ root ∈ roots, ∃ name ∈ requested, session.root name = .ok root := by
  induction requested generalizing roots with
  | nil =>
    cases found
    simp
  | cons name rest ih =>
    rw [List.mapM_cons] at found
    cases first : session.root name with
    | error error => rw [first] at found; cases found
    | ok root =>
      cases others : rest.mapM session.root with
      | error error => rw [first, others] at found; cases found
      | ok roots =>
        rw [first, others] at found
        cases found
        obtain ⟨resolved, asked⟩ := ih others
        constructor
        · rintro other (_ | ⟨_, member⟩)
          · exact ⟨root, List.mem_cons_self, first⟩
          · obtain ⟨known, present, same⟩ := resolved other member
            exact ⟨known, List.mem_cons_of_mem _ present, same⟩
        · rintro known (_ | ⟨_, member⟩)
          · exact ⟨name, List.mem_cons_self, first⟩
          · obtain ⟨other, present, same⟩ := asked known member
            exact ⟨other, List.mem_cons_of_mem _ present, same⟩

theorem root_eq_ok {name : String} {root : DeclId} (found : session.root name = .ok root) :
    ∃ chain, session.program.functionChains name = [chain] ∧ session.program.representative? chain = some root := by
  unfold Session.root at found
  split at found
  · split at found <;> cases found
  · next chain chains =>
    refine ⟨chain, chains, ?_⟩
    split at found
    · next representative =>
      cases found
      exact representative
    · cases found
  · cases found

theorem closure_eq_ok {closure : Closure} (found : session.closure requested = .ok closure) :
    ∃ roots, requested.mapM session.root = .ok roots ∧ closure = session.closureOf roots := by
  unfold Session.closure at found
  cases resolved : requested.mapM session.root with
  | error error => rw [resolved] at found; cases found
  | ok roots =>
    rw [resolved] at found
    cases found
    exact ⟨roots, rfl, rfl⟩

theorem needsUndef_eq {closure : Closure} (found : session.closure requested = .ok closure) :
    closure.needsUndef = closure.macros.filter session.isReplaced := by
  obtain ⟨roots, -, rfl⟩ := closure_eq_ok found
  rfl

section Roots

variable (consistent : session.program.Consistent) {roots : List DeclId}
  (found : requested.mapM session.root = .ok roots)
include consistent found

omit consistent in
theorem mem_roots {root : DeclId} : root ∈ roots ↔
    ∃ name ∈ requested, ∃ chain ∈ session.program.functionChains name,
      session.program.representative? chain = some root := by
  obtain ⟨resolved, asked⟩ := roots_of_mapM found
  constructor
  · intro member
    obtain ⟨name, present, resolved⟩ := asked root member
    obtain ⟨chain, only, representative⟩ := root_eq_ok resolved
    exact ⟨name, present, chain, only ▸ List.mem_singleton_self chain, representative⟩
  · rintro ⟨name, present, chain, listed, representative⟩
    obtain ⟨known, member, same⟩ := resolved name present
    obtain ⟨only, chains, others⟩ := root_eq_ok same
    rw [chains, List.mem_singleton] at listed
    rw [listed, others, Option.some.injEq] at representative
    exact representative ▸ member

theorem mem_chainsOf {chain : ChainId} :
    chain ∈ session.chainsOf roots ↔ session.isRequested requested chain = true := by
  simp only [chainsOf, List.mem_map, isRequested, List.any_eq_true, List.contains_iff_mem]
  constructor
  · rintro ⟨root, member, rfl⟩
    obtain ⟨name, present, chain, listed, representative⟩ := (mem_roots found).mp member
    rw [consistent.chain_of_mem (Program.representative_mem representative)]
    exact ⟨name, present, listed⟩
  · rintro ⟨name, present, listed⟩
    obtain ⟨root, member, resolved⟩ := (roots_of_mapM found).1 name present
    obtain ⟨only, chains, representative⟩ := root_eq_ok resolved
    rw [chains, List.mem_singleton] at listed
    exact ⟨root, member, listed ▸ consistent.chain_of_mem (Program.representative_mem representative)⟩

theorem renameOf_isSome (id : DeclId) :
    (session.renameOf? (session.chainsOf roots) id).isSome = session.isExternalized requested id := by
  have asked : (session.chainsOf roots).contains (session.program.decl id).chain =
      session.isRequested requested (session.program.decl id).chain := by
    rw [Bool.eq_iff_iff, List.contains_iff_mem, mem_chainsOf consistent found]
  unfold renameOf? isExternalized
  rw [asked]
  cases session.isRequested requested (session.program.decl id).chain <;>
    cases session.isDeclExpanded id <;> simp

theorem needsBody_iff (id : DeclId) : session.needsBody (session.chainsOf roots) id = true ↔
    (session.program.decl id).kind.body?.isSome = true ∧ session.isExternalized requested id = false := by
  rw [← renameOf_isSome consistent found]
  unfold needsBody
  cases kind : (session.program.decl id).kind with
  | enumConstant value owner init =>
    have plain : session.renameOf? (session.chainsOf roots) id = none := by
      simp [renameOf?, Program.rename?, Program.symbolKind?, kind]
    simp [DeclKind.body?, plain]
  | _ => simp [DeclKind.body?]

theorem declMacros_eq (id : DeclId) : session.declMacros (session.chainsOf roots) id =
    (session.scannedUses requested id).flatMap fun occurrence => session.expansion occurrence.name occurrence.pos := by
  have external := renameOf_isSome consistent found id
  unfold declMacros scannedUses scanStop macrosBetween
  rw [← external]
  dsimp only
  cases session.renameOf? (session.chainsOf roots) id <;> cases (session.program.decl id).declarator <;> rfl

/-- A pair of sets is closed under the lists and holds the roots exactly when it obeys the rules. -/
theorem closed_iff_obeys {decls : Set DeclId} {macros : Set MacroId} :
    (session.Closed (session.chainsOf roots) decls macros ∧ ∀ root ∈ roots, ∀ id ∈ session.upTo root, id ∈ decls) ↔
      session.Obeys requested decls macros := by
  constructor
  · rintro ⟨closed, asked⟩
    refine ⟨fun name present chain listed last representative member inside before => ?_,
      fun id present member needed => ?_,
      fun id present plain member needed => ?_, fun id present occurrence scanned directive expands => ?_,
      fun directive present expanded member needed => ?_⟩
    · refine asked last ((mem_roots found).mpr ⟨name, present, chain, listed, representative⟩) member ?_
      refine (mem_upTo consistent).mpr ⟨?_, before⟩
      rwa [Program.redecls, consistent.chain_of_mem (Program.representative_mem representative)]
    · exact closed.needs id present member ((mem_declDecls consistent).mpr needed)
    · have hasBody : (session.program.decl id).kind.body?.isSome = true := by
        obtain ⟨body, stmt, found, -⟩ := needed
        rw [found]
        rfl
      exact closed.body id present ((needsBody_iff consistent found id).mpr ⟨hasBody, plain⟩) member
        ((mem_bodyDecls consistent).mpr needed)
    · refine closed.uses id present directive ?_
      rw [declMacros_eq consistent found]
      exact List.mem_flatMap.mpr ⟨occurrence, scanned, mem_expansion.mpr expands⟩
    · exact closed.enums directive present expanded member ((mem_macroDecls consistent).mpr needed)
  · rintro obeys
    refine ⟨⟨fun id present member needed => ?_, fun id present walked member needed => ?_,
      fun id present directive used => ?_, fun directive present expanded member needed => ?_⟩,
      fun root asked member earlier => ?_⟩
    · exact obeys.declarations id present member ((mem_declDecls consistent).mp needed)
    · exact obeys.bodies id present ((needsBody_iff consistent found id).mp walked).2 member
        ((mem_bodyDecls consistent).mp needed)
    · rw [declMacros_eq consistent found] at used
      obtain ⟨occurrence, scanned, expands⟩ := List.mem_flatMap.mp used
      exact obeys.uses id present occurrence scanned directive (mem_expansion.mp expands)
    · exact obeys.replacements directive present expanded member ((mem_macroDecls consistent).mp needed)
    · obtain ⟨name, present, chain, listed, representative⟩ := (mem_roots found).mp asked
      obtain ⟨inside, before⟩ := (mem_upTo consistent).mp earlier
      rw [Program.redecls, consistent.chain_of_mem (Program.representative_mem representative)] at inside
      exact obeys.requests name present chain listed root representative member inside before

end Roots

section Closures

variable {closure : Closure} (consistent : session.program.Consistent) (found : session.closure requested = .ok closure)
include consistent found

theorem closure_obeys : session.Obeys requested { id | id ∈ closure.decls } { id | id ∈ closure.macros } := by
  obtain ⟨roots, resolved, rfl⟩ := closure_eq_ok found
  apply (closed_iff_obeys consistent resolved).mp
  exact ⟨closureOf_closed consistent.chainsInside, fun root asked id => requested_mem_closureOf asked⟩

theorem closure_subset {decls : Set DeclId} {macros : Set MacroId} (obeys : session.Obeys requested decls macros) :
    (∀ id ∈ closure.decls, id ∈ decls) ∧ ∀ id ∈ closure.macros, id ∈ macros := by
  obtain ⟨roots, resolved, rfl⟩ := closure_eq_ok found
  obtain ⟨closed, asked⟩ := (closed_iff_obeys consistent resolved).mpr obeys
  exact closureOf_least closed asked

end Closures

end Session

end Excerpt
