import Excerpt.Closure.Memo
import Excerpt.Proofs.Closure.Rules

/-!
What was met before needs nothing that is not marked, so the marking that remembers is, loop by loop, the one that does
not.
-/

namespace Excerpt

theorem Marking.markAll_append (marking : Marking) (first second : List DeclId) :
    marking.markAll (first ++ second) = (marking.markAll first).markAll second :=
  List.foldl_append

/-- Leaving out values whose needs are marked changes nothing, since marking again has no effect. -/
theorem Marking.markAll_filter {α : Type} {marking : Marking} {needs : α → List DeclId} {keep : α → Bool}
    {values : List α} (marked : ∀ value ∈ values, keep value = false → ∀ id ∈ needs value, id ∈ marking.decls) :
    marking.markAll ((values.filter keep).flatMap needs) = marking.markAll (values.flatMap needs) := by
  induction values generalizing marking with
  | nil => rfl
  | cons value rest ih =>
    obtain ⟨here, others⟩ := List.forall_mem_cons.mp marked
    rw [List.flatMap_cons, markAll_append]
    cases kept : keep value with
    | false => rw [List.filter_cons_of_neg (by simp [kept]), markAll_of_marked (here kept), ih others]
    | true =>
      rw [List.filter_cons_of_pos kept, List.flatMap_cons, markAll_append]
      exact ih fun other member gone id needed => mem_markAll.mpr (.inr (others other member gone id needed))

theorem IdSet.insertAll_filter {set : IdSet} (ascending : set.Ascending) {keep : Nat → Bool} {numbers : List Nat}
    (known : ∀ n ∈ numbers, keep n = false → n ∈ set) :
    set.insertAll (numbers.filter keep) = set.insertAll numbers := by
  refine eq_of_ascending (ascending.insertAll _) (ascending.insertAll _) fun n => ?_
  rw [mem_insertAll, mem_insertAll, List.mem_filter]
  refine ⟨fun either => either.imp_right (·.1), fun either => ?_⟩
  rcases either with old | member
  · exact .inl old
  · cases kept : keep n with
    | false => exact .inl (known n member kept)
    | true => exact .inr ⟨member, rfl⟩

namespace Session

variable {session : Session} {rootChains : List ChainId}

def needed (session : Session) : Need → List DeclId
  | .decls ids => ids
  | .type id context => session.typeDecls id context

theorem declDecls_eq_needed (id : DeclId) : session.declDecls id = (session.declNeeds id).flatMap session.needed := by
  unfold declDecls declNeeds
  dsimp only
  cases (session.program.decl id).kind <;> simp [needed, List.flatMap_map]

theorem nodeDecls_eq_needed (id : DeclId) (kind : StmtKind) :
    session.nodeDecls id kind = (session.nodeNeeds id kind).flatMap session.needed := by
  cases kind with
  | localDecl decl =>
    simp only [nodeDecls, nodeNeeds]
    cases (session.program.decl decl).kind <;> simp [needed]
  | _ => simp [nodeNeeds, needed, nodeDecls]

theorem bodyDecls_eq_needed (id : DeclId) : session.bodyDecls id = (session.bodyNeeds id).flatMap session.needed := by
  unfold bodyDecls bodyNeeds
  cases (session.program.decl id).kind.body? with
  | none => rfl
  | some body => simp only [nodeDecls_eq_needed, List.flatMap_assoc]

theorem declMacros_eq_uses (id : DeclId) : session.declMacros rootChains id =
    (session.declUses rootChains id).flatMap fun occurrence => session.expansion occurrence.name occurrence.pos := rfl

end Session

/-- The marking of a memory is the given one, and the memory is closed in it. -/
structure Memo.Mirrors (session : Session) (memo : Memo) (marking : Marking) : Prop where
  same : memo.marking = marking
  ascending : marking.macros.Ascending
  types : ∀ type context, (type, context) ∈ memo.types →
    (∀ part ∈ (session.program.type type).parts, (part, context) ∈ memo.types) ∧
      ∀ id ∈ session.typeNodeDecls context (session.program.type type), id ∈ marking.decls
  expansions : ∀ id pos, (id, pos) ∈ memo.expansions → id ∈ marking.macros ∧
    ∀ name ∈ (session.program.directive id).names, ∀ other, session.program.visibleDefinition? name pos = some other →
      (other, pos) ∈ memo.expansions
  walked : ∀ id ∈ memo.walked, ∀ other ∈ session.bodyDecls id, other ∈ marking.decls

theorem Memo.mem_knownTypes {memo : Memo} {type : TypeId} {context : Option DeclId} :
    type ∈ memo.knownTypes context ↔ (type, context) ∈ memo.types := by
  simp [knownTypes]

theorem Memo.mem_knownMacros {memo : Memo} {id : MacroId} {pos : SourcePos} :
    id ∈ memo.knownMacros pos ↔ (id, pos) ∈ memo.expansions := by
  simp [knownMacros]

theorem Memo.mem_remembered {γ : Type} {known : List (Nat × γ)} {fresh : List Nat} {context : γ} {id : Nat}
    (met : (id, context) ∈ known ∨ id ∈ fresh) : (id, context) ∈ fresh.map (·, context) ++ known := by
  rcases met with old | new
  · exact List.mem_append_right _ old
  · exact List.mem_append_left _ (List.mem_map_of_mem new)

namespace Memo.Mirrors

variable {session : Session} {rootChains : List ChainId} {memo : Memo} {marking : Marking}
  (mirrors : Mirrors session memo marking)
include mirrors

/-- A memory stays closed while its marking grows. -/
theorem grow {later : Marking} (ascending : later.macros.Ascending)
    (decls : ∀ id ∈ marking.decls, id ∈ later.decls) (macros : ∀ id ∈ marking.macros, id ∈ later.macros) :
    Mirrors session { memo with marking := later } later where
  same := rfl
  ascending := ascending
  types type context met := by
    obtain ⟨parts, marked⟩ := mirrors.types type context met
    exact ⟨parts, fun id needed => decls id (marked id needed)⟩
  expansions id pos met := by
    obtain ⟨marked, names⟩ := mirrors.expansions id pos met
    exact ⟨macros id marked, names⟩
  walked id met other needed := decls other (mirrors.walked id met other needed)

theorem keep {later : Marking} (decls : later.decls = marking.decls)
    (macros : later.macros = marking.macros) : Mirrors session { memo with marking := later } later :=
  mirrors.grow (macros ▸ mirrors.ascending) (fun _ marked => decls ▸ marked) fun _ marked => macros ▸ marked

theorem markAll (ids : List DeclId) :
    Mirrors session { memo with marking := memo.marking.markAll ids } (marking.markAll ids) := by
  rw [mirrors.same]
  refine mirrors.grow ?_ (fun id member => Marking.mem_markAll.mpr (.inr member)) fun id member => ?_
  · rw [Marking.markAll_macros]
    exact mirrors.ascending
  · rwa [Marking.markAll_macros]

/-- The search lists the parts that were not met, and the parts of these were met before or are among them. -/
theorem freshTypes_eq (id : TypeId) (context : Option DeclId) :
    memo.freshTypes session id context = (session.program.components id).filter (· ∉ memo.knownTypes context) ∧
      ∀ type ∈ memo.freshTypes session id context, ∀ part ∈ (session.program.type type).parts,
        (part, context) ∈ memo.types ∨ part ∈ memo.freshTypes session id context := by
  simp only [freshTypes, Program.components, Program.componentsFrom_eq_searchFrom, ← mem_knownTypes]
  have closed : ∀ via ∈ memo.knownTypes context, ∀ key ∈ (session.program.type via).parts, ∀ other,
      some key = some other → other ∈ memo.knownTypes context := by
    rintro via met key part other ⟨⟩
    exact mem_knownTypes.mpr ((mirrors.types via context (mem_knownTypes.mp met)).1 key part)
  obtain ⟨listed, reached⟩ := searchFrom_known id session.program.parts_of_size_le closed
    (Nat.le_of_eq (by rw [session.program.unseenKeys_parts]))
  exact ⟨listed, fun type new part held => reached type new part held part rfl⟩

/-- Types that were met before are left out; what they need is marked. -/
theorem visitType (id : TypeId) (context : Option DeclId) :
    Mirrors session (memo.visitType session id context) (marking.markAll (session.typeDecls id context)) := by
  obtain ⟨listed, reached⟩ := mirrors.freshTypes_eq id context
  have marks : marking.markAll ((memo.freshTypes session id context).flatMap fun part =>
      session.typeNodeDecls context (session.program.type part)) = marking.markAll (session.typeDecls id context) := by
    rw [listed, Session.typeDecls]
    refine Marking.markAll_filter fun part _ gone => ?_
    exact (mirrors.types part context (mem_knownTypes.mp (by simpa using gone))).2
  have grown := mirrors.markAll ((memo.freshTypes session id context).flatMap fun part =>
    session.typeNodeDecls context (session.program.type part))
  rw [marks] at grown
  refine ⟨grown.same, grown.ascending, fun type other met => ?_, grown.expansions, grown.walked⟩
  rcases List.mem_append.mp met with new | old
  · obtain ⟨type, fresh, same⟩ := List.mem_map.mp new
    cases same
    refine ⟨fun part held => mem_remembered (reached type fresh part held), fun needed member => ?_⟩
    rw [← marks]
    exact Marking.mem_markAll.mpr (.inl (List.mem_flatMap.mpr ⟨type, fresh, member⟩))
  · obtain ⟨parts, marked⟩ := grown.types type other old
    exact ⟨fun part held => List.mem_append_right _ (parts part held), marked⟩

theorem meetAll (needs : List Need) :
    Mirrors session (needs.foldl (meet session) memo) (marking.markAll (needs.flatMap session.needed)) := by
  induction needs generalizing memo marking with
  | nil => exact mirrors
  | cons need rest ih =>
    rw [List.flatMap_cons, Marking.markAll_append]
    cases need with
    | decls ids => exact ih (mirrors.markAll ids)
    | type id context => exact ih (mirrors.visitType id context)

theorem freshMacros_eq (name : String) (pos : SourcePos) :
    memo.freshMacros session name pos = (session.expansion name pos).filter (· ∉ memo.knownMacros pos) ∧
      ∀ id ∈ memo.freshMacros session name pos, ∀ key ∈ (session.program.directive id).names, ∀ other,
        session.program.visibleDefinition? key pos = some other →
          (other, pos) ∈ memo.expansions ∨ other ∈ memo.freshMacros session name pos := by
  simp only [freshMacros, Session.expansion, Session.expansionFrom_eq_searchFrom, ← mem_knownMacros]
  refine searchFrom_known name (Session.names_of_size_le session.program) (fun via met key used other found => ?_)
    (Nat.le_of_eq (by rw [Session.unseenKeys_names]))
  exact mem_knownMacros.mpr ((mirrors.expansions via pos (mem_knownMacros.mp met)).2 key used other found)

/-- Definitions that were followed before are left out; they are marked, and so are those that they use. -/
theorem expand (occurrence : MacroUse) :
    Mirrors session (memo.expand session occurrence)
      { marking with macros := marking.macros.insertAll (session.expansion occurrence.name occurrence.pos) } := by
  obtain ⟨name, pos, span⟩ := occurrence
  obtain ⟨listed, reached⟩ := mirrors.freshMacros_eq name pos
  have inserts : marking.macros.insertAll (memo.freshMacros session name pos) =
      marking.macros.insertAll (session.expansion name pos) := by
    rw [listed]
    refine IdSet.insertAll_filter mirrors.ascending fun id _ gone => ?_
    exact (mirrors.expansions id pos (mem_knownMacros.mp (by simpa using gone))).1
  have wider : ∀ id ∈ marking.macros, id ∈ marking.macros.insertAll (session.expansion name pos) :=
    fun id member => IdSet.mem_insertAll.mpr (.inl member)
  refine ⟨?_, mirrors.ascending.insertAll _, mirrors.types, fun id other met => ?_, mirrors.walked⟩
  · simp only [Memo.expand, mirrors.same, inserts]
  · rcases List.mem_append.mp met with new | old
    · obtain ⟨id, fresh, same⟩ := List.mem_map.mp new
      cases same
      refine ⟨?_, fun key used other found => mem_remembered (reached id fresh key used other found)⟩
      dsimp only
      rw [← inserts]
      exact IdSet.mem_insertAll.mpr (.inr fresh)
    · obtain ⟨marked, names⟩ := mirrors.expansions id other old
      exact ⟨wider id marked, fun key used other found => List.mem_append_right _ (names key used other found)⟩

theorem expandAll (uses : List MacroUse) :
    Mirrors session (uses.foldl (Memo.expand session) memo) { marking with
      macros := marking.macros.insertAll
        (uses.flatMap fun occurrence => session.expansion occurrence.name occurrence.pos) } := by
  induction uses generalizing memo marking with
  | nil => exact mirrors
  | cons occurrence rest ih =>
    have first := ih (mirrors.expand occurrence)
    rw [List.flatMap_cons, IdSet.insertAll, List.foldl_append]
    exact first

theorem process (id : DeclId) :
    Mirrors session (memo.process session rootChains id) (session.process rootChains marking id) := by
  have met := (mirrors.meetAll (session.declNeeds id)).expandAll (session.declUses rootChains id)
  rw [← Session.declDecls_eq_needed, ← @Session.declMacros_eq_uses session rootChains] at met
  unfold Memo.process
  dsimp only
  rw [met.same]
  exact met.keep rfl rfl

theorem drainFor (fuel : Nat) :
    Mirrors session (memo.drainFor session rootChains fuel) (session.drainFor rootChains fuel marking) := by
  induction fuel generalizing memo marking with
  | zero => exact mirrors
  | succ fuel ih =>
    rw [Memo.drainFor, Session.drainFor, mirrors.same]
    cases marking.queue with
    | nil => exact mirrors
    | cons id queue =>
      have popped : Mirrors session { memo with marking := { marking with queue } } { marking with queue } :=
        mirrors.keep rfl rfl
      exact ih (popped.process id)

theorem drain :
    Mirrors session (memo.drain session rootChains) (session.drain rootChains marking) :=
  mirrors.drainFor _

/-- A body that was walked is left out; what it needs is marked. -/
theorem walkBody (id : DeclId) :
    Mirrors session (memo.walkBody session rootChains id) (session.walkBody rootChains marking id) := by
  unfold Memo.walkBody Session.walkBody
  split
  · next again =>
    rw [Marking.markAll_of_marked (mirrors.walked id (List.contains_iff_mem.mp again))]
    exact mirrors.drain
  · have met := mirrors.meetAll (session.bodyNeeds id)
    rw [← Session.bodyDecls_eq_needed] at met
    refine drain ⟨met.same, met.ascending, met.types, met.expansions, ?_⟩
    exact List.forall_mem_cons.mpr ⟨fun other needed => Marking.mem_markAll.mpr (.inl needed), met.walked⟩

theorem walkBodies (ids : List DeclId) :
    Mirrors session (ids.foldl (Memo.walkBody session rootChains) memo)
      (ids.foldl (session.walkBody rootChains) marking) := by
  induction ids generalizing memo marking with
  | nil => exact mirrors
  | cons id rest ih => exact ih (mirrors.walkBody id)

theorem pass :
    Mirrors session (memo.pass session rootChains) (session.pass rootChains marking) := by
  have taken : Mirrors session { memo with marking := { marking with pending := [] } } { marking with pending := [] } :=
    mirrors.keep rfl rfl
  have walked := @walkBodies session rootChains _ _ taken marking.pending
  unfold Memo.pass Session.pass
  dsimp only
  rw [mirrors.same, walked.same]
  exact walked.keep rfl rfl

theorem passesFor (fuel : Nat) :
    Mirrors session (memo.passesFor session rootChains fuel) (session.passesFor rootChains fuel marking) := by
  induction fuel generalizing memo marking with
  | zero => exact mirrors
  | succ fuel ih =>
    rw [Memo.passesFor, Session.passesFor, mirrors.same]
    split
    · exact mirrors
    · exact ih mirrors.pass

theorem settle :
    Mirrors session (memo.settle session rootChains) (session.settle rootChains marking) :=
  mirrors.drain.passesFor _

theorem markMacroEnums :
    Mirrors session (memo.markMacroEnums session rootChains) (session.markMacroEnums rootChains marking) := by
  unfold Memo.markMacroEnums Session.markMacroEnums
  dsimp only
  rw [mirrors.same]
  exact (mirrors.same ▸ mirrors.markAll _).drain

theorem saturateFor (fuel : Nat) :
    Mirrors session (memo.saturateFor session rootChains fuel) (session.saturateFor rootChains fuel marking) := by
  induction fuel generalizing memo marking with
  | zero => exact mirrors
  | succ fuel ih =>
    have settled := @settle session rootChains _ _ mirrors
    have extended := @markMacroEnums session rootChains _ _ settled
    rw [Memo.saturateFor, Session.saturateFor]
    rw [settled.same, extended.same]
    split
    · exact extended
    · exact ih extended

end Memo.Mirrors

/-- The memory changes nothing: a request that remembers what it has met gets the closure that is computed without. -/
theorem Memo.closure_eq (session : Session) (functions : List String) :
    closure session functions = session.closure functions := by
  have same : closureOf session = session.closureOf := by
    funext roots
    have start : Mirrors session { marking := ({} : Marking).markAll (roots.flatMap session.upTo) }
        (({} : Marking).markAll (roots.flatMap session.upTo)) := by
      refine ⟨rfl, ?_, by simp, by simp, by simp⟩
      rw [Marking.markAll_macros]
      exact List.Pairwise.nil
    have ends := @Mirrors.saturateFor session (session.chainsOf roots) _ _ start (session.program.decls.size + 1)
    unfold closureOf Session.closureOf Session.saturate
    dsimp only
    rw [← Session.chainsOf, ends.same]
  rw [closure, Session.closure, same]

end Excerpt
