import Excerpt.Config.Basic
import Excerpt.Extraction
import Excerpt.Proofs.Closure.Rules
import Excerpt.Proofs.Draft.Sorts
import Excerpt.Proofs.Draft.Written

/-!
The order of the requests does not matter: before any body is walked the marking holds a set that the order cannot
change, and all that follows goes by the ascending lists of these sets.
-/

namespace Excerpt

theorem IdSet.Ascending.eq_of_mem_iff {first second : IdSet} (ascending : first.Ascending) (other : second.Ascending)
    (same : ∀ id, id ∈ first ↔ id ∈ second) : first = second :=
  List.Pairwise.eq_of_mem_iff ascending other same

namespace Session

variable {session : Session}

section Sorts

variable (consistent : session.program.Consistent) (sorted : session.program.WellSorted) {id other : DeclId}
include consistent sorted

theorem MarkedWith.sort_ne (marked : session.MarkedWith id other)
    (plain : (session.program.decl id).kind.sort ≠ .symbol) : (session.program.decl other).kind.sort ≠ .symbol := by
  obtain ⟨last, -, member, -⟩ := marked
  obtain ⟨inside, chain⟩ := (consistent.chains _ _).mp member
  rwa [sorted.chains other id inside (Program.lt_size_of_sort rfl plain) chain]

omit consistent in
/-- Types and enum constants never lead to a function or variable. -/
theorem TypeNames.sort_ne {context : Option DeclId} {type : TypeId}
    (names : session.TypeNames context (session.program.type type) id) :
    (session.program.decl id).kind.sort ≠ .symbol := by
  generalize named : session.program.type type = shape at names
  cases names with
  | record | enumeration | typedef => exact sorted.named type _ (by rw [named]; rfl)
  | arraySize found owned =>
    unfold owner? at owned
    split at owned
    · next kind =>
      cases owned
      simp [sorted.owners _ _ _ _ kind]
    · cases owned

theorem DeclNeeds.sort_ne (needed : session.DeclNeeds id other) : (session.program.decl other).kind.sort ≠ .symbol := by
  cases needed with
  | type _ needed =>
    obtain ⟨part, named, -, names, marked⟩ := needed
    exact marked.sort_ne consistent sorted (names.sort_ne sorted)
  | constant kind listed marked =>
    have constant := consistent.constants _ _ _ kind _ listed
    rw [DeclKind.isEnumConstant_eq, decide_eq_true_eq] at constant
    exact marked.sort_ne consistent sorted (by simp [constant])
  | owner kind marked => exact marked.sort_ne consistent sorted (by simp [sorted.owners _ _ _ _ kind])

end Sorts

/-- Marked for the roots before any body is walked. -/
def Reached (session : Session) (roots : List DeclId) (id : DeclId) : Prop :=
  ∃ root ∈ roots, ∃ first ∈ session.upTo root,
    Relation.ReflTransGen (fun needing needed => needed ∈ session.declDecls needing) first id

theorem Reached.congr {roots others : List DeclId} (same : ∀ root, root ∈ roots ↔ root ∈ others) {id : DeclId} :
    session.Reached roots id ↔ session.Reached others id := by
  simp only [Reached, same]

/-- No pointer is made before a body is walked: the requested functions are exempt, and what their declarations lead to
is no symbol. -/
theorem Reached.renameOf_eq_none {roots : List DeclId} {id : DeclId} (consistent : session.program.Consistent)
    (sorted : session.program.WellSorted) (reached : session.Reached roots id) :
    session.renameOf? (session.chainsOf roots) id = none := by
  obtain ⟨root, known, first, earlier, path⟩ := reached
  cases path with
  | refl =>
    obtain ⟨member, -⟩ := (mem_upTo consistent).mp earlier
    have requested : (session.program.decl id).chain ∈ session.chainsOf roots := by
      rw [consistent.chain_of_mem member]
      exact List.mem_map_of_mem known
    rw [renameOf?, List.contains_iff_mem.mpr requested]
    rfl
  | tail _ needed =>
    have plain := ((mem_declDecls consistent).mp needed).sort_ne consistent sorted
    have noSymbol : session.program.symbolKind? id = none := by
      revert plain
      unfold Program.symbolKind?
      cases (session.program.decl id).kind <;> simp [DeclKind.sort]
    simp [renameOf?, Program.rename?, noSymbol]

end Session

attribute [ext] Marking

namespace Marking

def Done (marking : Marking) (id : DeclId) : Prop :=
  id ∈ marking.decls ∧ id ∉ marking.queue

theorem done_markAll {marking : Marking} {ids : List DeclId} {id : DeclId} :
    (marking.markAll ids).Done id ↔ marking.Done id := by
  simp only [Done, mem_markAll, mem_markAll_queue]
  tauto

end Marking

namespace Session

variable {session : Session} {rootChains : List ChainId}

/-- What processing the queue has done: directives and due bodies are those of the declarations that left it. -/
structure Drains (session : Session) (rootChains : List ChainId) (roots : List DeclId) (marking : Marking) : Prop where
  reached : ∀ id ∈ marking.decls, session.Reached roots id
  macros : ∀ directive, directive ∈ marking.macros ↔
    ∃ id, marking.Done id ∧ directive ∈ session.declMacros rootChains id
  pending : ∀ id, id ∈ marking.pending ↔ marking.Done id ∧ session.needsBody rootChains id = true
  macrosAscend : marking.macros.Ascending
  pendingAscend : marking.pending.Ascending
  passSizes : marking.passSizes = []

/-- The step: the declaration that leaves the queue adds its directives, and itself if its body is due. -/
theorem Drains.process {roots queue : List DeclId} {marking : Marking} {id : DeclId}
    (drains : session.Drains rootChains roots marking) (waiting : marking.queue = id :: queue)
    (sane : marking.Sane session.program.decls.size) :
    session.Drains rootChains roots (session.process rootChains { marking with queue } id) := by
  have marked : id ∈ marking.decls := sane.waiting id (by simp [waiting])
  have done : ∀ other, (session.process rootChains { marking with queue } id).Done other ↔
      other = id ∨ marking.Done other := by
    intro other
    have leaves : id ∉ queue := (List.nodup_cons.mp (waiting ▸ sane.unique)).1
    have stays : (Marking.markAll { marking with queue } (session.declDecls id)).Done other ↔
        Marking.Done { marking with queue } other := Marking.done_markAll
    refine stays.trans ?_
    simp only [Marking.Done, waiting, List.mem_cons]
    grind
  constructor
  · intro other member
    rcases Marking.mem_markAll.mp member with needed | old
    · obtain ⟨root, known, first, earlier, path⟩ := drains.reached id marked
      exact ⟨root, known, first, earlier, path.tail needed⟩
    · exact drains.reached other old
  · intro directive
    simp only [done, or_and_right, exists_or, exists_eq_left]
    simp only [Session.process, IdSet.mem_insertAll, Marking.markAll_macros, drains.macros]
    exact or_comm
  · intro other
    rw [process_pending, drains.pending, done]
    constructor
    · rintro (⟨before, needed⟩ | ⟨rfl, needed⟩)
      · exact ⟨.inr before, needed⟩
      · exact ⟨.inl rfl, needed⟩
    · rintro ⟨rfl | before, needed⟩
      · exact .inr ⟨rfl, needed⟩
      · exact .inl ⟨before, needed⟩
  · exact IdSet.Ascending.insertAll (by simpa using drains.macrosAscend) _
  · simp only [Session.process, Marking.markAll_pending]
    split
    · exact drains.pendingAscend.insert id
    · exact drains.pendingAscend
  · simpa [Session.process] using drains.passSizes

/-- The run: processing the queue keeps what it has done, however many steps it takes. -/
theorem drainFor_drains (inside : session.program.ChainsInside) {roots : List DeclId} {marking : Marking} (fuel : Nat)
    (drains : session.Drains rootChains roots marking) (sane : marking.Sane session.program.decls.size) :
    session.Drains rootChains roots (session.drainFor rootChains fuel marking) := by
  induction fuel generalizing marking with
  | zero => exact drains
  | succ fuel ih =>
    cases waiting : marking.queue with
    | nil => simpa only [drainFor, waiting] using drains
    | cons id queue =>
      simp only [drainFor, waiting]
      have step : session.Advance rootChains (marking, []) (_, []) := .process waiting
      exact ih (drains.process waiting sane) (step.sane inside sane)

theorem requested_drains (rootChains : List ChainId) (roots : List DeclId) :
    session.Drains rootChains roots (session.requested roots) := by
  have idle : ∀ id, ¬(session.requested roots).Done id := by
    intro id done
    exact absurd (Marking.done_markAll.mp done).1 List.not_mem_nil
  constructor
  · intro id member
    obtain ⟨root, known, earlier⟩ := mem_requested.mp member
    exact ⟨root, known, id, earlier, .refl⟩
  · simp only [idle, false_and, exists_false, iff_false]
    simp [requested]
  · simp only [idle, false_and, iff_false]
    simp [requested]
  · simp [requested, IdSet.Ascending]
  · simp [requested, IdSet.Ascending]
  · simp [requested]

section Drained

variable (consistent : session.program.Consistent) (sorted : session.program.WellSorted) (roots : List DeclId)
include consistent

theorem drain_requested_drains : session.Drains rootChains roots (session.drain rootChains (session.requested roots)) :=
  drainFor_drains consistent.chainsInside _ (requested_drains rootChains roots) (requested_sane consistent.chainsInside)

theorem drain_requested_queue : (session.drain rootChains (session.requested roots)).queue = [] :=
  drain_queue rootChains consistent.chainsInside (requested_sane consistent.chainsInside)

/-- When the queue is empty, the marked declarations are those that chains of needs lead to from the roots. -/
theorem mem_drain_requested {id : DeclId} :
    id ∈ (session.drain rootChains (session.requested roots)).decls ↔ session.Reached roots id := by
  have run := drainFor_run session rootChains session.program.decls.size (session.requested roots) []
  refine ⟨(drain_requested_drains consistent roots).reached id, ?_⟩
  rintro ⟨root, known, first, earlier, path⟩
  induction path with
  | refl => exact (Run.grows run).decls _ (mem_requested.mpr ⟨root, known, earlier⟩)
  | tail _ needed ih =>
    refine (Run.served run (fun other marked idle => ?_) _ ih ?_).needs _ needed
    · exact absurd (Marking.done_markAll.mp ⟨marked, idle⟩).1 List.not_mem_nil
    · change _ ∉ (session.drain rootChains (session.requested roots)).queue
      rw [drain_requested_queue consistent roots]
      exact List.not_mem_nil

include sorted in
theorem drain_requested_renames :
    (session.drain (session.chainsOf roots) (session.requested roots)).renames = [] := by
  have run := drainFor_run session (session.chainsOf roots) session.program.decls.size (session.requested roots) []
  refine List.eq_nil_iff_forall_not_mem.mpr fun rename member => ?_
  obtain ⟨id, marked, found⟩ := Run.origin run consistent.chainsInside (requested_sane consistent.chainsInside)
    (by simp [requested]) rename member
  rw [((mem_drain_requested consistent roots).mp marked).renameOf_eq_none consistent sorted] at found
  cases found

end Drained

section Chains

variable {first second : List ChainId} (same : ∀ chain, chain ∈ first ↔ chain ∈ second)
include same

theorem renameOf_congr : session.renameOf? first = session.renameOf? second := by
  funext id
  have contains : first.contains (session.program.decl id).chain = second.contains (session.program.decl id).chain := by
    rw [Bool.eq_iff_iff, List.contains_iff_mem, List.contains_iff_mem, same]
  unfold renameOf?
  rw [contains]

theorem needsBody_congr : session.needsBody first = session.needsBody second := by
  funext id
  simp only [needsBody, renameOf_congr same]

theorem declMacros_congr : session.declMacros first = session.declMacros second := by
  funext id
  simp only [declMacros, renameOf_congr same]

theorem process_congr : session.process first = session.process second := by
  funext marking id
  simp only [process, needsBody_congr same, declMacros_congr same, renameOf_congr same]

theorem drain_congr : session.drain first = session.drain second := by
  funext marking
  unfold drain
  generalize session.program.decls.size = fuel
  induction fuel generalizing marking with
  | zero => rfl
  | succ fuel ih =>
    cases waiting : marking.queue with
    | nil => simp only [drainFor, waiting]
    | cons id queue => simp only [drainFor, waiting, process_congr same, ih]

theorem passesFor_congr (fuel : Nat) : session.passesFor first fuel = session.passesFor second fuel := by
  have walk : session.walkBody first = session.walkBody second := by
    funext marking id
    simp only [walkBody, drain_congr same]
  have pass : session.pass first = session.pass second := by
    funext marking
    simp only [pass, walk]
  funext marking
  induction fuel generalizing marking with
  | zero => rfl
  | succ fuel ih => simp only [passesFor, pass, ih]

theorem settle_congr : session.settle first = session.settle second := by
  funext marking
  simp only [settle, passesFor_congr same, drain_congr same]

theorem saturateFor_congr (fuel : Nat) : session.saturateFor first fuel = session.saturateFor second fuel := by
  have enums : session.markMacroEnums first = session.markMacroEnums second := by
    funext marking
    simp only [markMacroEnums, drain_congr same]
  funext marking
  induction fuel generalizing marking with
  | zero => rfl
  | succ fuel ih => rw [saturateFor, saturateFor, settle_congr same, enums, ih]

end Chains

/-- Each part of the drained marking is the ascending list of a set that depends on the set of the roots only. -/
theorem drain_requested_eq (consistent : session.program.Consistent) (sorted : session.program.WellSorted)
    {roots others : List DeclId} (same : ∀ root, root ∈ roots ↔ root ∈ others) :
    session.drain (session.chainsOf roots) (session.requested roots) =
      session.drain (session.chainsOf others) (session.requested others) := by
  have chains : ∀ chain, chain ∈ session.chainsOf roots ↔ chain ∈ session.chainsOf others := by
    simp [chainsOf, same]
  have sane : ∀ roots,
      (session.drain (session.chainsOf roots) (session.requested roots)).Sane session.program.decls.size :=
    fun roots =>
      Run.sane (drainFor_run session _ _ _ []) consistent.chainsInside (requested_sane consistent.chainsInside)
  have left : session.Drains (session.chainsOf roots) roots _ := drain_requested_drains consistent roots
  have right : session.Drains (session.chainsOf others) others _ := drain_requested_drains consistent others
  have leftQueue : (session.drain (session.chainsOf roots) (session.requested roots)).queue = [] :=
    drain_requested_queue consistent roots
  have rightQueue : (session.drain (session.chainsOf others) (session.requested others)).queue = [] :=
    drain_requested_queue consistent others
  have leftRenames := drain_requested_renames consistent sorted roots
  have rightRenames := drain_requested_renames consistent sorted others
  have decls := (sane roots).ascending.eq_of_mem_iff (sane others).ascending fun id => by
    rw [mem_drain_requested consistent, mem_drain_requested consistent, Reached.congr same]
  have done : ∀ id, (session.drain (session.chainsOf roots) (session.requested roots)).Done id ↔
      (session.drain (session.chainsOf others) (session.requested others)).Done id := by
    simp only [Marking.Done, decls, leftQueue, rightQueue, implies_true]
  have macros := left.macrosAscend.eq_of_mem_iff right.macrosAscend fun directive => by
    simp only [left.macros, right.macros, done, declMacros_congr chains]
  have pending := left.pendingAscend.eq_of_mem_iff right.pendingAscend fun id => by
    simp only [left.pending, right.pending, done, needsBody_congr chains]
  exact Marking.ext decls macros (leftRenames.trans rightRenames.symm) (leftQueue.trans rightQueue.symm) pending
    (left.passSizes.trans right.passSizes.symm)

theorem saturation_eq (consistent : session.program.Consistent) (sorted : session.program.WellSorted)
    {roots others : List DeclId} (same : ∀ root, root ∈ roots ↔ root ∈ others) :
    session.saturation roots = session.saturation others := by
  have chains : ∀ chain, chain ∈ session.chainsOf roots ↔ chain ∈ session.chainsOf others := by
    simp [chainsOf, same]
  have settled : session.settle (session.chainsOf roots) (session.requested roots) =
      session.settle (session.chainsOf others) (session.requested others) := by
    rw [settle, settle, passesFor_congr chains, drain_requested_eq consistent sorted same]
  unfold saturation saturate
  rw [saturateFor_congr chains, saturateFor, saturateFor, ← settle_congr chains, settled, settle_congr chains]

end Session

namespace Closure

structure SameUpToRoots (closure other : Closure) : Prop where
  decls : closure.decls = other.decls
  macros : closure.macros = other.macros
  needsUndef : closure.needsUndef = other.needsUndef
  renames : closure.renames = other.renames
  passSizes : closure.passSizes = other.passSizes
  roots : ∀ root, root ∈ closure.roots ↔ root ∈ other.roots

section Printing

variable {closure other : Closure} (same : closure.SameUpToRoots other) (session : Session)
include same

theorem SameUpToRoots.renameFor_eq (program : Program) : closure.renameFor? program = other.renameFor? program := by
  funext id
  simp only [renameFor?, same.renames]

theorem SameUpToRoots.edits_eq (program : Program) : closure.edits program = other.edits program := by
  have node : closure.nodeEdit? program = other.nodeEdit? program := by
    funext stmt
    simp only [nodeEdit?, same.renameFor_eq]
  funext ids
  simp only [edits, node]

theorem SameUpToRoots.declChunks_eq : session.declChunks closure = session.declChunks other := by
  have split : ∀ item done ids, session.splitParts closure item done ids = session.splitParts other item done ids := by
    intro item done ids
    induction ids generalizing done with
    | nil => rfl
    | cons id rest ih => simp only [Session.splitParts, same.renameFor_eq, ih]
  funext done item decls
  simp only [Session.declChunks, Session.printedChunk?, same.decls, same.edits_eq, split]

theorem SameUpToRoots.itemChunks_eq : session.itemChunks closure = session.itemChunks other := by
  have undefs : session.undefsBefore closure = session.undefsBefore other := by
    funext item
    simp only [Session.undefsBefore, same.needsUndef]
  have inclusions : session.keepsInclusion closure = session.keepsInclusion other := by
    funext id
    simp only [Session.keepsInclusion, Session.isNeeded, same.decls, same.macros]
  funext kept done item
  simp only [Session.itemChunks, undefs, inclusions, same.macros, same.declChunks_eq]

theorem SameUpToRoots.emit_eq (kept : IdSet) : session.emit closure kept = session.emit other kept := by
  have items : ∀ done items, session.chunksFrom closure kept done items = session.chunksFrom other kept done items := by
    intro done items
    induction items generalizing done with
    | nil => rfl
    | cons item rest ih => simp only [Session.chunksFrom, same.itemChunks_eq, ih]
  simp only [Session.emit, Session.chunks, items]

end Printing

end Closure

namespace Session

variable {session : Session}

theorem exists_roots {requested : List String} (resolved : ∀ name ∈ requested, ∃ root, session.root name = .ok root) :
    ∃ roots, requested.mapM session.root = .ok roots := by
  induction requested with
  | nil => exact ⟨[], rfl⟩
  | cons name rest ih =>
    obtain ⟨root, first⟩ := resolved name List.mem_cons_self
    obtain ⟨roots, others⟩ := ih fun other member => resolved other (List.mem_cons_of_mem _ member)
    refine ⟨root :: roots, ?_⟩
    rw [List.mapM_cons, first, others]
    rfl

/-- Requests with the same names, in any order and with any repetitions, have the same closure but for the order and the
repetitions of its roots, and they are extracted with the same outermost declarations and the same text. -/
theorem extract_eq_of_same_names (read : session.IsRead) {first second : List String}
    (same : ∀ name, name ∈ first ↔ name ∈ second) {closure : Closure} (found : session.closure first = .ok closure) :
    ∃ other, session.closure second = .ok other ∧ closure.SameUpToRoots other ∧
      (session.extract first).map (fun extraction => (extraction.kept, extraction.text)) =
        (session.extract second).map fun extraction => (extraction.kept, extraction.text) := by
  have consistent := read.consistent
  have sorted : session.program.WellSorted := by
    obtain ⟨files, search, path, document, program⟩ := read
    exact program ▸ Program.ofDocument_wellSorted files search path document
  obtain ⟨roots, resolved, rfl⟩ := closure_eq_ok found
  obtain ⟨others, otherResolved⟩ := exists_roots fun name member => by
    obtain ⟨root, -, known⟩ := (roots_of_mapM resolved).1 name ((same name).mpr member)
    exact ⟨root, known⟩
  have sameRoots : ∀ root, root ∈ roots ↔ root ∈ others := by
    simp only [mem_roots resolved, mem_roots otherResolved, same, implies_true]
  have saturated : session.saturation roots = session.saturation others := saturation_eq consistent sorted sameRoots
  have equal : (session.closureOf roots).SameUpToRoots (session.closureOf others) :=
    ⟨congrArg (·.decls) saturated, congrArg (·.macros) saturated,
      congrArg (fun marking => marking.macros.filter session.isReplaced) saturated, congrArg (·.renames) saturated,
      congrArg (·.passSizes) saturated, sameRoots⟩
  have otherFound : session.closure second = .ok (session.closureOf others) := by
    rw [Session.closure, otherResolved]
    rfl
  refine ⟨session.closureOf others, otherFound, equal, ?_⟩
  simp only [extract, found, otherFound, equal.decls]
  cases session.program.outermost (session.closureOf others).decls with
  | error error => rfl
  | ok kept => simp only [Except.map, equal.emit_eq]

def sharedHelper : Session :=
  ({} : Config).session (.ofDocument ⟨[], []⟩ ⟨[]⟩ "unit.c"
    (Written.document
      [("", .define "N" "1"), ("", .staticFunction "g" (.reference "N")), ("\n", .function "a" (.call "g")),
        ("\n", .function "b" (.reference "N"))]))

set_option maxRecDepth 10000 in
theorem extract_eq_sharedHelper : ∃ closure other, sharedHelper.closure ["a", "b"] = .ok closure ∧
    sharedHelper.closure ["b", "a", "b"] = .ok other ∧ closure.SameUpToRoots other ∧ closure.roots = [1, 2] ∧
    other.roots = [2, 1, 2] ∧ closure.decls = [0, 1, 2] ∧
    (sharedHelper.extract ["a", "b"]).map (fun extraction => (extraction.kept, extraction.text)) =
      (sharedHelper.extract ["b", "a", "b"]).map fun extraction => (extraction.kept, extraction.text) := by
  have same : ∀ name, name ∈ ["a", "b"] ↔ name ∈ ["b", "a", "b"] := by
    intro name
    simp only [List.mem_cons, List.not_mem_nil, or_false]
    tauto
  let closure : Closure :=
    { roots := [1, 2], decls := [0, 1, 2], macros := [0], needsUndef := [], renames := [⟨"g", .function, 0⟩],
      passSizes := [3] }
  have found : sharedHelper.closure ["a", "b"] = .ok closure := by decide +kernel
  have read : sharedHelper.IsRead := ⟨_, _, _, _, rfl⟩
  obtain ⟨other, otherFound, equal, texts⟩ := extract_eq_of_same_names read same found
  refine ⟨closure, other, found, otherFound, equal, rfl, ?_, rfl, texts⟩
  have roots : (sharedHelper.closure ["b", "a", "b"]).map (·.roots) = .ok [2, 1, 2] := by decide +kernel
  rw [otherFound] at roots
  exact Except.ok.inj roots

end Session

end Excerpt
