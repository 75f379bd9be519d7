import Excerpt.Proofs.Closure.Marking

namespace Excerpt

def Program.ChainsInside (program : Program) : Prop :=
  ∀ chain, ∀ id ∈ program.chain chain, id < program.decls.size

namespace Session

variable {session : Session} {rootChains : List ChainId}

section Inside

variable (inside : session.program.ChainsInside) {id other : DeclId}
include inside

theorem upTo_inside (member : other ∈ session.upTo id) : other < session.program.decls.size :=
  inside _ other (List.takeWhile_subset _ member)

theorem entity_inside (member : other ∈ session.entity id) : other < session.program.decls.size := by
  unfold entity at member
  split at member
  · rcases List.mem_append.mp member with member | member
    · exact upTo_inside inside member
    · split at member
      · exact upTo_inside inside member
      · cases member
  · cases member

theorem typeNodeDecls_inside {context : Option DeclId} {type : CType}
    (member : other ∈ session.typeNodeDecls context type) : other < session.program.decls.size := by
  unfold typeNodeDecls at member
  split at member
  · unfold arraySizeDecls at member
    split at member
    · exact entity_inside inside member
    · cases member
  · exact entity_inside inside member
  · exact entity_inside inside member
  · exact entity_inside inside member
  · cases member

theorem typeDecls_inside {context : Option DeclId} {type : TypeId} (member : other ∈ session.typeDecls type context) :
    other < session.program.decls.size := by
  obtain ⟨part, -, member⟩ := List.mem_flatMap.mp member
  exact typeNodeDecls_inside inside member

theorem declDecls_inside (member : other ∈ session.declDecls id) : other < session.program.decls.size := by
  unfold declDecls at member
  dsimp only at member
  split at member
  · exact typeDecls_inside inside member
  · exact typeDecls_inside inside member
  · obtain ⟨field, -, member⟩ := List.mem_flatMap.mp member
    exact typeDecls_inside inside member
  · obtain ⟨constant, -, member⟩ := List.mem_flatMap.mp member
    exact upTo_inside inside member
  · exact entity_inside inside member
  · exact typeDecls_inside inside member

theorem nodeDecls_inside {kind : StmtKind} (member : other ∈ session.nodeDecls id kind) :
    other < session.program.decls.size := by
  unfold nodeDecls at member
  split at member
  · split at member
    · exact entity_inside inside member
    · cases member
  · split at member
    · exact typeDecls_inside inside member
    · exact upTo_inside inside member
  · exact typeDecls_inside inside member
  · cases member

theorem bodyDecls_inside (member : other ∈ session.bodyDecls id) : other < session.program.decls.size := by
  unfold bodyDecls at member
  split at member
  · obtain ⟨stmt, -, member⟩ := List.mem_flatMap.mp member
    exact nodeDecls_inside inside member
  · cases member

theorem macroDecls_inside {directive : MacroId} (member : other ∈ session.macroDecls directive) :
    other < session.program.decls.size := by
  obtain ⟨name, -, member⟩ := List.mem_flatMap.mp member
  obtain ⟨owner, -, member⟩ := List.mem_flatMap.mp member
  exact entity_inside inside member

end Inside

def enumDecls (session : Session) (macros : List MacroId) : List DeclId :=
  (macros.filter session.isMacroExpanded).flatMap session.macroDecls

variable (session rootChains) in
/-- A step of the marking, beside the declarations whose bodies were taken and are not walked yet. -/
inductive Advance : Marking × List DeclId → Marking × List DeclId → Prop
  | process {marking : Marking} {id : DeclId} {queue due : List DeclId} (waiting : marking.queue = id :: queue) :
      Advance (marking, due) (session.process rootChains { marking with queue } id, due)
  | take {marking : Marking} {due : List DeclId} :
      Advance (marking, due) ({ marking with pending := [] }, marking.pending ++ due)
  | walk {marking : Marking} {id : DeclId} {due : List DeclId} :
      Advance (marking, id :: due) (marking.markAll (session.bodyDecls id), due)
  | enums {marking : Marking} {due : List DeclId} :
      Advance (marking, due) (marking.markAll (session.enumDecls marking.macros), due)
  | record {marking : Marking} {due : List DeclId} (sizes : List Nat) :
      Advance (marking, due) ({ marking with passSizes := sizes }, due)

variable (session rootChains) in
abbrev Run : Marking × List DeclId → Marking × List DeclId → Prop :=
  Relation.ReflTransGen (session.Advance rootChains)

section Runs

variable (session rootChains)

theorem drainFor_run (fuel : Nat) (marking : Marking) (due : List DeclId) :
    session.Run rootChains (marking, due) (session.drainFor rootChains fuel marking, due) := by
  induction fuel generalizing marking with
  | zero => exact .refl
  | succ fuel ih =>
    cases waiting : marking.queue with
    | nil => simpa only [drainFor, waiting] using Relation.ReflTransGen.refl
    | cons id queue =>
      simp only [drainFor, waiting]
      exact .head (.process waiting) (ih _)

theorem walkBody_run (marking : Marking) (id : DeclId) (due : List DeclId) :
    session.Run rootChains (marking, id :: due) (session.walkBody rootChains marking id, due) :=
  .head .walk (drainFor_run session rootChains _ _ due)

theorem walkBodies_run (ids due : List DeclId) (marking : Marking) :
    session.Run rootChains (marking, ids ++ due) (ids.foldl (session.walkBody rootChains) marking, due) := by
  induction ids generalizing marking with
  | nil => exact .refl
  | cons id rest ih => exact (walkBody_run session rootChains marking id (rest ++ due)).trans (ih _)

theorem pass_run (marking : Marking) :
    session.Run rootChains (marking, []) (session.pass rootChains marking, []) :=
  .head .take ((walkBodies_run session rootChains marking.pending [] _).trans (.single (.record _)))

theorem passesFor_run (fuel : Nat) (marking : Marking) :
    session.Run rootChains (marking, []) (session.passesFor rootChains fuel marking, []) := by
  induction fuel generalizing marking with
  | zero => exact .refl
  | succ fuel ih =>
    unfold passesFor
    split
    · exact .refl
    · exact (pass_run session rootChains marking).trans (ih _)

theorem settle_run (marking : Marking) :
    session.Run rootChains (marking, []) (session.settle rootChains marking, []) :=
  (drainFor_run session rootChains _ marking []).trans (passesFor_run session rootChains _ _)

theorem markMacroEnums_run (marking : Marking) :
    session.Run rootChains (marking, []) (session.markMacroEnums rootChains marking, []) :=
  .head .enums (drainFor_run session rootChains _ _ [])

theorem saturateFor_run (fuel : Nat) (marking : Marking) :
    session.Run rootChains (marking, []) (session.saturateFor rootChains fuel marking, []) := by
  induction fuel generalizing marking with
  | zero => exact .refl
  | succ fuel ih =>
    have round := (settle_run session rootChains marking).trans (markMacroEnums_run session rootChains _)
    unfold saturateFor
    dsimp only
    split
    · exact round
    · exact round.trans (ih _)

end Runs

structure Served (session : Session) (rootChains : List ChainId) (marking : Marking) (due : List DeclId) (id : DeclId) :
    Prop where
  needs : ∀ other ∈ session.declDecls id, other ∈ marking.decls
  macros : ∀ directive ∈ session.declMacros rootChains id, directive ∈ marking.macros
  body : session.needsBody rootChains id = true →
    (id ∈ marking.pending ∨ id ∈ due) ∨ ∀ other ∈ session.bodyDecls id, other ∈ marking.decls
  rename : ∀ rename, session.renameOf? rootChains id = some rename →
    ∃ known ∈ marking.renames, known.symbol = rename.symbol

structure Grows (before after : Marking) : Prop where
  decls : ∀ id ∈ before.decls, id ∈ after.decls
  macros : ∀ id ∈ before.macros, id ∈ after.macros
  renames : ∀ rename ∈ before.renames, rename ∈ after.renames

/-- What was done for a declaration stays done while the marking grows. -/
theorem Served.mono {before after : Marking} {due later : List DeclId} {id : DeclId}
    (served : session.Served rootChains before due id) (grows : Grows before after)
    (bodies : id ∈ before.pending ∨ id ∈ due →
      (id ∈ after.pending ∨ id ∈ later) ∨ ∀ other ∈ session.bodyDecls id, other ∈ after.decls) :
    session.Served rootChains after later id where
  needs other member := grows.decls other (served.needs other member)
  macros directive member := grows.macros directive (served.macros directive member)
  body needed := by
    rcases served.body needed with waiting | walked
    · exact bodies waiting
    · exact .inr fun other member => grows.decls other (walked other member)
  rename rename found := by
    obtain ⟨known, member, same⟩ := served.rename rename found
    exact ⟨known, grows.renames known member, same⟩

theorem grows_markAll (marking : Marking) (ids : List DeclId) : Grows marking (marking.markAll ids) where
  decls _ member := Marking.mem_markAll.mpr (.inr member)
  macros _ member := by rwa [Marking.markAll_macros]
  renames _ member := by rwa [Marking.markAll_renames]

end Session

section Renames

variable {rename known : Rename} {renames : List Rename}

theorem mem_insertRename_of_mem (member : known ∈ renames) : known ∈ insertRename rename renames := by
  induction renames with
  | nil => cases member
  | cons first rest ih =>
    unfold insertRename
    split
    · exact List.mem_cons_of_mem _ member
    · split
      · exact member
      · rcases List.mem_cons.mp member with same | member
        · exact same ▸ List.mem_cons_self
        · exact List.mem_cons_of_mem _ (ih member)

theorem eq_or_mem_of_mem_insertRename (member : known ∈ insertRename rename renames) :
    known = rename ∨ known ∈ renames := by
  induction renames with
  | nil => exact .inl (List.mem_singleton.mp member)
  | cons first rest ih =>
    unfold insertRename at member
    split at member
    · exact List.mem_cons.mp member
    · split at member
      · exact .inr member
      · rcases List.mem_cons.mp member with same | member
        · exact .inr (same ▸ List.mem_cons_self)
        · exact (ih member).imp_right (List.mem_cons_of_mem _)

theorem exists_symbol_insertRename (rename : Rename) (renames : List Rename) :
    ∃ known ∈ insertRename rename renames, known.symbol = rename.symbol := by
  induction renames with
  | nil => exact ⟨rename, List.mem_singleton.mpr rfl, rfl⟩
  | cons first rest ih =>
    unfold insertRename
    split
    · exact ⟨rename, List.mem_cons_self, rfl⟩
    · split
      · next same => exact ⟨first, List.mem_cons_self, same.symm⟩
      · obtain ⟨known, member, same⟩ := ih
        exact ⟨known, List.mem_cons_of_mem _ member, same⟩

end Renames

namespace Session

variable {session : Session} {rootChains : List ChainId}

theorem grows_process (session : Session) (rootChains : List ChainId) (marking : Marking) (id : DeclId) :
    Grows marking (session.process rootChains marking id) where
  decls _ member := Marking.mem_markAll.mpr (.inr member)
  macros _ member := by
    simp only [process, IdSet.mem_insertAll, Marking.markAll_macros]
    exact .inl member
  renames known member := by
    simp only [process, Marking.markAll_renames]
    split
    · exact mem_insertRename_of_mem member
    · exact member

theorem process_served (marking : Marking) (due : List DeclId) (id : DeclId) :
    session.Served rootChains (session.process rootChains marking id) due id where
  needs _ member := Marking.mem_markAll.mpr (.inl member)
  macros _ member := by
    simp only [process, IdSet.mem_insertAll]
    exact .inr member
  body needed := by
    simp only [process, needed, ↓reduceIte, IdSet.mem_insert]
    exact .inl (.inl (.inl trivial))
  rename rename found := by
    simp only [process, found]
    exact exists_symbol_insertRename rename _

theorem process_pending {marking : Marking} {id other : DeclId} :
    other ∈ (session.process rootChains marking id).pending ↔
      other ∈ marking.pending ∨ other = id ∧ session.needsBody rootChains id = true := by
  simp only [process, Marking.markAll_pending]
  split
  · next needed =>
    rw [IdSet.mem_insert]
    tauto
  · next free => simp [free]

section Kept

variable {before after : Marking × List DeclId} (step : session.Advance rootChains before after)
include step

theorem Advance.grows : Grows before.1 after.1 := by
  cases step with
  | @process marking id queue due waiting =>
    have grown := grows_process session rootChains { marking with queue } id
    exact ⟨grown.decls, grown.macros, grown.renames⟩
  | take => exact ⟨fun _ member => member, fun _ member => member, fun _ member => member⟩
  | walk => exact grows_markAll _ _
  | enums => exact grows_markAll _ _
  | record => exact ⟨fun _ member => member, fun _ member => member, fun _ member => member⟩

/-- The step: numbers stay inside the table, since chains have members of the table only. -/
theorem Advance.sane (inside : session.program.ChainsInside) (sane : before.1.Sane session.program.decls.size) :
    after.1.Sane session.program.decls.size := by
  cases step with
  | @process marking id queue due waiting =>
    have member : id ∈ marking.decls := sane.waiting id (by simp [waiting])
    have popped : Marking.Sane session.program.decls.size { marking with queue } :=
      { ascending := sane.ascending
        bounded := sane.bounded
        waiting := fun other late => sane.waiting other (by simp [waiting, late])
        unique := (List.nodup_cons.mp (waiting ▸ sane.unique)).2
        pending := sane.pending }
    have marked := popped.markAll fun other => @declDecls_inside session inside id other
    refine ⟨marked.ascending, marked.bounded, marked.waiting, marked.unique, fun other late => ?_⟩
    rcases process_pending.mp late with late | ⟨same, -⟩
    · exact Marking.mem_markAll.mpr (.inr (sane.pending other late))
    · exact Marking.mem_markAll.mpr (.inr (same ▸ member))
  | take => exact ⟨sane.ascending, sane.bounded, sane.waiting, sane.unique, fun _ none => by cases none⟩
  | walk => exact sane.markAll fun other => bodyDecls_inside inside
  | enums =>
    refine sane.markAll fun other member => ?_
    obtain ⟨directive, -, member⟩ := List.mem_flatMap.mp member
    exact macroDecls_inside inside member
  | record => exact ⟨sane.ascending, sane.bounded, sane.waiting, sane.unique, sane.pending⟩

/-- The step: a marked declaration that does not wait any more has all its needs marked. Its body is walked, or due. -/
theorem Advance.served
    (kept : ∀ id ∈ before.1.decls, id ∉ before.1.queue → session.Served rootChains before.1 before.2 id) :
    ∀ id ∈ after.1.decls, id ∉ after.1.queue → session.Served rootChains after.1 after.2 id := by
  have grows := step.grows
  -- A declaration that does not wait after marking was marked before.
  have earlier : ∀ (marking : Marking) (ids : List DeclId) (id : DeclId), id ∈ (marking.markAll ids).decls →
      id ∉ (marking.markAll ids).queue → id ∈ marking.decls ∧ id ∉ marking.queue := by
    intro marking ids id member idle
    rw [Marking.mem_markAll_queue] at idle
    rcases Marking.mem_markAll.mp member with new | old
    · exact ⟨by_contra fun fresh => idle (.inr ⟨new, fresh⟩), fun waits => idle (.inl waits)⟩
    · exact ⟨old, fun waits => idle (.inl waits)⟩
  intro id member idle
  cases step with
  | @process marking head queue due waiting =>
    by_cases same : id = head
    · exact same ▸ process_served _ _ _
    · obtain ⟨old, idleQueue⟩ := earlier { marking with queue } _ id member idle
      refine (kept id old ?_).mono grows fun waits => ?_
      · rw [waiting, List.mem_cons]
        rintro (equal | late)
        · exact same equal
        · exact idleQueue late
      · exact .inl (waits.imp_left fun pending => process_pending.mpr (.inl pending))
  | take =>
    refine (kept id member idle).mono grows fun waits => .inl (.inr ?_)
    exact List.mem_append.mpr waits
  | @walk marking head due =>
    obtain ⟨old, idleBefore⟩ := earlier marking _ id member idle
    refine (kept id old idleBefore).mono grows fun waits => ?_
    rcases waits with pending | late
    · exact .inl (.inl (by rwa [Marking.markAll_pending]))
    · rcases List.mem_cons.mp late with same | late
      · exact .inr fun other needed => Marking.mem_markAll.mpr (.inl (same ▸ needed))
      · exact .inl (.inr late)
  | @enums marking due =>
    obtain ⟨old, idleBefore⟩ := earlier marking _ id member idle
    exact (kept id old idleBefore).mono grows fun waits => .inl (by rwa [Marking.markAll_pending])
  | record => exact (kept id member idle).mono grows .inl

/-- The step: every pointer was made for a declaration that is marked. -/
theorem Advance.origin
    (known : ∀ rename ∈ before.1.renames, ∃ id ∈ before.1.decls, session.renameOf? rootChains id = some rename)
    (sane : before.1.Sane session.program.decls.size) :
    ∀ rename ∈ after.1.renames, ∃ id ∈ after.1.decls, session.renameOf? rootChains id = some rename := by
  have grows := step.grows
  have old : ∀ rename ∈ before.1.renames, ∃ id ∈ after.1.decls, session.renameOf? rootChains id = some rename := by
    intro rename member
    obtain ⟨id, marked, found⟩ := known rename member
    exact ⟨id, grows.decls id marked, found⟩
  intro rename member
  cases step with
  | @process marking id queue due waiting =>
    have marked : id ∈ marking.decls := sane.waiting id (by simp [waiting])
    simp only [Session.process, Marking.markAll_renames] at member
    split at member
    · next found =>
      rcases eq_or_mem_of_mem_insertRename member with same | member
      · exact ⟨id, grows.decls id marked, same ▸ found⟩
      · exact old rename member
    · exact old rename member
  | take => exact old rename member
  | walk => exact old rename (by rwa [Marking.markAll_renames] at member)
  | enums => exact old rename (by rwa [Marking.markAll_renames] at member)
  | record => exact old rename member

end Kept

/-- Sets of declarations and directives that hold all that their members need. -/
structure Closed (session : Session) (rootChains : List ChainId) (decls : Set DeclId) (macros : Set MacroId) :
    Prop where
  needs : ∀ id ∈ decls, ∀ other ∈ session.declDecls id, other ∈ decls
  body : ∀ id ∈ decls, session.needsBody rootChains id = true → ∀ other ∈ session.bodyDecls id, other ∈ decls
  uses : ∀ id ∈ decls, ∀ directive ∈ session.declMacros rootChains id, directive ∈ macros
  enums : ∀ directive ∈ macros, session.isMacroExpanded directive = true →
    ∀ other ∈ session.macroDecls directive, other ∈ decls

structure Within (session : Session) (rootChains : List ChainId) (decls : Set DeclId) (macros : Set MacroId)
    (state : Marking × List DeclId) : Prop where
  marked : ∀ id ∈ state.1.decls, id ∈ decls
  used : ∀ directive ∈ state.1.macros, directive ∈ macros
  queue : ∀ id ∈ state.1.queue, id ∈ decls
  bodies : ∀ id ∈ state.1.pending ++ state.2, id ∈ decls ∧ session.needsBody rootChains id = true

theorem Within.markAll {decls : Set DeclId} {macros : Set MacroId} {marking : Marking} {due ids : List DeclId}
    (within : session.Within rootChains decls macros (marking, due)) (inside : ∀ id ∈ ids, id ∈ decls) :
    session.Within rootChains decls macros (marking.markAll ids, due) where
  marked id member := (Marking.mem_markAll.mp member).elim (inside id) (within.marked id)
  used directive member := within.used directive (by rwa [Marking.markAll_macros] at member)
  queue id member := (Marking.mem_markAll_queue.mp member).elim (within.queue id) fun new => inside id new.1
  bodies id member := within.bodies id (by rwa [Marking.markAll_pending] at member)

/-- Marking never leaves a closed pair of sets. -/
theorem Advance.within {decls : Set DeclId} {macros : Set MacroId} {before after : Marking × List DeclId}
    (step : session.Advance rootChains before after) (closed : session.Closed rootChains decls macros)
    (within : session.Within rootChains decls macros before) : session.Within rootChains decls macros after := by
  cases step with
  | @process marking id queue due waiting =>
    have inside : id ∈ decls := within.queue id (by simp [waiting])
    have popped : session.Within rootChains decls macros ({ marking with queue }, due) :=
      { within with queue := fun other late => within.queue other (by simp [waiting, late]) }
    have marked := popped.markAll (closed.needs id inside)
    refine ⟨marked.marked, fun directive member => ?_, marked.queue, fun other member => ?_⟩
    · simp only [Session.process, IdSet.mem_insertAll] at member
      exact member.elim (marked.used directive) (closed.uses id inside directive)
    · rcases List.mem_append.mp member with late | late
      · rcases process_pending.mp late with late | ⟨same, needed⟩
        · exact within.bodies other (List.mem_append_left _ late)
        · exact same ▸ ⟨inside, needed⟩
      · exact within.bodies other (List.mem_append_right _ late)
  | take => exact { within with bodies := within.bodies }
  | @walk marking id due =>
    obtain ⟨inside, needed⟩ := within.bodies id (by simp)
    have walked : session.Within rootChains decls macros (marking, due) :=
      { within with bodies := fun other member => within.bodies other (by
          rcases List.mem_append.mp member with late | late <;> simp [late]) }
    exact walked.markAll (closed.body id inside needed)
  | @enums marking due =>
    refine within.markAll fun other member => ?_
    obtain ⟨directive, found, member⟩ := List.mem_flatMap.mp member
    obtain ⟨marked, expanded⟩ := List.mem_filter.mp found
    exact closed.enums directive (within.used directive marked) expanded other member
  | record => exact { within with bodies := within.bodies }

section Run

variable {before after : Marking × List DeclId} (run : session.Run rootChains before after)
include run

theorem Run.grows : Grows before.1 after.1 := by
  induction run with
  | refl => exact ⟨fun _ member => member, fun _ member => member, fun _ member => member⟩
  | tail _ step ih =>
    exact ⟨fun id member => step.grows.decls id (ih.decls id member),
      fun id member => step.grows.macros id (ih.macros id member),
      fun rename member => step.grows.renames rename (ih.renames rename member)⟩

theorem Run.sane (inside : session.program.ChainsInside) (sane : before.1.Sane session.program.decls.size) :
    after.1.Sane session.program.decls.size := by
  induction run with
  | refl => exact sane
  | tail _ step ih => exact step.sane inside ih

theorem Run.served
    (kept : ∀ id ∈ before.1.decls, id ∉ before.1.queue → session.Served rootChains before.1 before.2 id) :
    ∀ id ∈ after.1.decls, id ∉ after.1.queue → session.Served rootChains after.1 after.2 id := by
  induction run with
  | refl => exact kept
  | tail _ step ih => exact step.served ih

theorem Run.origin (inside : session.program.ChainsInside) (sane : before.1.Sane session.program.decls.size)
    (known : ∀ rename ∈ before.1.renames, ∃ id ∈ before.1.decls, session.renameOf? rootChains id = some rename) :
    ∀ rename ∈ after.1.renames, ∃ id ∈ after.1.decls, session.renameOf? rootChains id = some rename := by
  induction run with
  | refl => exact known
  | tail earlier step ih => exact step.origin ih (Run.sane earlier inside sane)

theorem Run.within {decls : Set DeclId} {macros : Set MacroId} (closed : session.Closed rootChains decls macros)
    (within : session.Within rootChains decls macros before) : session.Within rootChains decls macros after := by
  induction run with
  | refl => exact within
  | tail _ step ih => exact step.within closed ih

end Run

end Session

end Excerpt
