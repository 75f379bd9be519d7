import Excerpt.Proofs.Closure.Run

/-!
The marking ends: its bounds are large enough, and what it returns is the least closed pair of sets that holds the
requested declarations.
-/

namespace Excerpt

theorem IdSet.Ascending.length_lt {small large : IdSet} (ascending : small.Ascending)
    (inside : ∀ id ∈ small, id ∈ large) {extra : Nat} (member : extra ∈ large) (outside : extra ∉ small) :
    small.length < large.length := by
  have distinct : (extra :: small).Nodup := List.nodup_cons.mpr ⟨outside, ascending.imp fun less => less.ne⟩
  have contained : extra :: small ⊆ large := List.cons_subset.mpr ⟨member, inside⟩
  exact (List.subperm_of_subset distinct contained).length_le

namespace Session

variable {session : Session} {rootChains : List ChainId}

/-- A state that came from marking in which only new declarations wait. -/
structure Fresh (base : List DeclId) (marking : Marking) : Prop where
  kept : ∀ id ∈ base, id ∈ marking.decls
  queue : ∀ id ∈ marking.queue, id ∉ base
  pending : ∀ id ∈ marking.pending, id ∉ base

theorem Fresh.markAll {base ids : List DeclId} {marking : Marking} (fresh : Fresh base marking) :
    Fresh base (marking.markAll ids) where
  kept id member := Marking.mem_markAll.mpr (.inr (fresh.kept id member))
  queue id member old := by
    rcases Marking.mem_markAll_queue.mp member with waits | ⟨-, new⟩
    · exact fresh.queue id waits old
    · exact new (fresh.kept id old)
  pending id member := fresh.pending id (by rwa [Marking.markAll_pending] at member)

/-- What waits or is due was marked after the start, so a loop that marks nothing leaves nothing to do. -/
theorem Advance.fresh {base : List DeclId} {before after : Marking × List DeclId}
    (step : session.Advance rootChains before after) (fresh : Fresh base before.1) : Fresh base after.1 := by
  cases step with
  | @process marking id queue due waiting =>
    have popped : Fresh base { marking with queue } :=
      { fresh with queue := fun other late => fresh.queue other (by simp [waiting, late]) }
    have marked : Fresh base (Marking.markAll _ (session.declDecls id)) := popped.markAll
    refine ⟨marked.kept, marked.queue, fun other late => ?_⟩
    rcases process_pending.mp late with late | ⟨same, -⟩
    · exact fresh.pending other late
    · exact same ▸ fresh.queue id (by simp [waiting])
  | take => exact ⟨fresh.kept, fresh.queue, fun _ none => by cases none⟩
  | walk => exact fresh.markAll
  | enums => exact fresh.markAll
  | record => exact ⟨fresh.kept, fresh.queue, fresh.pending⟩

theorem Run.fresh {base : List DeclId} {before after : Marking × List DeclId}
    (run : session.Run rootChains before after) (fresh : Fresh base before.1) : Fresh base after.1 := by
  induction run with
  | refl => exact fresh
  | tail _ step ih => exact step.fresh ih

section Ends

variable (rootChains : List ChainId) (inside : session.program.ChainsInside) {marking : Marking}
  (sane : marking.Sane session.program.decls.size)
include inside sane

/-- Every step takes one declaration off the queue, and a declaration joins it once at most. -/
theorem drainFor_queue {fuel : Nat}
    (enough : session.program.decls.size + marking.queue.length ≤ fuel + marking.decls.length) :
    (session.drainFor rootChains fuel marking).queue = [] := by
  induction fuel generalizing marking with
  | zero =>
    have bound := sane.ascending.length_le sane.bounded
    exact List.length_eq_zero_iff.mp (by simp only [drainFor]; omega)
  | succ fuel ih =>
    cases waiting : marking.queue with
    | nil => simp only [drainFor, waiting]
    | cons id queue =>
      simp only [drainFor, waiting]
      have step : session.Advance rootChains (marking, []) (_, []) := .process waiting
      refine ih (step.sane inside sane) ?_
      have lengths := @Marking.markAll_length { marking with queue } (session.declDecls id)
      simp only [waiting, List.length_cons] at enough
      simp only [process]
      dsimp only at lengths
      omega

theorem drain_queue : (session.drain rootChains marking).queue = [] := by
  have queued : marking.queue.length ≤ marking.decls.length :=
    (List.subperm_of_subset sane.unique sane.waiting).length_le
  exact drainFor_queue rootChains inside sane (by omega)

theorem walkBodies_queue (ids : List DeclId) (drained : marking.queue = []) :
    (ids.foldl (session.walkBody rootChains) marking).queue = [] := by
  induction ids generalizing marking with
  | nil => exact drained
  | cons id rest ih =>
    have marked : (marking.markAll (session.bodyDecls id)).Sane session.program.decls.size :=
      sane.markAll fun other => bodyDecls_inside inside
    exact ih (Run.sane (walkBody_run session rootChains marking id []) inside sane)
      (drain_queue rootChains inside marked)

theorem pass_queue (drained : marking.queue = []) : (session.pass rootChains marking).queue = [] := by
  have take : session.Advance rootChains (marking, []) (_, marking.pending ++ []) := .take
  exact walkBodies_queue rootChains inside (take.sane inside sane) marking.pending drained

/-- A pass that leaves bodies to walk has marked their declarations. -/
theorem pass_length (drained : marking.queue = []) (due : (session.pass rootChains marking).pending ≠ []) :
    marking.decls.length < (session.pass rootChains marking).decls.length := by
  obtain ⟨id, member⟩ := List.exists_mem_of_ne_nil _ due
  have start : Fresh marking.decls { marking with pending := [] } :=
    { kept := fun _ old => old, queue := by simp [drained], pending := by simp }
  have walked : session.Run rootChains ({ marking with pending := [] }, marking.pending ++ [])
      (session.pass rootChains marking, []) :=
    (walkBodies_run session rootChains marking.pending [] _).trans (.single (.record _))
  have fresh := Run.fresh walked start
  have ended := Run.sane (pass_run session rootChains marking) inside sane
  exact sane.ascending.length_lt fresh.kept (ended.pending id member) (fresh.pending id member)

/-- A pass leaves no body due, or it has marked something, which happens no more often than there are declarations. -/
theorem passesFor_ends {fuel : Nat} (drained : marking.queue = [])
    (enough : session.program.decls.size + 1 ≤ fuel + marking.decls.length ∨ marking.pending = []) :
    (session.passesFor rootChains fuel marking).queue = [] ∧
      (session.passesFor rootChains fuel marking).pending = [] := by
  induction fuel generalizing marking with
  | zero =>
    have bound := sane.ascending.length_le sane.bounded
    exact ⟨drained, enough.resolve_left (by omega)⟩
  | succ fuel ih =>
    unfold passesFor
    split
    · next idle => exact ⟨drained, List.isEmpty_iff.mp idle⟩
    · next busy =>
      refine ih (Run.sane (pass_run session rootChains marking) inside sane)
        (pass_queue rootChains inside sane drained) ?_
      by_cases done : (session.pass rootChains marking).pending = []
      · exact .inr done
      · have longer := pass_length rootChains inside sane drained done
        have enough := enough.resolve_right fun none => busy (List.isEmpty_iff.mpr none)
        exact .inl (by omega)

theorem settle_ends :
    (session.settle rootChains marking).queue = [] ∧ (session.settle rootChains marking).pending = [] := by
  have stays := Run.sane (drainFor_run session rootChains session.program.decls.size marking []) inside sane
  refine passesFor_ends rootChains inside stays (drain_queue rootChains inside sane) ?_
  by_cases idle : (session.drain rootChains marking).pending = []
  · exact .inr idle
  · obtain ⟨id, member⟩ := List.exists_mem_of_ne_nil _ idle
    have marked := List.length_pos_of_mem (stays.pending id member)
    exact .inl (by dsimp only [drain] at marked ⊢; omega)

omit inside in
theorem markMacroEnums_of_length (drained : marking.queue = [])
    (same : (session.markMacroEnums rootChains marking).decls.length = marking.decls.length) :
    session.markMacroEnums rootChains marking = marking ∧
      ∀ id ∈ session.enumDecls marking.macros, id ∈ marking.decls := by
  have marked : ∀ id ∈ session.enumDecls marking.macros, id ∈ marking.decls := by
    intro id needed
    by_contra new
    have drains := Run.grows (drainFor_run session rootChains session.program.decls.size
      (marking.markAll (session.enumDecls marking.macros)) [])
    have grows := Run.grows (markMacroEnums_run session rootChains marking)
    have longer := sane.ascending.length_lt grows.decls
      (drains.decls id (Marking.mem_markAll.mpr (.inl needed))) new
    exact absurd same longer.ne'
  refine ⟨?_, marked⟩
  change session.drain rootChains (marking.markAll (session.enumDecls marking.macros)) = marking
  rw [Marking.markAll_of_marked marked, drain]
  cases session.program.decls.size with
  | zero => rfl
  | succ fuel => simp only [drainFor, drained]

/-- A round that is not the last one marks at least one declaration. -/
theorem round_length
    (unstable : ¬((session.markMacroEnums rootChains (session.settle rootChains marking)).decls.length =
        (session.settle rootChains marking).decls.length ∧
      (session.markMacroEnums rootChains (session.settle rootChains marking)).pending = [])) :
    marking.decls.length < (session.markMacroEnums rootChains (session.settle rootChains marking)).decls.length := by
  have settled := Run.sane (settle_run session rootChains marking) inside sane
  have kept : Grows marking (session.settle rootChains marking) := Run.grows (settle_run session rootChains marking)
  have grown := Run.grows (markMacroEnums_run session rootChains (session.settle rootChains marking))
  obtain ⟨drained, walked⟩ := settle_ends rootChains inside sane
  have longer : (session.settle rootChains marking).decls.length <
      (session.markMacroEnums rootChains (session.settle rootChains marking)).decls.length := by
    refine lt_of_le_of_ne (List.subperm_of_subset settled.ascending.nodup grown.decls).length_le fun same => ?_
    obtain ⟨unchanged, -⟩ := markMacroEnums_of_length rootChains settled drained same.symm
    exact unstable ⟨same.symm, unchanged ▸ walked⟩
  exact (List.subperm_of_subset sane.ascending.nodup kept.decls).length_le.trans_lt longer

/-- With one round for each declaration of the unit the rounds come to their end. -/
theorem saturateFor_ends {fuel : Nat}
    (enough : session.program.decls.size + 1 ≤ fuel + marking.decls.length) :
    let saturated := session.saturateFor rootChains fuel marking
    saturated.queue = [] ∧ saturated.pending = [] ∧
      ∀ id ∈ session.enumDecls saturated.macros, id ∈ saturated.decls := by
  induction fuel generalizing marking with
  | zero =>
    have bound := sane.ascending.length_le sane.bounded
    omega
  | succ fuel ih =>
    have settled := Run.sane (settle_run session rootChains marking) inside sane
    have extended := Run.sane (markMacroEnums_run session rootChains _) inside settled
    obtain ⟨drained, walked⟩ := settle_ends rootChains inside sane
    unfold saturateFor
    dsimp only
    split
    · next stable =>
      obtain ⟨unchanged, marked⟩ := markMacroEnums_of_length rootChains settled drained stable.1
      rw [unchanged]
      exact ⟨drained, walked, marked⟩
    · next unstable =>
      refine ih extended ?_
      have longer := round_length rootChains inside sane unstable
      omega

end Ends

def chainsOf (session : Session) (roots : List DeclId) : List ChainId :=
  roots.map fun root => (session.program.decl root).chain

def requested (session : Session) (roots : List DeclId) : Marking :=
  ({} : Marking).markAll (roots.flatMap session.upTo)

def saturation (session : Session) (roots : List DeclId) : Marking :=
  session.saturate (session.chainsOf roots) (session.requested roots)

theorem mem_requested {roots : List DeclId} {id : DeclId} :
    id ∈ (session.requested roots).decls ↔ ∃ root ∈ roots, id ∈ session.upTo root := by
  simp only [requested, Marking.mem_markAll, List.mem_flatMap, List.not_mem_nil, or_false]

theorem saturation_run (roots : List DeclId) :
    session.Run (session.chainsOf roots) (session.requested roots, []) (session.saturation roots, []) :=
  saturateFor_run session _ _ _

section Closure

variable (inside : session.program.ChainsInside) {roots : List DeclId}
include inside

theorem requested_sane : (session.requested roots).Sane session.program.decls.size := by
  refine Marking.Sane.markAll ⟨.nil, by simp, by simp, .nil, by simp⟩ fun id member => ?_
  obtain ⟨root, -, member⟩ := List.mem_flatMap.mp member
  exact upTo_inside inside member

theorem saturation_ends : (session.saturation roots).queue = [] ∧ (session.saturation roots).pending = [] ∧
    ∀ id ∈ session.enumDecls (session.saturation roots).macros, id ∈ (session.saturation roots).decls :=
  saturateFor_ends (session.chainsOf roots) inside (requested_sane inside) (Nat.le_add_right _ _)

theorem saturation_served {id : DeclId} (member : id ∈ (session.saturation roots).decls) :
    session.Served (session.chainsOf roots) (session.saturation roots) [] id := by
  refine Run.served (saturation_run roots) (fun other marked idle => ?_) id member ?_
  · obtain ⟨root, known, new⟩ := mem_requested.mp marked
    have waits : other ∈ (session.requested roots).queue :=
      Marking.mem_markAll_queue.mpr (.inr ⟨List.mem_flatMap.mpr ⟨root, known, new⟩, List.not_mem_nil⟩)
    exact absurd waits idle
  · rw [(saturation_ends inside).1]
    exact List.not_mem_nil

/-- The closure holds all that its members need. -/
theorem closureOf_closed :
    session.Closed (session.chainsOf roots) { id | id ∈ (session.closureOf roots).decls }
      { id | id ∈ (session.closureOf roots).macros } where
  needs id member := (saturation_served inside member).needs
  body id member needed := ((saturation_served inside member).body needed).resolve_left (by
    simp [(saturation_ends inside).2.1])
  uses id member := (saturation_served inside member).macros
  enums directive marked expanded other needed :=
    (saturation_ends inside).2.2 other
      (List.mem_flatMap.mpr ⟨directive, List.mem_filter.mpr ⟨marked, expanded⟩, needed⟩)

theorem closureOf_rename {id : DeclId} {rename : Rename} (member : id ∈ (session.closureOf roots).decls)
    (found : session.renameOf? (session.chainsOf roots) id = some rename) :
    ∃ known ∈ (session.closureOf roots).renames, known.symbol = rename.symbol :=
  (saturation_served inside member).rename rename found

theorem closureOf_origin {rename : Rename} (member : rename ∈ (session.closureOf roots).renames) :
    ∃ id ∈ (session.closureOf roots).decls, session.renameOf? (session.chainsOf roots) id = some rename := by
  refine Run.origin (saturation_run roots) inside (requested_sane inside) (fun known late => ?_) rename member
  simp [requested] at late

end Closure

theorem requested_mem_closureOf {roots : List DeclId} {root id : DeclId} (known : root ∈ roots)
    (member : id ∈ session.upTo root) : id ∈ (session.closureOf roots).decls :=
  (Run.grows (saturation_run roots)).decls id (mem_requested.mpr ⟨root, known, member⟩)

/-- The closure holds nothing else. -/
theorem closureOf_least {roots : List DeclId} {decls : Set DeclId} {macros : Set MacroId}
    (closed : session.Closed (session.chainsOf roots) decls macros)
    (known : ∀ root ∈ roots, ∀ id ∈ session.upTo root, id ∈ decls) :
    (∀ id ∈ (session.closureOf roots).decls, id ∈ decls) ∧ ∀ id ∈ (session.closureOf roots).macros, id ∈ macros := by
  have inside : ∀ id ∈ roots.flatMap session.upTo, id ∈ decls := by
    intro id member
    obtain ⟨root, requested, member⟩ := List.mem_flatMap.mp member
    exact known root requested id member
  have empty : session.Within (session.chainsOf roots) decls macros ({}, []) :=
    ⟨by simp, by simp, by simp, by simp⟩
  have ended := Run.within (saturation_run roots) closed (empty.markAll inside)
  exact ⟨ended.marked, ended.used⟩

end Session

end Excerpt
