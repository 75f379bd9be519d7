import Excerpt.Proofs.Closure.Pointers
import Excerpt.Proofs.Draft.Sorts
import Excerpt.Proofs.Draft.Units

namespace Excerpt

section Renames

variable {rename : Rename} {renames : List Rename}

theorem insertRename_ascending (ascending : renames.Pairwise (·.symbol < ·.symbol)) :
    (insertRename rename renames).Pairwise (·.symbol < ·.symbol) := by
  induction renames with
  | nil => exact List.pairwise_singleton _ _
  | cons first rest ih =>
    obtain ⟨below, others⟩ := List.pairwise_cons.mp ascending
    unfold insertRename
    split_ifs with before same
    · apply List.Pairwise.cons _ ascending
      intro known member
      rcases List.mem_cons.mp member with rfl | later
      · exact before
      · exact String.lt_trans before (below known later)
    · exact ascending
    · apply List.Pairwise.cons _ (ih others)
      intro known member
      rcases eq_or_mem_of_mem_insertRename member with rfl | later
      · by_contra late
        exact same (String.le_antisymm (String.not_lt.mp late) (String.not_lt.mp before))
      · exact below known later

theorem find_of_ascending (ascending : renames.Pairwise (·.symbol < ·.symbol)) (member : rename ∈ renames) :
    (renames.find? fun known => some known.symbol == some rename.symbol) = some rename := by
  induction renames with
  | nil => cases member
  | cons first rest ih =>
    obtain ⟨below, others⟩ := List.pairwise_cons.mp ascending
    rcases List.mem_cons.mp member with rfl | later
    · simp
    · have differs : first.symbol ≠ rename.symbol := String.ne_of_lt (below rename later)
      rw [List.find?_cons_of_neg (by simpa using differs)]
      exact ih others later

end Renames

/-- A function or variable at file scope belongs to an entity that opens at file scope under the same name. -/
theorem Program.Laid.exists_head {nesting : Nesting} {program : Program} (laid : program.Laid nesting)
    (sorted : program.WellSorted) {id : Nat} (known : id < program.decls.size)
    (outer : (program.decl id).context = none)
    (symbol : (program.decl id).kind.sort = .symbol) : ∃ head : Nat, head ≤ id ∧
      (program.decl head).chain = (program.decl id).chain ∧ (program.decl head).context = none ∧
      (program.decl head).name = (program.decl id).name ∧
      ∀ earlier : Nat, earlier < head → (program.decl earlier).chain ≠ (program.decl head).chain := by
  induction id using Nat.strong_induction_on with
  | _ id ih =>
    rcases laid.linked known symbol with opens | ⟨earlier, less, chain, above, named⟩
    · exact ⟨id, Nat.le_refl id, rfl, outer, rfl, opens⟩
    · have inside : earlier < program.decls.size := less.trans known
      have sort := sorted.chains earlier id inside known chain
      obtain ⟨head, below, joins, top, same, first⟩ := ih earlier less inside above (sort.trans symbol)
      exact ⟨head, below.trans less.le, joins.trans chain, top, same.trans named, first⟩

namespace Session

variable {session : Session}

theorem IsRead.wellSorted (read : session.IsRead) : session.program.WellSorted := by
  obtain ⟨files, search, path, document, same⟩ := read
  exact same ▸ Program.ofDocument_wellSorted files search path document

def firstMarked? (session : Session) (closure : Closure) (chain : ChainId) : Option DeclId :=
  (session.program.chain chain).find? fun id => closure.decls.contains id && (session.program.decl id).isFileScope

section Runs

variable {rootChains : List ChainId} {before after : Marking × List DeclId}

/-- Pointers are kept in the order of their symbols, so a look-up by symbol finds the only one. -/
theorem Advance.renames_ascending (step : session.Advance rootChains before after)
    (ascending : before.1.renames.Pairwise (·.symbol < ·.symbol)) :
    after.1.renames.Pairwise (·.symbol < ·.symbol) := by
  cases step with
  | @process marking id queue due waiting =>
    simp only [Session.process, Marking.markAll_renames]
    split
    · exact insertRename_ascending ascending
    · exact ascending
  | take => exact ascending
  | walk => rwa [Marking.markAll_renames]
  | enums => rwa [Marking.markAll_renames]
  | record => exact ascending

theorem Run.renames_ascending (run : session.Run rootChains before after)
    (ascending : before.1.renames.Pairwise (·.symbol < ·.symbol)) :
    after.1.renames.Pairwise (·.symbol < ·.symbol) := by
  induction run with
  | refl => exact ascending
  | tail _ step ih => exact step.renames_ascending ih

end Runs

section Earlier

variable (consistent : session.program.Consistent) {member other : DeclId}
  (listed : other ∈ session.program.redecls member) (before : other ≤ member)
include consistent listed before

/-- Whatever marks a declaration marks the earlier declarations of its entity too. The rules below inherit this. -/
theorem MarkedWith.earlier {id : DeclId} (marked : session.MarkedWith id member) : session.MarkedWith id other := by
  obtain ⟨last, own, present, below⟩ := marked
  refine ⟨last, own, ?_, Nat.le_trans before below⟩
  rwa [Program.redecls, consistent.chain_of_mem present] at listed

theorem TypeNeeds.earlier {context : Option DeclId} {type : TypeId} (needed : session.TypeNeeds context type member) :
    session.TypeNeeds context type other := by
  obtain ⟨part, named, inside, names, marked⟩ := needed
  exact ⟨part, named, inside, names, marked.earlier consistent listed before⟩

theorem DeclNeeds.earlier {id : DeclId} (needed : session.DeclNeeds id member) : session.DeclNeeds id other := by
  cases needed with
  | type declared needed => exact .type declared (needed.earlier consistent listed before)
  | constant kind present marked => exact .constant kind present (marked.earlier consistent listed before)
  | owner kind marked => exact .owner kind (marked.earlier consistent listed before)

theorem NodeNeeds.earlier {id : DeclId} {kind : StmtKind} (needed : session.NodeNeeds id kind member) :
    session.NodeNeeds id kind other := by
  obtain ⟨shared, marked⟩ | ⟨kind, needed⟩ | ⟨kind, present, below⟩ | ⟨needed⟩ := needed
  · exact .reference shared (marked.earlier consistent listed before)
  · exact .variable kind (needed.earlier consistent listed before)
  · apply NodeNeeds.declaration kind
    rw [Program.redecls, consistent.chain_of_mem present] at listed
    exact ⟨listed, Nat.le_trans before below⟩
  · exact .type (needed.earlier consistent listed before)

theorem BodyNeeds.earlier {id : DeclId} (needed : session.BodyNeeds id member) : session.BodyNeeds id other := by
  obtain ⟨body, stmt, found, reached, needed⟩ := needed
  exact ⟨body, stmt, found, reached, needed.earlier consistent listed before⟩

theorem ReplacementNeeds.earlier {directive : MacroId} (needed : session.ReplacementNeeds directive member) :
    session.ReplacementNeeds directive other := by
  obtain ⟨name, present, constant, declared, owner, owned, marked⟩ := needed
  exact ⟨name, present, constant, declared, owner, owned, marked.earlier consistent listed before⟩

end Earlier

section Closures

variable {requested : List String} {closure : Closure} (consistent : session.program.Consistent)
  (found : session.closure requested = .ok closure)
include consistent found

theorem closure_lt {id : DeclId} (marked : id ∈ closure.decls) : id < session.program.decls.size := by
  obtain ⟨roots, -, rfl⟩ := closure_eq_ok found
  exact (Run.sane (saturation_run roots) consistent.chainsInside (requested_sane consistent.chainsInside)).bounded
    id marked

omit consistent in
theorem closure_renames_ascending : closure.renames.Pairwise (·.symbol < ·.symbol) := by
  obtain ⟨roots, -, rfl⟩ := closure_eq_ok found
  apply Run.renames_ascending (saturation_run roots)
  rw [Session.requested, Marking.markAll_renames]
  exact .nil

omit consistent in
theorem renameFor_of_mem {rename : Rename} (member : rename ∈ closure.renames) {id : DeclId}
    (named : (session.program.decl id).name = some rename.symbol)
    (chain : rename.chain = (session.program.decl id).chain) :
    closure.renameFor? session.program id = some rename := by
  apply Closure.renameFor_eq_some.mpr
  rw [named]
  exact ⟨find_of_ascending (closure_renames_ascending found) member, chain⟩

/-- With a declaration all earlier declarations of its entity are marked, so an entity is marked from its first
declaration on. -/
theorem earlier_marked {id earlier : DeclId} (marked : id ∈ closure.decls)
    (listed : earlier ∈ session.program.redecls id) (before : earlier ≤ id) : earlier ∈ closure.decls := by
  have obeys := closure_obeys consistent found
  -- The declarations that are marked with all earlier ones obey the rules, so they are all that is marked.
  have kept : session.Obeys requested
      { id | id ∈ closure.decls ∧ ∀ other ∈ session.program.redecls id, other ≤ id → other ∈ closure.decls }
      { directive | directive ∈ closure.macros } := by
    refine ⟨fun name asked chain own last representative member present below => ⟨?_, fun other listed before => ?_⟩,
      fun id facts member needed => ⟨?_, fun other listed before => ?_⟩,
      fun id facts plain member needed => ⟨?_, fun other listed before => ?_⟩,
      fun id facts => obeys.uses id facts.1,
      fun directive present expanded member needed => ⟨?_, fun other listed before => ?_⟩⟩
    · exact obeys.requests name asked chain own last representative member present below
    · rw [Program.redecls, consistent.chain_of_mem present] at listed
      exact obeys.requests name asked chain own last representative other listed (Nat.le_trans before below)
    · exact obeys.declarations id facts.1 member needed
    · exact obeys.declarations id facts.1 other (needed.earlier consistent listed before)
    · exact obeys.bodies id facts.1 plain member needed
    · exact obeys.bodies id facts.1 plain other (needed.earlier consistent listed before)
    · exact obeys.replacements directive present expanded member needed
    · exact obeys.replacements directive present expanded other (needed.earlier consistent listed before)
  exact ((closure_subset consistent found kept).1 id marked).2 earlier listed before

end Closures

/-- The pointer of a symbol is found at the first declaration of its entity, which opens the chain and is marked. -/
theorem firstMarked_of_mem (sound : session.IsSound) {requested : List String} {closure : Closure}
    (found : session.closure requested = .ok closure) {rename : Rename} (member : rename ∈ closure.renames) :
    ∃ first : Nat, session.firstMarked? closure rename.chain = some first ∧ first ∈ closure.decls ∧
      (session.program.decl first).context = none ∧ (session.program.decl first).kind.sort = .symbol ∧
      rename.chain = (session.program.decl first).chain ∧ closure.renameFor? session.program first = some rename ∧
      ∀ earlier : Nat, earlier < first → (session.program.decl earlier).chain ≠ rename.chain := by
  have consistent := sound.isRead.consistent
  have sorted := sound.isRead.wellSorted
  obtain ⟨id, marked, external, named, chain⟩ := exists_externalized consistent found member
  have known := closure_lt consistent found marked
  obtain ⟨fileScope, kind⟩ := isSymbol_of_rename (isExternalized_iff.mp external).2.2
  have symbol : (session.program.decl id).kind.sort = .symbol := by
    cases shape : (session.program.decl id).kind <;> rw [shape] at kind <;>
      simp [DeclKind.isFunction, DeclKind.isVar, DeclKind.sort] at kind ⊢
  obtain ⟨head, below, joins, outer, same, first⟩ :=
    sound.laid.exists_head sorted known (Option.isNone_iff_eq_none.mp fileScope) symbol
  have inside : head < session.program.decls.size := Nat.lt_of_le_of_lt below known
  have listed : head ∈ session.program.redecls id := (consistent.chains _ head).mpr ⟨inside, joins⟩
  have headMarked := earlier_marked consistent found marked listed below
  have own : rename.chain = (session.program.decl head).chain := chain.trans joins.symm
  refine ⟨head, ?_, headMarked, outer, (sorted.chains head id inside known joins).trans symbol, own,
    renameFor_of_mem found member (same.trans named) own, fun earlier less => own ▸ first earlier less⟩
  obtain ⟨front, back, split⟩ := List.append_of_mem ((consistent.chains rename.chain head).mpr ⟨inside, own.symm⟩)
  have ascending := consistent.ascending rename.chain
  rw [split] at ascending
  refine List.find?_eq_some_iff_append.mpr ⟨?_, front, back, split, fun other before => ?_⟩
  · simpa [Decl.isFileScope, outer] using headMarked
  · have less : other < head := (List.pairwise_append.mp ascending).2.2 other before head List.mem_cons_self
    have present : other ∈ session.program.chain rename.chain := by simp [split, before]
    exact absurd ((consistent.chain_of_mem present).trans own) (first other less)

end Session

end Excerpt
