import Excerpt.Proofs.Draft.Tour

namespace Excerpt

namespace Program

structure Consistent (program : Program) : Prop where
  chains : ∀ (chain : ChainId) (id : Nat), id ∈ program.chain chain ↔
    id < program.decls.size ∧ (program.decl id).chain = chain
  ascending : ∀ chain, (program.chain chain).Pairwise (· < ·)
  constants : ∀ id constants complete, (program.decl id).kind = .enumeration constants complete →
    ∀ constant ∈ constants, (program.decl constant).kind.isEnumConstant = true
  alone : ∀ id, (program.decl id).kind.isEnumConstant = true → program.redecls id = [id]
  locals : program.LocalsAscend

variable {program : Program}

theorem Consistent.chain_lt (consistent : program.Consistent) {id : DeclId} (inside : id < program.decls.size) :
    (program.decl id).chain < program.chains.size := by
  have member := (consistent.chains _ id).mpr ⟨inside, rfl⟩
  by_contra outside
  simp [chain, Array.getD, outside] at member

section AddDecl

variable (consistent : program.Consistent) {decl : Decl} {previous : Option DeclId}
  (continues : ∀ earlier, previous = some earlier → earlier < program.decls.size ∧
    (program.decl earlier).kind.isEnumConstant = false ∧ decl.kind.isEnumConstant = false)
include consistent continues

theorem mem_chain_addDecl {chain : ChainId} {id : Nat} :
    id ∈ (program.addDecl decl previous).chain chain ↔
      id ∈ program.chain chain ∨ id = program.decls.size ∧ chain = program.nextChain previous := by
  rw [chain_addDecl fun earlier found => consistent.chain_lt (continues earlier found).1]
  split_ifs with same <;> simp [same]

theorem nextChain_ne {id : DeclId} (constant : (program.decl id).kind.isEnumConstant = true) :
    (program.decl id).chain ≠ program.nextChain previous := by
  intro same
  cases previous with
  | none => exact absurd same (consistent.chain_lt (lt_size_of_isEnumConstant constant)).ne
  | some earlier =>
    obtain ⟨inside, plain, -⟩ := continues earlier rfl
    have member : earlier ∈ program.redecls id := (consistent.chains _ earlier).mpr ⟨inside, same.symm⟩
    rw [consistent.alone id constant, List.mem_singleton] at member
    rw [member, constant] at plain
    cases plain

/-- A new declaration has the largest number, so its chain stays ascending and divides the others as before. -/
theorem Consistent.addDecl (isNew : decl.kind.IsNew) : (program.addDecl decl previous).Consistent := by
  have joined : ∀ earlier, previous = some earlier → (program.decl earlier).chain < program.chains.size :=
    fun earlier found => consistent.chain_lt (continues earlier found).1
  refine ⟨fun chain id => ?_, fun chain => ?_, fun id constants complete kind constant member => ?_,
    fun id constant => ?_, fun id type init kind => ?_⟩
  · rw [mem_chain_addDecl consistent continues, consistent.chains, decl_addDecl, addDecl_size]
    split_ifs with last
    · simp [last, eq_comm]
    · have differs : id ≠ program.decls.size := last
      simp only [last, false_and, or_false]
      exact and_congr_left fun _ => by omega
  · rw [chain_addDecl joined]
    split_ifs
    · refine List.pairwise_append.mpr ⟨consistent.ascending chain, List.pairwise_singleton _ _, ?_⟩
      intro id member last isLast
      rw [List.mem_singleton.mp isLast]
      exact ((consistent.chains chain id).mp member).1
    · exact consistent.ascending chain
  · rw [decl_addDecl] at kind
    split_ifs at kind
    · have none : constants = [] := by
        rw [show decl.kind = _ from kind] at isNew
        exact isNew
      simp [none] at member
    · have known := consistent.constants id constants complete kind constant member
      rwa [decl_addDecl_of_lt (lt_size_of_isEnumConstant known)]
  · rw [decl_addDecl] at constant
    simp only [redecls, decl_addDecl]
    split_ifs at constant ⊢ with last
    · cases previous with
      | none =>
        have empty : program.chain program.chains.size = [] := by simp [chain]
        simp [chain_addDecl joined, nextChain, empty, last]
      | some earlier => exact absurd constant (by simp [(continues earlier rfl).2.2])
    · rw [chain_addDecl joined, if_neg (nextChain_ne consistent continues constant)]
      exact consistent.alone id constant
  · rw [decl_addDecl] at kind
    split_ifs at kind
    · rw [show decl.kind = _ from kind] at isNew
      cases isNew
    · exact consistent.locals id type init kind

end AddDecl

/-- A revision changes parts of a kind only: the chain, the owner and the order of locals stay. -/
theorem Consistent.modifyDecl (consistent : program.Consistent) {id : DeclId} {change : Decl → Decl} {draft : Draft}
    (same : draft.program = program) (revises : draft.Revises id (program.decl id) (change (program.decl id))) :
    (program.modifyDecl id change).Consistent := by
  subst same
  have chain : ∀ other, ((draft.program.modifyDecl id change).decl other).chain = (draft.program.decl other).chain := by
    intro other
    rw [decl_modifyDecl]
    split_ifs with same
    · rw [revises.chain, same.1]
    · rfl
  have constant : ∀ other, ((draft.program.modifyDecl id change).decl other).kind.isEnumConstant =
      (draft.program.decl other).kind.isEnumConstant := by
    intro other
    rw [decl_modifyDecl]
    split_ifs with same
    · rw [DeclKind.isEnumConstant_eq, revises.sort, ← DeclKind.isEnumConstant_eq, same.1]
    · rfl
  refine ⟨fun link other => ?_, consistent.ascending, fun other constants complete kind member isMember => ?_,
    fun other isConstant => ?_, fun other type init kind => ?_⟩
  · rw [chain, modifyDecl_size]
    exact consistent.chains link other
  · rw [constant]
    rw [decl_modifyDecl] at kind
    split_ifs at kind with same
    · rcases revises.constants constants complete kind with unchanged | known
      · exact consistent.constants id constants complete (unchanged ▸ kind) member isMember
      · exact known member isMember
    · exact consistent.constants other constants complete kind member isMember
  · rw [redecls, chain]
    rw [constant] at isConstant
    exact consistent.alone other isConstant
  · rw [decl_modifyDecl] at kind
    split_ifs at kind with same
    · rw [same.1]
      rcases revises.init type init kind with unchanged | later
      · exact consistent.locals id type init (unchanged ▸ kind)
      · exact later
    · exact consistent.locals other type init kind

theorem Consistent.congr {other : Program} (consistent : program.Consistent) (decls : other.decls = program.decls)
    (chains : other.chains = program.chains) : other.Consistent := by
  have decl : other.decl = program.decl := by funext id; simp only [Program.decl, decls]
  have chain : other.chain = program.chain := by funext id; simp only [Program.chain, chains]
  refine ⟨?_, ?_, ?_, ?_, ?_⟩
  · rw [chain, decl, decls]
    exact consistent.chains
  · rw [chain]
    exact consistent.ascending
  · rw [decl]
    exact consistent.constants
  · intro id
    rw [redecls, chain, decl]
    exact consistent.alone id
  · rw [LocalsAscend, decl]
    exact consistent.locals

end Program

/-- A scope binds names to declarations of the table, and tags to tags. -/
structure Scope.Sound (program : Program) (scope : Scope) : Prop where
  ordinary : ∀ entry ∈ scope.ordinary, entry.2 < program.decls.size
  tags : ∀ entry ∈ scope.tags, (program.decl entry.2).kind.isTag = true

namespace Scope

variable {program : Program} {scope : Scope} {name : String} {id : DeclId}

theorem Sound.mono {later : Program} (sound : scope.Sound program) (size : program.decls.size ≤ later.decls.size)
    (tags : ∀ id, (program.decl id).kind.isTag = true → (later.decl id).kind.isTag = true) : scope.Sound later :=
  ⟨fun entry bound => Nat.lt_of_lt_of_le (sound.ordinary entry bound) size,
    fun entry bound => tags entry.2 (sound.tags entry bound)⟩

theorem Sound.bindOrdinary (sound : scope.Sound program) (known : id < program.decls.size) :
    ({ scope with ordinary := (name, id) :: scope.ordinary } : Scope).Sound program :=
  ⟨List.forall_mem_cons.mpr ⟨known, sound.ordinary⟩, sound.tags⟩

theorem Sound.bindTag (sound : scope.Sound program) (known : (program.decl id).kind.isTag = true) :
    ({ scope with tags := (name, id) :: scope.tags } : Scope).Sound program :=
  ⟨sound.ordinary, List.forall_mem_cons.mpr ⟨known, sound.tags⟩⟩

end Scope

namespace Draft

structure Consistent (draft : Draft) : Prop where
  program : draft.program.Consistent
  scopes : ∀ scope ∈ draft.scopes, scope.Sound draft.program

theorem Consistent.congr {draft other : Draft} (consistent : draft.Consistent)
    (decls : other.program.decls = draft.program.decls) (chains : other.program.chains = draft.program.chains)
    (fileScope : other.fileScope = draft.fileScope) (blocks : other.blocks = draft.blocks) : other.Consistent := by
  refine ⟨consistent.program.congr decls chains, fun scope member => ?_⟩
  rw [Draft.scopes, fileScope, blocks] at member
  refine (consistent.scopes scope member).mono (by rw [decls]) fun id tag => ?_
  rwa [Program.decl, decls]

theorem mem_scopes_modifyInnermost {draft : Draft} {change : Scope → Scope} {scope : Scope}
    (member : scope ∈ (draft.modifyInnermost change).scopes) :
    scope ∈ draft.scopes ∨ scope = change draft.innermost := by
  unfold modifyInnermost at member
  unfold scopes innermost
  cases blocks : draft.blocks with
  | nil =>
    simp only [blocks, scopes, List.nil_append, List.mem_singleton] at member
    exact .inr member
  | cons first rest =>
    simp only [blocks, scopes, List.cons_append, List.mem_cons] at member
    rcases member with same | member
    · exact .inr same
    · exact .inl (List.mem_cons_of_mem _ member)

theorem Consistent.modifyInnermost {draft other : Draft} {change : Scope → Scope} (consistent : draft.Consistent)
    (result : other = draft.modifyInnermost change) (program : other.program = draft.program)
    (sound : ∀ scope : Scope, scope.Sound draft.program → (change scope).Sound draft.program) : other.Consistent := by
  refine ⟨program ▸ consistent.program, fun scope member => ?_⟩
  rw [result] at member
  rw [program]
  rcases mem_scopes_modifyInnermost member with member | rfl
  · exact consistent.scopes scope member
  · exact sound _ (consistent.scopes _ draft.innermost_mem_scopes)

theorem Continues.known {draft : Draft} {sort : DeclSort} {id : DeclId} (continues : draft.Continues sort id)
    (consistent : draft.Consistent) :
    id < draft.program.decls.size ∧ (draft.program.decl id).kind.sort = sort := by
  cases continues with
  | ordinary member bound same => exact ⟨(consistent.scopes _ member).ordinary _ bound, same⟩
  | tag member bound same =>
    have tag := (consistent.scopes _ member).tags _ bound
    refine ⟨Program.lt_size_of_isTag tag, ?_⟩
    rwa [DeclKind.isTag_eq, decide_eq_true_eq, ← same] at tag

theorem Step.consistent {base : Nat} {before after : Draft} (step : Step base before after)
    (consistent : before.Consistent) : after.Consistent := by
  cases step with
  | frame => exact consistent.congr rfl rfl rfl rfl
  | intern => exact consistent.congr rfl rfl rfl rfl
  | enter =>
    refine ⟨consistent.program, fun scope member => ?_⟩
    rcases List.mem_cons.mp member with rfl | member
    · exact ⟨fun _ none => (List.not_mem_nil none).elim, fun _ none => (List.not_mem_nil none).elim⟩
    · exact consistent.scopes scope member
  | leave =>
    refine ⟨consistent.program, fun scope member => consistent.scopes scope ?_⟩
    rcases List.mem_append.mp member with member | member
    · exact List.mem_append_left _ (List.mem_of_mem_tail member)
    · exact List.mem_append_right _ member
  | declare decl previous isNew continues =>
    refine ⟨consistent.program.addDecl (fun earlier found => ?_) isNew, fun scope member => ?_⟩
    · obtain ⟨continues, plain⟩ := continues earlier found
      obtain ⟨inside, same⟩ := continues.known consistent
      simp only [DeclKind.isEnumConstant_eq, decide_eq_false_iff_not]
      exact ⟨inside, same ▸ plain, plain⟩
    · refine (consistent.scopes scope member).mono (by simp) fun id tag => ?_
      dsimp only
      rwa [Program.decl_addDecl_of_lt (Program.lt_size_of_isTag tag)]
  | ordinary name id known =>
    exact consistent.modifyInnermost rfl (bindOrdinary_program _ _ _) fun _ sound => sound.bindOrdinary known
  | tag name id known =>
    exact consistent.modifyInnermost rfl (bindTag_program _ _ _) fun _ sound => sound.bindTag known
  | fileTag name id known =>
    refine ⟨consistent.program, fun scope member => ?_⟩
    rcases List.mem_append.mp member with member | member
    · exact consistent.scopes scope (List.mem_append_left _ member)
    · rw [List.mem_singleton.mp member]
      exact (consistent.scopes _ before.fileScope_mem_scopes).bindTag known
  | revise id since change revises =>
    refine ⟨consistent.program.modifyDecl rfl revises, fun scope member => ?_⟩
    refine (consistent.scopes scope member).mono (by simp) fun other tag => ?_
    dsimp only
    rw [Program.decl_modifyDecl]
    split_ifs with same
    · rw [DeclKind.isTag_eq, revises.sort, ← DeclKind.isTag_eq, ← same.1, tag]
    · exact tag

theorem Steps.consistent {before after : Draft} (steps : before.Steps after) (consistent : before.Consistent) :
    after.Consistent := by
  induction steps with
  | refl => exact consistent
  | tail _ step ih => exact step.consistent ih

theorem consistent_empty : ({} : Draft).Consistent := by
  refine ⟨⟨?_, ?_, ?_, ?_, ?_⟩, ?_⟩
  · simp [Program.chain]
  · simp [Program.chain]
  · intro id constants complete kind
    cases kind
  · intro id constant
    cases constant
  · intro id type init kind
    cases kind
  · intro scope member
    rw [List.mem_singleton.mp member]
    exact ⟨fun _ none => (List.not_mem_nil none).elim, fun _ none => (List.not_mem_nil none).elim⟩

end Draft

theorem kept_consistent : Drafting.Kept (fun _ => True) Draft.Consistent :=
  .ofSteps (fun consistent same => consistent.congr same.decls same.chains same.fileScope same.blocks)
    Draft.Steps.consistent

theorem Program.ofDocument_consistent (files : FileSystem) (search : SearchPath) (path : String) (document : Document) :
    (Program.ofDocument files search path document).Consistent := by
  obtain ⟨draft, consistent, same⟩ :=
    Program.exists_draft_of_kept kept_consistent Draft.consistent_empty (fun _ _ _ _ _ => trivial) fun _ _ => trivial
  exact same ▸ consistent.program.congr rfl rfl

end Excerpt
