import Excerpt.Proofs.Draft.Consistency

namespace Excerpt

namespace Program

structure WellSorted (program : Program) : Prop where
  chains : ∀ first second, first < program.decls.size → second < program.decls.size →
    (program.decl first).chain = (program.decl second).chain →
    (program.decl first).kind.sort = (program.decl second).kind.sort
  named : ∀ type id, (program.type type).named? = some id → (program.decl id).kind.sort ≠ .symbol
  owners : ∀ id value owner init, (program.decl id).kind = .enumConstant value owner init →
    (program.decl owner).kind.sort = .tag

variable {program : Program}

theorem WellSorted.congr {other : Program} (sorted : program.WellSorted) (decls : other.decls = program.decls)
    (types : other.types = program.types) : other.WellSorted := by
  have decl : other.decl = program.decl := by funext id; simp only [Program.decl, decls]
  have type : other.type = program.type := by funext id; simp only [Program.type, types]
  constructor
  · rw [decl, decls]
    exact sorted.chains
  · rw [decl, type]
    exact sorted.named
  · rw [decl]
    exact sorted.owners

theorem WellSorted.pushType (sorted : program.WellSorted) {type : CType}
    (named : ∀ id, type.named? = some id → (program.decl id).kind.sort ≠ .symbol) :
    ({ program with types := program.types.push type } : Program).WellSorted := by
  refine ⟨sorted.chains, fun place id found => ?_, sorted.owners⟩
  simp only [Program.type, Array.getD_eq_getD_getElem?, Array.getElem?_push] at found
  split at found
  · exact named id found
  · exact sorted.named place id (by simpa only [Program.type, Array.getD_eq_getD_getElem?] using found)

section AddDecl

variable (consistent : program.Consistent) (sorted : program.WellSorted) {decl : Decl} {previous : Option DeclId}
  (continues : ∀ earlier, previous = some earlier →
    earlier < program.decls.size ∧ (program.decl earlier).kind.sort = decl.kind.sort)
include consistent sorted continues

theorem sort_of_nextChain {id : DeclId} (inside : id < program.decls.size)
    (joined : (program.decl id).chain = program.nextChain previous) : (program.decl id).kind.sort = decl.kind.sort := by
  cases previous with
  | none => exact absurd joined (consistent.chain_lt inside).ne
  | some earlier =>
    obtain ⟨known, same⟩ := continues earlier rfl
    exact (sorted.chains id earlier inside known joined).trans same

/-- A declaration continues one of its own sort, so all declarations of an entity have one sort. -/
theorem WellSorted.addDecl (owned : ∀ value owner init, decl.kind = .enumConstant value owner init →
      (program.decl owner).kind.sort = .tag) : (program.addDecl decl previous).WellSorted := by
  have stays : ∀ {id : DeclId} {sort : DeclSort}, (program.decl id).kind.sort = sort → sort ≠ .symbol →
      ((program.addDecl decl previous).decl id).kind.sort = sort := by
    intro id sort known plain
    rwa [decl_addDecl_of_lt (lt_size_of_sort known plain)]
  constructor
  · intro first second firstInside secondInside same
    have old : ∀ {id : Nat}, id < (program.addDecl decl previous).decls.size → ¬id = program.decls.size →
        id < program.decls.size := by
      intro id inside
      rw [addDecl_size] at inside
      omega
    simp only [decl_addDecl] at same ⊢
    split_ifs at same ⊢ with firstNew secondNew secondNew
    · rfl
    · exact (sort_of_nextChain consistent sorted continues (old secondInside secondNew) same.symm).symm
    · exact sort_of_nextChain consistent sorted continues (old firstInside firstNew) same
    · exact sorted.chains first second (old firstInside firstNew) (old secondInside secondNew) same
  · intro type id found
    have known := sorted.named type id (by cases previous <;> exact found)
    rwa [stays rfl known]
  · intro id value owner init kind
    rw [decl_addDecl] at kind
    split_ifs at kind
    · exact stays (owned value owner init kind) (by decide)
    · exact stays (sorted.owners id value owner init kind) (by decide)

end AddDecl

/-- A revision keeps the sort, and the owner of an enum constant. -/
theorem WellSorted.modifyDecl {draft : Draft} (sorted : draft.program.WellSorted) {id : DeclId} {change : Decl → Decl}
    (revises : draft.Revises id (draft.program.decl id) (change (draft.program.decl id))) :
    (draft.program.modifyDecl id change).WellSorted := by
  have same : ∀ other, ((draft.program.modifyDecl id change).decl other).chain = (draft.program.decl other).chain ∧
      ((draft.program.modifyDecl id change).decl other).kind.sort = (draft.program.decl other).kind.sort := by
    intro other
    rw [decl_modifyDecl]
    split_ifs with changed
    · rw [revises.chain, revises.sort, changed.1]
      exact ⟨rfl, rfl⟩
    · exact ⟨rfl, rfl⟩
  constructor
  · intro first second firstInside secondInside chain
    rw [modifyDecl_size] at firstInside secondInside
    rw [(same first).1, (same second).1] at chain
    rw [(same first).2, (same second).2]
    exact sorted.chains first second firstInside secondInside chain
  · intro type other found
    rw [(same other).2]
    exact sorted.named type other found
  · intro other value owner init kind
    rw [(same owner).2]
    rw [decl_modifyDecl] at kind
    split_ifs at kind with changed
    · exact sorted.owners id value owner init (revises.owner value owner init kind ▸ kind)
    · exact sorted.owners other value owner init kind

end Program

namespace Draft

theorem Nameable.sort_ne {draft : Draft} {id : DeclId} (nameable : draft.Nameable id) (consistent : draft.Consistent) :
    (draft.program.decl id).kind.sort ≠ .symbol := by
  cases nameable with
  | tag member bound =>
    have tag := (consistent.scopes _ member).tags _ bound
    rw [DeclKind.isTag_eq, decide_eq_true_eq] at tag
    simp [tag]
  | plain sort => exact sort

theorem Step.wellSorted {base : Nat} {before after : Draft} (step : Step base before after)
    (consistent : before.Consistent) (sorted : before.program.WellSorted) : after.program.WellSorted := by
  cases step with
  | frame | enter | leave | fileTag => exact sorted
  | intern type named => exact sorted.pushType fun id found => (named id found).sort_ne consistent
  | declare decl previous isNew continues owned =>
    exact sorted.addDecl consistent.program (fun earlier found => (continues earlier found).1.known consistent) owned
  | ordinary => rwa [bindOrdinary_program]
  | tag => rwa [bindTag_program]
  | revise id since change revises => exact sorted.modifyDecl revises

theorem Steps.wellSorted {before after : Draft} (steps : before.Steps after) (consistent : before.Consistent)
    (sorted : before.program.WellSorted) : after.program.WellSorted := by
  induction steps with
  | refl => exact sorted
  | tail earlier step ih => exact step.wellSorted (Steps.consistent earlier consistent) ih

end Draft

theorem kept_wellSorted : Drafting.Kept (fun _ => True) fun draft => draft.Consistent ∧ draft.program.WellSorted := by
  refine .ofSteps (fun held same => ?_) fun steps held => ?_
  · exact ⟨held.1.congr same.decls same.chains same.fileScope same.blocks, held.2.congr same.decls same.types⟩
  · exact ⟨steps.consistent held.1, steps.wellSorted held.1 held.2⟩

theorem Program.ofDocument_wellSorted (files : FileSystem) (search : SearchPath) (path : String) (document : Document) :
    (Program.ofDocument files search path document).WellSorted := by
  have empty : ({} : Program).WellSorted := by
    refine ⟨fun first second outside => ?_, fun type id found => ?_, fun id value owner init kind => ?_⟩
    · cases outside
    · cases found
    · cases kind
  obtain ⟨draft, held, same⟩ := Program.exists_draft_of_kept kept_wellSorted ⟨Draft.consistent_empty, empty⟩
    (fun _ _ _ _ _ => trivial) fun _ _ => trivial
  exact same ▸ held.2.congr rfl rfl

end Excerpt
