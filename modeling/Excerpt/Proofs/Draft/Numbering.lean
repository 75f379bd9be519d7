import Excerpt.Proofs.Draft.Tracing

namespace Excerpt

/-- An item wrote a directive: it says the same of the same name, at its place. -/
structure Opening.Wrote (opening : Opening) (directive : MacroDirective) : Prop where
  said : opening.item.form.macro? = some (directive.name, directive.kind)
  span : directive.span = opening.draft.span
  item : directive.item = opening.draft.item

/-- Every directive was written by an item, and none is changed later. -/
theorem Opening.Relays.directive {first last : Array MacroDirective} {openings : List Opening}
    (relays : Opening.Relays first openings last) :
    (∀ id : Nat, id < first.size → id < last.size ∧ last.getD id default = first.getD id default) ∧
      ∀ id : Nat, first.size ≤ id → id < last.size →
        ∃ opening ∈ openings, opening.Wrote (last.getD id default) := by
  induction openings generalizing first with
  | nil =>
    rw [relays]
    exact ⟨fun id inside => ⟨inside, rfl⟩, fun id new inside => absurd inside (Nat.not_lt.mpr new)⟩
  | cons opening rest ih =>
    obtain ⟨rfl, behind⟩ := relays
    obtain ⟨kept, added⟩ := ih behind
    cases said : opening.item.form.macro? with
    | none =>
      have same : opening.macros = opening.draft.program.macros := by simp only [Opening.macros, said]
      rw [same] at kept added
      refine ⟨kept, fun id new inside => ?_⟩
      obtain ⟨other, member, wrote⟩ := added id new inside
      exact ⟨other, List.mem_cons_of_mem _ member, wrote⟩
    | some pair =>
      have pushed : opening.macros = opening.draft.program.macros.push
          { name := pair.1, kind := pair.2, span := opening.draft.span
            pos := ⟨opening.draft.item, opening.draft.span.start⟩, item := opening.draft.item } := by
        simp only [Opening.macros, said]
      rw [pushed] at kept added
      simp only [Array.size_push] at kept added
      refine ⟨fun id inside => ?_, fun id new inside => ?_⟩
      · obtain ⟨below, same⟩ := kept id (Nat.lt_succ_of_lt inside)
        refine ⟨below, same.trans ?_⟩
        simp [Array.getD_eq_getD_getElem?, Array.getElem?_push, Nat.ne_of_lt inside]
      · by_cases own : id = opening.draft.program.macros.size
        · refine ⟨opening, List.mem_cons_self, ?_⟩
          rw [(kept id (by omega)).2, own]
          constructor <;> simp [said]
        · obtain ⟨other, member, wrote⟩ := added id (by omega) inside
          exact ⟨other, List.mem_cons_of_mem _ member, wrote⟩

def Program.Occupied (program : Program) : Prop :=
  ∀ chain : Nat, chain < program.chains.size → program.chain chain ≠ []

theorem Program.Occupied.congr {program other : Program} (occupied : program.Occupied)
    (chains : other.chains = program.chains) : other.Occupied := by
  intro chain inside
  rw [Program.chain, chains, ← Program.chain]
  exact occupied chain (chains ▸ inside)

/-- No chain is empty, since a chain is opened by its first declaration and never loses one. -/
theorem Program.Occupied.addDecl {program : Program} (occupied : program.Occupied) {decl : Decl}
    {previous : Option DeclId}
    (joined : ∀ earlier, previous = some earlier → (program.decl earlier).chain < program.chains.size) :
    (program.addDecl decl previous).Occupied := by
  intro chain inside
  rw [chain_addDecl joined]
  split
  · simp
  · next other =>
    apply occupied
    cases previous with
    | some earlier => simpa [Program.addDecl] using inside
    | none =>
      simp only [Program.addDecl, Array.size_push] at inside
      have differs : chain ≠ program.chains.size := other
      omega

theorem Draft.Step.occupied {base : Nat} {before after : Draft} (step : Step base before after)
    (consistent : before.Consistent) (occupied : before.program.Occupied) : after.program.Occupied := by
  cases step with
  | frame | intern | enter | leave | fileTag | revise => exact occupied.congr rfl
  | declare decl previous isNew continues owned =>
    exact occupied.addDecl fun earlier found =>
      consistent.program.chain_lt ((continues earlier found).1.known consistent).1
  | ordinary => rwa [bindOrdinary_program]
  | tag => rwa [bindTag_program]

theorem Program.ofDocument_occupied (files : FileSystem) (search : SearchPath) (path : String) (document : Document) :
    (Program.ofDocument files search path document).Occupied := by
  have kept : Drafting.Kept (fun _ => True) fun draft => draft.Consistent ∧ draft.program.Occupied := by
    refine .ofSteps (fun held same => ?_) fun steps held => ?_
    · exact ⟨held.1.congr same.decls same.chains same.fileScope same.blocks, held.2.congr same.chains⟩
    · induction steps with
      | refl => exact held
      | tail _ step ih => exact ⟨step.consistent ih.1, step.occupied ih.1 ih.2⟩
  have empty : ({} : Program).Occupied := fun chain inside => by cases inside
  obtain ⟨draft, held, same⟩ := Program.exists_draft_of_kept kept ⟨Draft.consistent_empty, empty⟩
    (fun _ _ _ _ _ => trivial) fun _ _ => trivial
  exact same ▸ held.2.congr rfl

end Excerpt
