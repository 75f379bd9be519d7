import Excerpt.Proofs.Program.Outermost
import Mathlib.Data.List.Pairwise

/-!
When the outermost members of a set can be found, and which ones they are. Only the widest members decide.
-/

namespace Excerpt.Program

variable {program : Program}

/-- A member whose span lies in no other span of the set. -/
def IsWidest (program : Program) (decls : IdSet) (id : DeclId) : Prop :=
  id ∈ decls ∧ ∀ other ∈ decls, (program.decl id).span.isWithin (program.decl other).span = true →
    (program.decl other).span = (program.decl id).span

/-- The first declaration ends before the second starts, in its file or in an earlier one. -/
def Precedes (program : Program) (first second : DeclId) : Prop :=
  (program.decl first).span.file < (program.decl second).span.file ∨
    (program.decl first).span.file = (program.decl second).span.file ∧
      (program.decl first).span.stop ≤ (program.decl second).span.start

theorem covers_iff {outer inner : DeclId} : program.Covers outer inner ↔
    (program.decl inner).span.isWithin (program.decl outer).span = true ∧
      ((program.decl outer).span ≠ (program.decl inner).span ∨ outer < inner) := by
  have spans : (program.decl outer).span = (program.decl inner).span ↔
      (program.decl outer).span.file = (program.decl inner).span.file ∧
        (program.decl outer).span.start = (program.decl inner).span.start ∧
        (program.decl outer).span.stop = (program.decl inner).span.stop := by
    cases (program.decl outer).span
    cases (program.decl inner).span
    simp
  by_cases same : outer = inner
  · simp [Covers, same]
  · rw [ne_eq, spans]
    simp only [Covers, spanOrder_iff, isWithin_iff, FileId, DeclId, ne_eq] at same ⊢
    omega

theorem isOutermost_iff {decls : IdSet} {id : DeclId} : program.IsOutermost decls id ↔
    id ∈ decls ∧ ¬∃ other ∈ decls, (program.decl id).span.isWithin (program.decl other).span = true ∧
      ((program.decl other).span ≠ (program.decl id).span ∨ other < id) := by
  simp only [IsOutermost, covers_iff, not_exists, not_and]

theorem IsOutermost.isWidest {decls : IdSet} {id : DeclId} (outermost : program.IsOutermost decls id) :
    program.IsWidest decls id := by
  refine ⟨outermost.1, fun other member within => ?_⟩
  by_contra differs
  exact outermost.2 other member (covers_iff.mpr ⟨within, .inl differs⟩)

theorem IsWidest.exists_isOutermost {decls : IdSet} {id : DeclId} (widest : program.IsWidest decls id) :
    ∃ outer, program.IsOutermost decls outer ∧ (program.decl outer).span = (program.decl id).span := by
  obtain ⟨outer, outermost, -, within⟩ := Program.exists_isOutermost widest.1
  exact ⟨outer, outermost, widest.2 outer outermost.1 within⟩

theorem IsOutermost.not_isWithin {decls : IdSet} {first second : DeclId} (outermost : program.IsOutermost decls first)
    (other : program.IsOutermost decls second) (differs : first ≠ second) :
    (program.decl first).span.isWithin (program.decl second).span ≠ true := by
  intro within
  have free := outermost.2 second other.1
  have free' := other.2 first outermost.1
  rw [covers_iff] at free free'
  have same := outermost.isWidest.2 second other.1 within
  rw [same, isWithin_iff] at free free'
  simp only [DeclId, ne_eq, not_true_eq_false, le_refl, false_or, true_and, not_lt] at free free'
  exact differs (Nat.le_antisymm free free')

theorem Precedes.trans {first second third : DeclId}
    (proper : (program.decl second).span.start ≤ (program.decl second).span.stop) (left : program.Precedes first second)
    (right : program.Precedes second third) : program.Precedes first third := by
  simp only [Precedes, FileId] at *
  omega

theorem overlaps_symm {first second : Span} (overlaps : first.overlaps second = true) :
    second.overlaps first = true := by
  obtain ⟨file, before, behind⟩ := overlaps_iff.mp overlaps
  exact overlaps_iff.mpr ⟨file.symm, behind, before⟩

theorem Precedes.not_overlaps {first second : DeclId} (precedes : program.Precedes first second) :
    (program.decl first).span.overlaps (program.decl second).span ≠ true := by
  simp only [Precedes, overlaps_iff, ne_eq, FileId] at *
  omega

section Sweeping

variable {seen rest : List DeclId} {outer : Option DeclId}

theorem Sweeping.precedes {first last : DeclId} (sweeping : program.Sweeping seen (first :: rest) (some last))
    (apart : (program.decl first).span.isWithin (program.decl last).span ≠ true)
    (disjoint : (program.decl first).span.overlaps (program.decl last).span ≠ true) : program.Precedes last first := by
  have order := sweeping.order (sweeping.last last rfl).1
  have behind := stop_le_start sweeping.proper (by simp) order apart disjoint
  rcases spanOrder_iff.mp order with less | same
  · exact .inl less
  · exact .inr ⟨same.1, behind same.1⟩

/-- The members kept follow one another without overlapping. -/
theorem Sweeping.pairwise (sweeping : program.Sweeping seen rest outer) {kept : List DeclId}
    (swept : program.sweep outer rest = .ok kept) : (outer.toList ++ kept).Pairwise program.Precedes := by
  induction rest generalizing seen kept outer with
  | nil =>
    cases swept
    cases outer <;> simp
  | cons first rest ih =>
    obtain ⟨last, rfl, within, same⟩ | ⟨last, -, -, -, failed⟩ | ⟨apart, same⟩ := sweep_cons outer first rest
    · rw [same] at swept
      exact ih (sweeping.skip within) swept
    · rw [failed] at swept
      cases swept
    · rw [same] at swept
      obtain ⟨others, inner, rfl⟩ := exists_of_map_eq_ok swept
      have behind : (first :: others).Pairwise program.Precedes := ih (sweeping.keep apart) inner
      cases outer with
      | none => exact behind
      | some last =>
        obtain ⟨outside, disjoint⟩ := apart last rfl
        have next := sweeping.precedes outside disjoint
        refine List.pairwise_cons.mpr ⟨fun id member => ?_, behind⟩
        rcases List.mem_cons.mp member with rfl | member
        · exact next
        · exact next.trans (sweeping.proper first (by simp)) ((List.pairwise_cons.mp behind).1 id member)

/-- The pass fails at a declaration that crosses the last one kept, which nothing contains. -/
theorem Sweeping.conflict (sweeping : program.Sweeping seen rest outer) {error : Error}
    (failed : program.sweep outer rest = .error error) : ∃ last ∈ seen ++ rest, ∃ id ∈ seen ++ rest,
      (∀ other ∈ seen ++ rest, ¬program.Covers other last) ∧
      (program.decl id).span.isWithin (program.decl last).span ≠ true ∧
      (program.decl id).span.overlaps (program.decl last).span = true ∧
      error = .redundantDeclConflict (program.location (program.decl last).span)
        (program.location (program.decl id).span) := by
  induction rest generalizing seen outer with
  | nil => cases failed
  | cons first rest ih =>
    have shape := List.append_cons seen first rest
    obtain ⟨last, rfl, within, same⟩ | ⟨last, rfl, apart, overlaps, met⟩ | ⟨apart, same⟩ := sweep_cons outer first rest
    · rw [same] at failed
      exact shape ▸ ih (sweeping.skip within) failed
    · rw [met] at failed
      cases failed
      obtain ⟨known, free⟩ := sweeping.last last rfl
      exact ⟨last, List.mem_append_left _ known, first, by simp, free, apart, overlaps, rfl⟩
    · rw [same] at failed
      cases inner : program.sweep (some first) rest with
      | ok others =>
        rw [inner] at failed
        cases failed
      | error met =>
        rw [inner] at failed
        cases failed
        exact shape ▸ ih (sweeping.keep apart) inner

end Sweeping

section Outermost

variable {decls kept : IdSet}

theorem outermost_ascending (found : program.outermost decls = .ok kept) : kept.Ascending := by
  obtain ⟨others, -, rfl⟩ := exists_swept found
  exact IdSet.Ascending.insertAll List.Pairwise.nil others

variable (proper : ∀ id ∈ decls, (program.decl id).span.start ≤ (program.decl id).span.stop)
include proper

theorem not_overlaps_of_outermost (found : program.outermost decls = .ok kept) {first second : DeclId}
    (member : first ∈ kept) (other : second ∈ kept) (differs : first ≠ second) :
    (program.decl first).span.overlaps (program.decl second).span ≠ true := by
  obtain ⟨others, swept, rfl⟩ := exists_swept found
  simp only [IdSet.ofList, IdSet.mem_insertAll, List.not_mem_nil, false_or] at member other
  have apart : others.Pairwise fun first second =>
      (program.decl first).span.overlaps (program.decl second).span ≠ true :=
    ((sweeping_start proper).pairwise swept).imp Precedes.not_overlaps
  have : Std.Symm fun first second => (program.decl first).span.overlaps (program.decl second).span ≠ true :=
    ⟨fun _ _ disjoint overlaps => disjoint (overlaps_symm overlaps)⟩
  exact apart.forall member other differs

/-- A conflict is met where two of the widest members overlap. What crosses inside a wider one goes unnoticed. -/
theorem conflict_of_outermost {error : Error} (failed : program.outermost decls = .error error) :
    ∃ last ∈ decls, ∃ id ∈ decls, error = .redundantDeclConflict (program.location (program.decl last).span)
        (program.location (program.decl id).span) ∧
      ∃ wide, program.IsWidest decls last ∧ program.IsWidest decls wide ∧
        (program.decl id).span.isWithin (program.decl wide).span = true ∧
        (program.decl last).span.overlaps (program.decl wide).span = true ∧
        (program.decl last).span.isWithin (program.decl wide).span ≠ true ∧
        (program.decl wide).span.isWithin (program.decl last).span ≠ true := by
  unfold outermost at failed
  cases swept : program.sweep none (stableSort program.spanOrder decls) with
  | ok others => rw [swept] at failed; cases failed
  | error met =>
    rw [swept] at failed
    cases failed
    obtain ⟨last, known, id, member, free, apart, overlaps, error⟩ := (sweeping_start proper).conflict swept
    simp only [List.nil_append, mem_stableSort] at known member free
    have outermost : program.IsOutermost decls last := ⟨known, free⟩
    -- The outermost member around the second one crosses the first one too.
    obtain ⟨wide, other, -, within⟩ := @exists_isOutermost program _ _ member
    refine ⟨last, known, id, member, error, wide, outermost.isWidest, other.isWidest, within, ?_, fun inside => ?_,
      fun inside => ?_⟩
    · obtain ⟨file, start, stop⟩ := isWithin_iff.mp within
      obtain ⟨same, less, more⟩ := overlaps_iff.mp overlaps
      exact overlaps_iff.mpr ⟨same.symm.trans file, more.trans_le stop, start.trans_lt less⟩
    · have same := outermost.isWidest.2 wide other.1 inside
      rw [same] at within
      exact apart within
    · have same := other.isWidest.2 last known inside
      rw [← same] at within
      exact apart within

theorem exists_outermost_iff : (∃ kept, program.outermost decls = .ok kept) ↔
    ∀ first second, program.IsWidest decls first → program.IsWidest decls second →
      (program.decl first).span.overlaps (program.decl second).span = true →
      (program.decl first).span.isWithin (program.decl second).span = true ∨
        (program.decl second).span.isWithin (program.decl first).span = true := by
  constructor
  · rintro ⟨kept, found⟩ first second widest other overlaps
    obtain ⟨outer, outermost, span⟩ := widest.exists_isOutermost
    obtain ⟨outer', outermost', span'⟩ := other.exists_isOutermost
    rw [← mem_outermost proper found] at outermost outermost'
    rw [← span, ← span'] at overlaps ⊢
    by_cases same : outer = outer'
    · rw [same]
      exact .inl (isWithin_self _)
    · exact absurd overlaps (not_overlaps_of_outermost proper found outermost outermost' same)
  · intro crossing
    cases result : program.outermost decls with
    | ok kept => exact ⟨kept, rfl⟩
    | error error =>
      obtain ⟨last, -, id, -, -, wide, widest, other, -, overlaps, outside, apart⟩ :=
        conflict_of_outermost proper result
      rcases crossing last wide widest other overlaps with within | within
      · exact absurd within outside
      · exact absurd within apart

variable (found : program.outermost decls = .ok kept)
include found

theorem outermost_apart {first second : DeclId} (member : first ∈ kept) (other : second ∈ kept)
    (differs : first ≠ second) : (program.decl first).span.isWithin (program.decl second).span ≠ true ∧
      (program.decl first).span.overlaps (program.decl second).span ≠ true :=
  ⟨((mem_outermost proper found).mp member).not_isWithin ((mem_outermost proper found).mp other) differs,
    not_overlaps_of_outermost proper found member other differs⟩

theorem outermost_outermost : program.outermost kept = .ok kept := by
  have laminar : program.Laminar kept := by
    intro first member second other overlaps
    by_cases same : first = second
    · rw [same]
      exact .inl (isWithin_self _)
    · exact absurd overlaps (outermost_apart proper found member other same).2
  have inside : ∀ id ∈ kept, id ∈ decls := fun id member => ((mem_outermost proper found).mp member).1
  obtain ⟨again, reduced⟩ := exists_outermost laminar
  have same : again = kept := by
    apply eq_of_ascending (outermost_ascending reduced) (outermost_ascending found)
    intro id
    rw [mem_outermost (fun id member => proper id (inside id member)) reduced]
    refine ⟨fun outermost => outermost.1, fun member => ⟨member, fun other listed covers => ?_⟩⟩
    exact (outermost_apart proper found member listed covers.1.symm).1 covers.2.2
  rw [reduced, same]

end Outermost

/-- The outermost members can be found if and only if no two widest members overlap with neither in the other. They are
the members that lie in no member with another span or a lower number; around each member there is one; none lies in
another or overlaps it; finding them once more changes nothing. Spans that only touch and are not empty neither contain
nor overlap each other. A conflict is reported with the places of two members. -/
theorem outermost_exact {decls : IdSet}
    (proper : ∀ id ∈ decls, (program.decl id).span.start ≤ (program.decl id).span.stop) :
    ((∃ kept, program.outermost decls = .ok kept) ↔
      ∀ first second, program.IsWidest decls first → program.IsWidest decls second →
        (program.decl first).span.overlaps (program.decl second).span = true →
        (program.decl first).span.isWithin (program.decl second).span = true ∨
          (program.decl second).span.isWithin (program.decl first).span = true) ∧
    (∀ kept, program.outermost decls = .ok kept →
      (kept.Ascending ∧ ∀ id, id ∈ kept ↔
        id ∈ decls ∧ ¬∃ other ∈ decls, (program.decl id).span.isWithin (program.decl other).span = true ∧
          ((program.decl other).span ≠ (program.decl id).span ∨ other < id)) ∧
      (∀ id ∈ decls, ∃ outer ∈ kept, (program.decl id).span.isWithin (program.decl outer).span = true) ∧
      (∀ first ∈ kept, ∀ second ∈ kept, first ≠ second →
        (program.decl first).span.isWithin (program.decl second).span = false ∧
          (program.decl first).span.overlaps (program.decl second).span = false) ∧
      program.outermost kept = .ok kept) ∧
    (∀ front back : Span, front.start < front.stop → back.start < back.stop → front.stop = back.start →
      front.isWithin back = false ∧ back.isWithin front = false ∧ front.overlaps back = false) ∧
    ∀ error, program.outermost decls = .error error → ∃ first ∈ decls, ∃ second ∈ decls,
      error = .redundantDeclConflict (program.location (program.decl first).span)
        (program.location (program.decl second).span) := by
  refine ⟨exists_outermost_iff proper, fun kept found => ?_, fun front back some other touch => ?_,
    fun error failed => ?_⟩
  · have members : ∀ id, id ∈ kept ↔ program.IsOutermost decls id := fun id => mem_outermost proper found
    refine ⟨⟨outermost_ascending found, fun id => (members id).trans isOutermost_iff⟩, fun id member => ?_,
      fun first member second other differs => ?_, outermost_outermost proper found⟩
    · obtain ⟨outer, outermost, -, within⟩ := exists_isOutermost member
      exact ⟨outer, (members outer).mpr outermost, within⟩
    · obtain ⟨outside, disjoint⟩ := outermost_apart proper found member other differs
      exact ⟨Bool.not_eq_true _ ▸ outside, Bool.not_eq_true _ ▸ disjoint⟩
  · simp only [Span.isWithin, Span.overlaps, Bool.and_eq_false_iff, decide_eq_false_iff_not]
    omega
  · obtain ⟨last, known, id, member, error, -⟩ := conflict_of_outermost proper failed
    exact ⟨last, known, id, member, error⟩

def ofSpans (spans : List Span) : Program :=
  { decls := (spans.map fun span =>
    ⟨none, .var 0 none, .unspecified, span, ⟨0, span.start⟩, none, none, 0, 0⟩).toArray }

/-- Two spans that cross inside a wider one, an empty one at its end, its double, one that touches it, and one in
another file. -/
def touching : Program :=
  .ofSpans [⟨0, 0, 20⟩, ⟨0, 3, 8⟩, ⟨0, 5, 12⟩, ⟨0, 20, 20⟩, ⟨0, 0, 20⟩, ⟨0, 20, 30⟩, ⟨1, 0, 20⟩]

theorem outermost_exact_touching :
    (∀ id ∈ [0, 1, 2, 3, 4, 5, 6], (touching.decl id).span.start ≤ (touching.decl id).span.stop) ∧
    touching.outermost [0, 1, 2, 3, 4, 5, 6] = .ok [0, 5, 6] ∧ touching.outermost [0, 5, 6] = .ok [0, 5, 6] ∧
    (∃ outer ∈ [0, 5, 6], (touching.decl 2).span.isWithin (touching.decl outer).span = true) ∧
    ¬∃ kept, touching.outermost [1, 2] = .ok kept := by
  have proper : ∀ id ∈ [0, 1, 2, 3, 4, 5, 6], (touching.decl id).span.start ≤ (touching.decl id).span.stop := by
    decide +kernel
  have found : touching.outermost [0, 1, 2, 3, 4, 5, 6] = .ok [0, 5, 6] := by decide +kernel
  obtain ⟨-, around, -, again⟩ := (outermost_exact proper).2.1 [0, 5, 6] found
  refine ⟨proper, found, again, around 2 (by decide), fun reduced => ?_⟩
  have alone : ∀ id ∈ [1, 2], (touching.decl id).span.start ≤ (touching.decl id).span.stop := by decide +kernel
  have facts : (∀ other ∈ [1, 2], (touching.decl 1).span.isWithin (touching.decl other).span = true →
        (touching.decl other).span = (touching.decl 1).span) ∧
      (∀ other ∈ [1, 2], (touching.decl 2).span.isWithin (touching.decl other).span = true →
        (touching.decl other).span = (touching.decl 2).span) ∧
      (touching.decl 1).span.overlaps (touching.decl 2).span = true ∧
      ¬((touching.decl 1).span.isWithin (touching.decl 2).span = true ∨
        (touching.decl 2).span.isWithin (touching.decl 1).span = true) := by
    decide +kernel
  obtain ⟨first, second, overlaps, apart⟩ := facts
  exact apart ((outermost_exact alone).1.mp reduced 1 2 ⟨by decide, first⟩ ⟨by decide, second⟩ overlaps)

end Excerpt.Program
