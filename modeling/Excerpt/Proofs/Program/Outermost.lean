import Excerpt.Program.Outermost
import Excerpt.Proofs.Data.Sorted

namespace Excerpt.Program

variable (program : Program)

/-- The first declaration comes before the second in the order of the spans and contains it. -/
def Covers (outer inner : DeclId) : Prop :=
  outer ≠ inner ∧ program.spanOrder outer inner = true ∧
    (program.decl inner).span.isWithin (program.decl outer).span = true

/-- A member of a set that no other member contains; of equal spans the first counts. -/
def IsOutermost (decls : IdSet) (id : DeclId) : Prop :=
  id ∈ decls ∧ ∀ outer ∈ decls, ¬program.Covers outer id

/-- Where a declaration met before `kept` lies: in it, or in front of it. -/
inductive LiesBehind (kept id : DeclId) : Prop
  | inside (within : (program.decl id).span.isWithin (program.decl kept).span = true)
  | file (less : (program.decl id).span.file < (program.decl kept).span.file)
  | front (same : (program.decl id).span.file = (program.decl kept).span.file)
      (before : (program.decl id).span.stop ≤ (program.decl kept).span.start)

variable {program}

theorem isWithin_iff {inner outer : Span} : inner.isWithin outer = true ↔
    inner.file = outer.file ∧ outer.start ≤ inner.start ∧ inner.stop ≤ outer.stop := by
  simp [Span.isWithin, and_assoc]

theorem isWithin_self (span : Span) : span.isWithin span = true :=
  isWithin_iff.mpr ⟨rfl, Nat.le_refl _, Nat.le_refl _⟩

theorem overlaps_iff {first second : Span} : first.overlaps second = true ↔
    first.file = second.file ∧ first.start < second.stop ∧ second.start < first.stop := by
  simp [Span.overlaps, and_assoc]

section Order

variable {first second third : DeclId}

theorem spanOrder_iff : program.spanOrder first second = true ↔
    (program.decl first).span.file < (program.decl second).span.file ∨
    (program.decl first).span.file = (program.decl second).span.file ∧
      ((program.decl first).span.start < (program.decl second).span.start ∨
      (program.decl first).span.start = (program.decl second).span.start ∧
        ((program.decl second).span.stop < (program.decl first).span.stop ∨
        (program.decl first).span.stop = (program.decl second).span.stop ∧ first ≤ second)) := by
  unfold spanOrder
  dsimp only
  split_ifs with files starts stops
  · simp [files]
  · simp only [ne_eq, Decidable.not_not] at files
    simp [files, starts]
  · simp only [ne_eq, Decidable.not_not] at files starts
    simp [files, starts, stops]
  · simp only [ne_eq, Decidable.not_not] at files starts stops
    simp [files, starts, stops]

theorem spanOrder_total (first second : DeclId) :
    program.spanOrder first second = true ∨ program.spanOrder second first = true := by
  simp only [spanOrder_iff, FileId, DeclId] at *
  omega

theorem spanOrder_trans (first second third : DeclId) (left : program.spanOrder first second = true)
    (right : program.spanOrder second third = true) : program.spanOrder first third = true := by
  simp only [spanOrder_iff, FileId, DeclId] at *
  omega

theorem eq_of_spanOrder (left : program.spanOrder first second = true) (right : program.spanOrder second first = true) :
    first = second := by
  simp only [spanOrder_iff, FileId, DeclId] at *
  omega

/-- Each member of a set lies in an outermost one that comes no later in the order of the spans. -/
theorem exists_isOutermost {decls : IdSet} {id : DeclId} (member : id ∈ decls) : ∃ outer,
    program.IsOutermost decls outer ∧ program.spanOrder outer id = true ∧
      (program.decl id).span.isWithin (program.decl outer).span = true := by
  -- The first declaration in the order that contains `id` is contained in none.
  have sorted := stableSort_pairwise (@spanOrder_total program) (@spanOrder_trans program) decls
  have self : program.spanOrder id id = true := or_self_iff.mp (spanOrder_total id id)
  have some : ((stableSort program.spanOrder decls).find? fun outer =>
      program.spanOrder outer id && (program.decl id).span.isWithin (program.decl outer).span).isSome = true := by
    rw [List.find?_isSome]
    refine ⟨id, mem_stableSort.mpr member, ?_⟩
    simp [self, isWithin_iff]
  obtain ⟨outer, first⟩ := Option.isSome_iff_exists.mp some
  obtain ⟨covers, front, back, split, none⟩ := List.find?_eq_some_iff_append.mp first
  obtain ⟨order, within⟩ := Bool.and_eq_true_iff.mp covers
  refine ⟨outer, ⟨?_, fun other listed above => ?_⟩, order, within⟩
  · apply mem_stableSort.mp
    rw [split]
    simp
  · obtain ⟨differs, earlier, inside⟩ := above
    have present : other ∈ stableSort program.spanOrder decls := mem_stableSort.mpr listed
    rw [split, List.mem_append, List.mem_cons] at present
    rw [split] at sorted
    rcases present with before | same | behind
    · have wider : (program.decl id).span.isWithin (program.decl other).span = true := by
        rw [isWithin_iff] at inside within ⊢
        exact ⟨within.1.trans inside.1, inside.2.1.trans within.2.1, within.2.2.trans inside.2.2⟩
      have missed := none other before
      simp [spanOrder_trans other outer id earlier order, wider] at missed
    · exact differs same
    · have later := (List.pairwise_cons.mp (List.pairwise_append.mp sorted).2.1).1 other behind
      exact differs (eq_of_spanOrder earlier later)

end Order

section Sweep

variable {decls : List DeclId} (proper : ∀ id ∈ decls, (program.decl id).span.start ≤ (program.decl id).span.stop)
include proper

theorem stop_le_start {kept id : DeclId} (member : id ∈ decls) (order : program.spanOrder kept id = true)
    (apart : (program.decl id).span.isWithin (program.decl kept).span ≠ true)
    (disjoint : (program.decl id).span.overlaps (program.decl kept).span ≠ true)
    (same : (program.decl kept).span.file = (program.decl id).span.file) :
    (program.decl kept).span.stop ≤ (program.decl id).span.start := by
  have ordered := proper id member
  rw [ne_eq, isWithin_iff] at apart
  rw [ne_eq, overlaps_iff] at disjoint
  simp only [spanOrder_iff, FileId, DeclId] at *
  omega

/-- What lies in a declaration behind the last one kept lies in the last one kept, so comparing with that one is enough.
-/
theorem within_of_liesBehind {kept other id : DeclId} (member : id ∈ decls) (order : program.spanOrder kept id = true)
    (behind : program.LiesBehind kept other)
    (within : (program.decl id).span.isWithin (program.decl other).span = true) :
    (program.decl id).span.isWithin (program.decl kept).span = true := by
  have ordered := proper id member
  cases behind with
  | inside inner =>
    simp only [spanOrder_iff, isWithin_iff, FileId, DeclId] at *
    omega
  | file less =>
    simp only [spanOrder_iff, isWithin_iff, FileId, DeclId] at *
    omega
  | front same before =>
    simp only [spanOrder_iff, isWithin_iff, FileId, DeclId] at *
    omega

/-- When a declaration is kept, all that was behind the last one kept is behind it too. -/
theorem LiesBehind.next {kept other id : DeclId} (member : id ∈ decls) (order : program.spanOrder kept id = true)
    (apart : (program.decl id).span.isWithin (program.decl kept).span ≠ true)
    (disjoint : (program.decl id).span.overlaps (program.decl kept).span ≠ true)
    (behind : program.LiesBehind kept other) : program.LiesBehind id other := by
  have later := stop_le_start proper member order apart disjoint
  have files : (program.decl kept).span.file = (program.decl id).span.file ∨
      (program.decl kept).span.file < (program.decl id).span.file := by
    rw [spanOrder_iff] at order
    exact order.elim .inr fun same => .inl same.1
  rcases files with same | less
  · have start := later same
    cases behind with
    | inside inner =>
      obtain ⟨sameFile, -, before⟩ := isWithin_iff.mp inner
      exact .front (sameFile.trans same) (before.trans start)
    | file less => exact .file (same ▸ less)
    | front sameFile before =>
      refine .front (sameFile.trans same) ?_
      simp only [spanOrder_iff, FileId, DeclId] at *
      omega
  · cases behind with
    | inside inner => exact .file ((isWithin_iff.mp inner).1 ▸ less)
    | file earlier => exact .file (Nat.lt_trans earlier less)
    | front sameFile before => exact .file (sameFile ▸ less)

end Sweep

/-- The pass has gone through `seen`, of which it kept `outer` last, and `rest` is still to come. -/
structure Sweeping (program : Program) (seen rest : List DeclId) (outer : Option DeclId) : Prop where
  proper : ∀ id ∈ seen ++ rest, (program.decl id).span.start ≤ (program.decl id).span.stop
  sorted : (seen ++ rest).Pairwise fun first second => program.spanOrder first second = true
  last : ∀ last, outer = some last → last ∈ seen ∧ ∀ other ∈ seen ++ rest, ¬program.Covers other last
  behind : ∀ id ∈ seen, ∃ last, outer = some last ∧ program.LiesBehind last id

/-- One step of the pass: the next declaration lies in the last one kept, crosses it, or is kept. -/
theorem sweep_cons (outer : Option DeclId) (first : DeclId) (rest : List DeclId) :
    (∃ last, outer = some last ∧ (program.decl first).span.isWithin (program.decl last).span = true ∧
      program.sweep outer (first :: rest) = program.sweep outer rest) ∨
    (∃ last, outer = some last ∧ (program.decl first).span.isWithin (program.decl last).span ≠ true ∧
      (program.decl first).span.overlaps (program.decl last).span = true ∧
      program.sweep outer (first :: rest) = .error (.redundantDeclConflict (program.location (program.decl last).span)
        (program.location (program.decl first).span))) ∨
    (∀ last, outer = some last → (program.decl first).span.isWithin (program.decl last).span ≠ true ∧
      (program.decl first).span.overlaps (program.decl last).span ≠ true) ∧
      program.sweep outer (first :: rest) = (program.sweep (some first) rest).map (first :: ·) := by
  rw [sweep.eq_def]
  cases outer with
  | none => exact .inr (.inr ⟨fun _ none => (by cases none), rfl⟩)
  | some last =>
    dsimp only
    split_ifs with within overlap
    · exact .inl ⟨last, rfl, within, rfl⟩
    · exact .inr (.inl ⟨last, rfl, within, overlap, rfl⟩)
    · refine .inr (.inr ⟨fun other same => ?_, rfl⟩)
      cases same
      exact ⟨within, overlap⟩

section Sweeping

variable {seen rest : List DeclId} {first : DeclId} {outer : Option DeclId}

theorem Sweeping.not_covers (sweeping : program.Sweeping seen (first :: rest) outer) {other : DeclId}
    (member : other ∈ first :: rest) : ¬program.Covers other first := by
  intro covers
  obtain ⟨different, order, -⟩ := covers
  rcases List.mem_cons.mp member with same | member
  · exact different same
  · have behind := (List.pairwise_append.mp sweeping.sorted).2.1
    exact different (eq_of_spanOrder order ((List.pairwise_cons.mp behind).1 other member))

theorem Sweeping.order (sweeping : program.Sweeping seen (first :: rest) outer) {other : DeclId}
    (member : other ∈ seen) : program.spanOrder other first = true :=
  (List.pairwise_append.mp sweeping.sorted).2.2 other member first List.mem_cons_self

theorem Sweeping.skip {last : DeclId} (sweeping : program.Sweeping seen (first :: rest) (some last))
    (within : (program.decl first).span.isWithin (program.decl last).span = true) :
    program.Sweeping (seen ++ [first]) rest (some last) := by
  have shape := List.append_cons seen first rest
  refine ⟨shape ▸ sweeping.proper, shape ▸ sweeping.sorted, fun other same => ?_, fun other member => ?_⟩
  · obtain ⟨known, free⟩ := sweeping.last other same
    exact ⟨List.mem_append_left _ known, shape ▸ free⟩
  · rcases List.mem_append.mp member with front | only
    · exact sweeping.behind other front
    · rw [List.mem_singleton.mp only]
      exact ⟨last, rfl, .inside within⟩

/-- Nothing contains a declaration that is kept: neither what the pass has seen nor, in this order, what is to come. -/
theorem Sweeping.free (sweeping : program.Sweeping seen (first :: rest) outer)
    (apart : ∀ last, outer = some last → (program.decl first).span.isWithin (program.decl last).span ≠ true) :
    ∀ other ∈ seen ++ first :: rest, ¬program.Covers other first := by
  intro other member covers
  rcases List.mem_append.mp member with front | back
  · obtain ⟨last, found, behind⟩ := sweeping.behind other front
    have order := sweeping.order (sweeping.last last found).1
    exact apart last found (within_of_liesBehind sweeping.proper (by simp) order behind covers.2.2)
  · exact sweeping.not_covers back covers

theorem Sweeping.keep (sweeping : program.Sweeping seen (first :: rest) outer)
    (apart : ∀ last, outer = some last → (program.decl first).span.isWithin (program.decl last).span ≠ true ∧
      (program.decl first).span.overlaps (program.decl last).span ≠ true) :
    program.Sweeping (seen ++ [first]) rest (some first) := by
  have free := sweeping.free fun last found => (apart last found).1
  have shape := List.append_cons seen first rest
  refine ⟨shape ▸ sweeping.proper, shape ▸ sweeping.sorted, fun other same => ?_, fun other member => ?_⟩
  · cases same
    exact ⟨by simp, shape ▸ free⟩
  · refine ⟨first, rfl, ?_⟩
    rcases List.mem_append.mp member with front | only
    · obtain ⟨last, found, behind⟩ := sweeping.behind other front
      have order := sweeping.order (sweeping.last last found).1
      exact behind.next sweeping.proper (by simp) order (apart last found).1 (apart last found).2
    · rw [List.mem_singleton.mp only]
      exact .inside (isWithin_self _)

theorem exists_of_map_eq_ok {result : Except Error (List DeclId)} {kept : List DeclId}
    (found : result.map (first :: ·) = .ok kept) : ∃ others, result = .ok others ∧ kept = first :: others := by
  cases result with
  | error error => cases found
  | ok others =>
    cases found
    exact ⟨others, rfl, rfl⟩

/-- The pass keeps what nothing in the list contains. -/
theorem Sweeping.mem_iff (sweeping : program.Sweeping seen rest outer) {kept : List DeclId}
    (swept : program.sweep outer rest = .ok kept) (id : DeclId) :
    (id ∈ kept → id ∈ rest ∧ ∀ other ∈ seen ++ rest, ¬program.Covers other id) ∧
      (id ∈ rest → id ∉ seen → (∀ other ∈ seen ++ rest, ¬program.Covers other id) → id ∈ kept) := by
  induction rest generalizing seen kept outer with
  | nil =>
    cases swept
    exact ⟨fun none => (List.not_mem_nil none).elim, fun none => (List.not_mem_nil none).elim⟩
  | cons first rest ih =>
    have shape := List.append_cons seen first rest
    obtain ⟨last, rfl, within, same⟩ | ⟨last, -, -, -, failed⟩ | ⟨apart, same⟩ := sweep_cons outer first rest
    · rw [same] at swept
      have step := ih (sweeping.skip within) swept
      rw [← shape] at step
      refine ⟨fun member => ?_, fun member fresh bare => ?_⟩
      · obtain ⟨listed, bare⟩ := step.1 member
        exact ⟨List.mem_cons_of_mem _ listed, bare⟩
      · have seenLast := (sweeping.last last rfl).1
        have different : id ≠ first := by
          rintro rfl
          have other : last ≠ id := fun same => fresh (same ▸ seenLast)
          exact bare last (List.mem_append_left _ seenLast) ⟨other, sweeping.order seenLast, within⟩
        refine step.2 ((List.mem_cons.mp member).resolve_left different) ?_ bare
        simp [fresh, different]
    · rw [failed] at swept
      cases swept
    · rw [same] at swept
      obtain ⟨others, inner, rfl⟩ := exists_of_map_eq_ok swept
      have step := ih (sweeping.keep apart) inner
      rw [← shape] at step
      refine ⟨fun member => ?_, fun member fresh bare => ?_⟩
      · rcases List.mem_cons.mp member with rfl | member
        · exact ⟨List.mem_cons_self, sweeping.free fun last found => (apart last found).1⟩
        · obtain ⟨listed, bare⟩ := step.1 member
          exact ⟨List.mem_cons_of_mem _ listed, bare⟩
      · by_cases same : id = first
        · rw [same]
          exact List.mem_cons_self
        · refine List.mem_cons_of_mem _ (step.2 ((List.mem_cons.mp member).resolve_left same) ?_ bare)
          simp [fresh, same]

end Sweeping

theorem sweeping_start {decls : IdSet}
    (proper : ∀ id ∈ decls, (program.decl id).span.start ≤ (program.decl id).span.stop) :
    program.Sweeping [] (stableSort program.spanOrder decls) none where
  proper id member := proper id (mem_stableSort.mp member)
  sorted := stableSort_pairwise (@spanOrder_total program) (@spanOrder_trans program) decls
  last _ none := by cases none
  behind _ none := by cases none

theorem exists_swept {decls kept : IdSet} (found : program.outermost decls = .ok kept) :
    ∃ others, program.sweep none (stableSort program.spanOrder decls) = .ok others ∧ kept = IdSet.ofList others := by
  unfold outermost at found
  cases swept : program.sweep none (stableSort program.spanOrder decls) with
  | error error => rw [swept] at found; cases found
  | ok others =>
    rw [swept] at found
    cases found
    exact ⟨others, rfl, rfl⟩

theorem mem_outermost {decls kept : IdSet}
    (proper : ∀ id ∈ decls, (program.decl id).span.start ≤ (program.decl id).span.stop)
    (found : program.outermost decls = .ok kept) {id : DeclId} : id ∈ kept ↔ program.IsOutermost decls id := by
  obtain ⟨others, swept, rfl⟩ := exists_swept found
  have step := (sweeping_start proper).mem_iff swept id
  simp only [List.nil_append, mem_stableSort] at step
  simp only [IdSet.ofList, IdSet.mem_insertAll, List.not_mem_nil, false_or, IsOutermost]
  exact ⟨step.1, fun outermost => step.2 outermost.1 List.not_mem_nil outermost.2⟩

/-- Declarations whose spans overlap only where one contains the other. -/
def Laminar (program : Program) (decls : List DeclId) : Prop :=
  ∀ first ∈ decls, ∀ second ∈ decls, (program.decl first).span.overlaps (program.decl second).span = true →
    (program.decl first).span.isWithin (program.decl second).span = true ∨
      (program.decl second).span.isWithin (program.decl first).span = true

theorem isWithin_of_spanOrder {first second : DeclId} (order : program.spanOrder first second = true)
    (within : (program.decl first).span.isWithin (program.decl second).span = true) :
    (program.decl second).span.isWithin (program.decl first).span = true := by
  simp only [spanOrder_iff, isWithin_iff, FileId, DeclId] at *
  omega

/-- Where no spans cross, the pass never meets a conflict. -/
theorem exists_sweep {rest : List DeclId} {outer : Option DeclId} (laminar : program.Laminar (outer.toList ++ rest))
    (sorted : (outer.toList ++ rest).Pairwise fun first second => program.spanOrder first second = true) :
    ∃ kept, program.sweep outer rest = .ok kept := by
  induction rest generalizing outer with
  | nil => exact ⟨[], by rw [sweep]⟩
  | cons id rest ih =>
    have keep : ∃ kept, (program.sweep (some id) rest).map (id :: ·) = .ok kept := by
      have behind := (List.pairwise_append.mp sorted).2.1
      have inner : ∀ other ∈ (some id).toList ++ rest, other ∈ outer.toList ++ id :: rest :=
        fun other member => List.mem_append_right _ member
      obtain ⟨kept, swept⟩ :=
        ih (fun first member second other => laminar first (inner first member) second (inner second other)) behind
      exact ⟨id :: kept, by rw [swept]; rfl⟩
    rw [sweep.eq_def]
    cases outer with
    | none => exact keep
    | some last =>
      dsimp only
      split
      · have front : (last :: rest).Sublist (last :: id :: rest) := (List.sublist_cons_self id rest).cons_cons last
        exact ih (fun first member second other => laminar first (front.subset member) second (front.subset other))
          (sorted.sublist front)
      · next apart =>
        split
        · next overlaps =>
          have order := (List.pairwise_cons.mp sorted).1 id List.mem_cons_self
          rcases laminar id (by simp) last (by simp) overlaps with within | around
          · exact absurd within apart
          · exact absurd (isWithin_of_spanOrder order around) apart
        · exact keep

theorem exists_outermost {decls : IdSet} (laminar : program.Laminar decls) :
    ∃ kept, program.outermost decls = .ok kept := by
  have sorted := stableSort_pairwise (@spanOrder_total program) (@spanOrder_trans program) decls
  have listed : program.Laminar ((none : Option DeclId).toList ++ stableSort program.spanOrder decls) :=
    fun first member second other => laminar first (mem_stableSort.mp member) second (mem_stableSort.mp other)
  obtain ⟨kept, swept⟩ := exists_sweep listed sorted
  exact ⟨IdSet.ofList kept, by rw [outermost, swept]; rfl⟩

end Excerpt.Program
