import Excerpt.Proofs.Program.Timeline

/-!
The positions at which a definition is visible. The directives of a name cut the positions into ranges.
-/

namespace Excerpt.Program

variable {program : Program} {name : String} {pos : SourcePos} {id next : Nat}

/-- No two directives of one name stand at the same position. -/
def DistinctPositions (program : Program) : Prop :=
  ∀ first < program.macros.size, ∀ second < program.macros.size,
    (program.directive first).name = (program.directive second).name →
      (program.directive first).pos = (program.directive second).pos → first = second

instance (program : Program) : Decidable program.DistinctPositions :=
  inferInstanceAs (Decidable (∀ first < program.macros.size, ∀ second < program.macros.size,
    (program.directive first).name = (program.directive second).name →
      (program.directive first).pos = (program.directive second).pos → first = second))

theorem LastAt.unique (distinct : program.DistinctPositions) {first second : Nat}
    (one : program.LastAt name pos first) (two : program.LastAt name pos second) : first = second := by
  apply distinct first one.inside second two.inside (one.named.trans two.named.symm)
  exact SourcePos.atOrBefore_antisymm (two.last first one.inside one.named one.here)
    (one.last second two.inside two.named two.here)

theorem FirstAfter.unique (distinct : program.DistinctPositions) {first second : Nat}
    (one : program.FirstAfter name pos first) (two : program.FirstAfter name pos second) : first = second := by
  apply distinct first one.inside second two.inside (one.named.trans two.named.symm)
  exact SourcePos.atOrBefore_antisymm (one.first second two.inside two.named two.behind)
    (two.first first one.inside one.named one.behind)

theorem directiveAt_eq_some (distinct : program.DistinctPositions) :
    program.directiveAt? name pos = some id ↔ program.LastAt name pos id := by
  refine ⟨lastAt_of_directiveAt, fun last => ?_⟩
  cases found : program.directiveAt? name pos with
  | none => exact absurd last.here (directiveAt_eq_none.mp found id last.inside last.named)
  | some other => rw [(lastAt_of_directiveAt found).unique distinct last]

theorem nextDirective_eq_some (distinct : program.DistinctPositions) : program.nextDirective? id = some next ↔
    program.FirstAfter (program.directive id).name (program.directive id).pos next := by
  refine ⟨firstAfter_of_nextDirective, fun first => ?_⟩
  obtain ⟨other, found⟩ := nextDirective_of_mem (mem_laterDirectives.mpr ⟨first.inside, first.named, first.behind⟩)
  rw [found, (firstAfter_of_nextDirective found).unique distinct first]

theorem nextDirective_eq_none : program.nextDirective? id = none ↔
    ∀ other : Nat, other < program.macros.size → (program.directive other).name = (program.directive id).name →
      (program.directive other).pos.atOrBefore (program.directive id).pos = true := by
  rw [nextDirective?, List.head?_eq_none_iff, List.eq_nil_iff_forall_not_mem]
  refine forall_congr' fun other => ?_
  rw [mem_laterDirectives, SourcePos.before_iff, not_and, not_and, not_not]

/-- The directive in force at a position is the one whose range the position lies in: at or behind it, and in front of
the next one of the name. -/
theorem lastAt_iff_in_range : program.LastAt name pos id ↔
    id < program.macros.size ∧ (program.directive id).name = name ∧
      (program.directive id).pos.atOrBefore pos = true ∧
        ∀ next, program.nextDirective? id = some next → pos.before (program.directive next).pos = true := by
  constructor
  · rintro ⟨inside, named, here, last⟩
    refine ⟨inside, named, here, fun next found => ?_⟩
    obtain ⟨nextInside, nextNamed, behind, -⟩ := firstAfter_of_nextDirective found
    -- A next directive that the position has passed would stand at or before the last one.
    rw [SourcePos.before_iff] at behind ⊢
    exact fun passed => behind (last next nextInside (nextNamed.trans named) passed)
  · rintro ⟨inside, named, here, range⟩
    refine ⟨inside, named, here, fun other otherInside otherNamed early => ?_⟩
    by_contra notBefore
    have later := SourcePos.before_iff.mpr notBefore
    have sameName := otherNamed.trans named.symm
    obtain ⟨next, found⟩ := nextDirective_of_mem (mem_laterDirectives.mpr ⟨otherInside, sameName, later⟩)
    -- A position behind the other directive has passed the next one too.
    have first := (firstAfter_of_nextDirective found).first other otherInside sameName later
    exact SourcePos.before_iff.mp (range next found) (SourcePos.atOrBefore_trans _ _ _ first early)

theorem timeline_nodup (program : Program) (name : String) : (program.timeline name).Nodup := by
  rw [timeline, stableSort_eq_insertionSort, (List.perm_insertionSort _ _).nodup_iff]
  exact List.nodup_range.filter _

theorem laterDirectives_strict (distinct : program.DistinctPositions) (id : Nat) :
    (program.laterDirectives id).Pairwise fun first second =>
      (program.directive first).pos.before (program.directive second).pos = true := by
  have different : (program.laterDirectives id).Pairwise (· ≠ ·) := by
    rw [laterDirectives_eq]
    exact (program.timeline_nodup _).filter _
  have sorted := (program.laterDirectives_pairwise id).and different
  refine sorted.imp_of_mem fun {first second} firstListed secondListed order => ?_
  obtain ⟨firstInside, firstNamed, -⟩ := mem_laterDirectives.mp firstListed
  obtain ⟨secondInside, secondNamed, -⟩ := mem_laterDirectives.mp secondListed
  refine SourcePos.before_iff.mpr fun back => order.2 ?_
  exact distinct first firstInside second secondInside (firstNamed.trans secondNamed.symm)
    (SourcePos.atOrBefore_antisymm order.1 back)

theorem visibleDefinition_eq_some : program.visibleDefinition? name pos = some id ↔
    program.directiveAt? name pos = some id ∧ (program.directive id).isDefine = true :=
  Option.filter_eq_some_iff

theorem resolveMacro_eq_error {failure : Error} : program.resolveMacro name pos = .error failure ↔
    failure = .noVisibleDefinition name (program.posLocation pos) ∧
      ∀ last, program.directiveAt? name pos = some last → (program.directive last).isDefine = false := by
  rw [resolveMacro]
  cases found : program.visibleDefinition? name pos with
  | none =>
    have hidden := Option.filter_eq_none_iff.mp found
    simp only [Bool.not_eq_true] at hidden
    simp only [Except.error.injEq]
    exact ⟨fun same => ⟨same.symm, hidden⟩, fun facts => facts.1.symm⟩
  | some last =>
    obtain ⟨here, define⟩ := visibleDefinition_eq_some.mp found
    simp only [reduceCtorEq, false_iff]
    rintro ⟨-, removed⟩
    rw [removed last here] at define
    cases define

/-- The ranges of visibility tile the positions. A definition is visible from its own position up to the next
directive of its name. No definition is visible where the name has no directive yet or the last one removes it. The
next directive is the first one behind, and the later definitions stand in order of position. -/
theorem visibility_ranges (distinct : program.DistinctPositions) (name : String) (pos : SourcePos) :
    (∀ id : Nat, program.resolveMacro name pos = .ok id ↔
      id < program.macros.size ∧ (program.directive id).name = name ∧ (program.directive id).isDefine = true ∧
        (program.directive id).pos.atOrBefore pos = true ∧
          (program.nextDirective? id = none ∨
            ∃ next, program.nextDirective? id = some next ∧ pos.before (program.directive next).pos = true)) ∧
    (∀ failure, program.resolveMacro name pos = .error failure ↔
      failure = .noVisibleDefinition name (program.posLocation pos) ∧
        ((∀ id : Nat, id < program.macros.size → (program.directive id).name = name →
            ¬(program.directive id).pos.atOrBefore pos = true) ∨
          ∃ last, program.LastAt name pos last ∧ (program.directive last).isDefine = false)) ∧
    ∀ id : Nat,
      (∀ next, program.nextDirective? id = some next ↔
        program.FirstAfter (program.directive id).name (program.directive id).pos next) ∧
      (program.nextDirective? id = none ↔
        ∀ other : Nat, other < program.macros.size → (program.directive other).name = (program.directive id).name →
          (program.directive other).pos.atOrBefore (program.directive id).pos = true) ∧
      ((program.laterDefinitions id).Pairwise fun first second =>
        (program.directive first).pos.before (program.directive second).pos = true) ∧
      ∀ other : Nat, other ∈ program.laterDefinitions id ↔
        other < program.macros.size ∧ (program.directive other).name = (program.directive id).name ∧
          (program.directive other).isDefine = true ∧
            (program.directive id).pos.before (program.directive other).pos = true := by
  refine ⟨fun id => ?_, fun failure => ?_, fun id => ⟨fun next => nextDirective_eq_some distinct,
    nextDirective_eq_none, (laterDirectives_strict distinct id).filter _, fun other => ?_⟩⟩
  · rw [resolveMacro_eq_ok, visibleDefinition_eq_some, directiveAt_eq_some distinct, lastAt_iff_in_range]
    cases program.nextDirective? id with
    | none =>
      simp only [reduceCtorEq, false_imp_iff, implies_true, true_or]
      tauto
    | some next =>
      simp only [Option.some.injEq, forall_eq', reduceCtorEq, false_or, exists_eq_left']
      tauto
  · rw [resolveMacro_eq_error]
    refine and_congr_right fun _ => ?_
    cases found : program.directiveAt? name pos with
    | none =>
      have missing := directiveAt_eq_none.mp found
      simp only [reduceCtorEq, false_imp_iff, implies_true, true_iff]
      exact .inl missing
    | some last =>
      have isLast := lastAt_of_directiveAt found
      simp only [Option.some.injEq, forall_eq']
      constructor
      · exact fun removed => .inr ⟨last, isLast, removed⟩
      · rintro (missing | ⟨other, otherLast, removed⟩)
        · exact absurd isLast.here (missing last isLast.inside isLast.named)
        · rwa [isLast.unique distinct otherLast]
  · rw [laterDefinitions, List.mem_filter, mem_laterDirectives]
    tauto

/-- Three directives of a name, stored out of order: a definition, its removal and another definition. -/
def reordered : Program where
  macros := #[
    ⟨"N", .define none "2".toList [], ⟨0, 24, 35⟩, ⟨2, 24⟩, 2⟩,
    ⟨"N", .define none "1".toList [], ⟨0, 0, 11⟩, ⟨0, 0⟩, 0⟩,
    ⟨"N", .undef, ⟨0, 12, 20⟩, ⟨1, 12⟩, 1⟩]

/-- A position just in front of the removal sees the first definition, one at the removal sees none. -/
theorem visibility_ranges_reordered : reordered.DistinctPositions ∧
    reordered.resolveMacro "N" ⟨1, 11⟩ = .ok 1 ∧
    reordered.resolveMacro "N" ⟨1, 12⟩ = .error (.noVisibleDefinition "N" (reordered.posLocation ⟨1, 12⟩)) := by
  have distinct : reordered.DistinctPositions := by decide +kernel
  have early := (visibility_ranges distinct "N" ⟨1, 11⟩).1 1
  have late := (visibility_ranges distinct "N" ⟨1, 12⟩).2.1
    (.noVisibleDefinition "N" (reordered.posLocation ⟨1, 12⟩))
  refine ⟨distinct, early.mpr ⟨by decide, rfl, rfl, rfl, .inr ⟨2, ?_, rfl⟩⟩, late.mpr ⟨rfl, .inr ⟨2, ?_, rfl⟩⟩⟩
  · decide +kernel
  · exact ⟨by decide, rfl, rfl, by decide +kernel⟩

end Excerpt.Program
