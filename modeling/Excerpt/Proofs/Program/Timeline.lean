import Excerpt.Program.Timeline
import Excerpt.Proofs.Data.Sorted
import Excerpt.Proofs.Program.Nesting

/-!
The directive in force at an item, by the order of items. Every directive is an item of its own, and its position is
that of the item.
-/

namespace Excerpt

variable {first second : SourcePos}

theorem SourcePos.atOrBefore_total (first second : SourcePos) :
    first.atOrBefore second = true ∨ second.atOrBefore first = true := by
  simp only [atOrBefore, Bool.or_eq_true, Bool.and_eq_true, decide_eq_true_eq, beq_iff_eq]
  omega

theorem SourcePos.atOrBefore_trans (first second third : SourcePos) (early : first.atOrBefore second = true)
    (late : second.atOrBefore third = true) : first.atOrBefore third = true := by
  simp only [atOrBefore, Bool.or_eq_true, Bool.and_eq_true, decide_eq_true_eq, beq_iff_eq] at early late ⊢
  omega

theorem SourcePos.atOrBefore_of_seq_ne (different : first.seq ≠ second.seq) :
    first.atOrBefore second = true ↔ first.seq < second.seq := by
  simp only [atOrBefore, Bool.or_eq_true, Bool.and_eq_true, decide_eq_true_eq, beq_iff_eq]
  omega

theorem SourcePos.atOrBefore_antisymm (early : first.atOrBefore second = true)
    (late : second.atOrBefore first = true) : first = second := by
  cases first
  cases second
  simp only [atOrBefore, Bool.or_eq_true, Bool.and_eq_true, decide_eq_true_eq, beq_iff_eq] at early late
  simp only [mk.injEq]
  omega

theorem SourcePos.before_iff : first.before second = true ↔ ¬second.atOrBefore first = true := by
  simp only [before, atOrBefore, Bool.or_eq_true, Bool.and_eq_true, decide_eq_true_eq, beq_iff_eq]
  omega

namespace Program

variable {program : Program} {name : String} {id next : Nat} {pos : SourcePos}

structure LastAt (program : Program) (name : String) (pos : SourcePos) (id : Nat) : Prop where
  inside : id < program.macros.size
  named : (program.directive id).name = name
  here : (program.directive id).pos.atOrBefore pos = true
  last : ∀ other : Nat, other < program.macros.size → (program.directive other).name = name →
    (program.directive other).pos.atOrBefore pos = true →
      (program.directive other).pos.atOrBefore (program.directive id).pos = true

structure FirstAfter (program : Program) (name : String) (pos : SourcePos) (id : Nat) : Prop where
  inside : id < program.macros.size
  named : (program.directive id).name = name
  behind : pos.before (program.directive id).pos = true
  first : ∀ other : Nat, other < program.macros.size → (program.directive other).name = name →
    pos.before (program.directive other).pos = true →
      (program.directive id).pos.atOrBefore (program.directive other).pos = true

structure IsLatest (program : Program) (name : String) (item id : Nat) : Prop where
  inside : id < program.macros.size
  named : (program.directive id).name = name
  earlier : (program.directive id).item < item
  last : ∀ other : Nat, other < program.macros.size → (program.directive other).name = name →
    (program.directive other).item < item → (program.directive other).item ≤ (program.directive id).item

structure IsNext (program : Program) (id next : Nat) : Prop where
  inside : next < program.macros.size
  named : (program.directive next).name = (program.directive id).name
  later : (program.directive id).item < (program.directive next).item
  first : ∀ other : Nat, other < program.macros.size → (program.directive other).name = (program.directive id).name →
    (program.directive id).item < (program.directive other).item →
      (program.directive next).item ≤ (program.directive other).item

theorem mem_timeline : id ∈ program.timeline name ↔ id < program.macros.size ∧ (program.directive id).name = name := by
  rw [timeline, mem_stableSort, List.mem_filter, List.mem_range, beq_iff_eq]

theorem timeline_pairwise (program : Program) (name : String) : (program.timeline name).Pairwise fun first second =>
    (program.directive first).pos.atOrBefore (program.directive second).pos = true := by
  apply stableSort_pairwise
  · intro first second
    exact SourcePos.atOrBefore_total _ _
  · intro first second third
    exact SourcePos.atOrBefore_trans _ _ _

theorem timeline_cut (program : Program) (name : String) (pos : SourcePos) :
    (program.timeline name).Pairwise fun first second =>
      (program.directive second).pos.atOrBefore pos = true → (program.directive first).pos.atOrBefore pos = true :=
  (program.timeline_pairwise name).imp fun early late => SourcePos.atOrBefore_trans _ _ _ early late

theorem directiveAt_eq (pos : SourcePos) : program.directiveAt? name pos =
    ((program.timeline name).filter fun id => (program.directive id).pos.atOrBefore pos).getLast? := by
  rw [directiveAt?, takeWhile_eq_filter (program.timeline_cut name pos)]

/-- The sorted directives are cut where their positions pass the one asked for, so the last in front of the cut is in
force. -/
theorem lastAt_of_directiveAt (found : program.directiveAt? name pos = some id) :
    program.LastAt name pos id := by
  rw [directiveAt_eq] at found
  obtain ⟨member, here⟩ := List.mem_filter.mp (List.mem_of_getLast? found)
  obtain ⟨inside, named⟩ := mem_timeline.mp member
  refine ⟨inside, named, here, ?_⟩
  intro other otherInside otherNamed early
  have listed : other ∈ (program.timeline name).filter fun id => (program.directive id).pos.atOrBefore pos :=
    List.mem_filter.mpr ⟨mem_timeline.mpr ⟨otherInside, otherNamed⟩, early⟩
  have sorted := (program.timeline_pairwise name).filter fun id => (program.directive id).pos.atOrBefore pos
  -- The list ends with the directive found, and everything before it is at or before it.
  obtain ⟨before, split⟩ := List.getLast?_eq_some_iff.mp found
  rw [split] at listed sorted
  rcases List.mem_append.mp listed with front | last
  · exact (List.pairwise_append.mp sorted).2.2 other front id (List.mem_singleton_self id)
  · rw [List.mem_singleton.mp last]
    simpa using SourcePos.atOrBefore_total (program.directive id).pos (program.directive id).pos

theorem directiveAt_eq_none : program.directiveAt? name pos = none ↔
    ∀ id : Nat, id < program.macros.size → (program.directive id).name = name →
      ¬(program.directive id).pos.atOrBefore pos = true := by
  rw [directiveAt_eq, List.getLast?_eq_none_iff, List.filter_eq_nil_iff]
  constructor
  · intro missing id inside named
    exact missing id (mem_timeline.mpr ⟨inside, named⟩)
  · intro missing id listed
    exact missing id (mem_timeline.mp listed).1 (mem_timeline.mp listed).2

theorem mem_of_visible (visible : program.visibleDefinition? name pos = some id) :
    id < program.macros.size ∧ (program.directive id).name = name ∧ (program.directive id).isDefine = true := by
  obtain ⟨found, define⟩ := Option.filter_eq_some_iff.mp visible
  have last := lastAt_of_directiveAt found
  exact ⟨last.inside, last.named, define⟩

theorem resolveMacro_eq_ok :
    program.resolveMacro name pos = .ok id ↔ program.visibleDefinition? name pos = some id := by
  rw [resolveMacro]
  cases program.visibleDefinition? name pos <;> simp

theorem laterDirectives_eq (id : Nat) : program.laterDirectives id =
    (program.timeline (program.directive id).name).filter
      fun other => (program.directive id).pos.before (program.directive other).pos := by
  rw [laterDirectives, dropWhile_eq_filter (program.timeline_cut _ _)]
  refine List.filter_congr fun other _ => ?_
  rw [Bool.eq_iff_iff, SourcePos.before_iff, Bool.not_eq_true', Bool.eq_false_iff]

theorem mem_laterDirectives {other : Nat} : other ∈ program.laterDirectives id ↔ other < program.macros.size ∧
    (program.directive other).name = (program.directive id).name ∧
      (program.directive id).pos.before (program.directive other).pos = true := by
  rw [laterDirectives_eq, List.mem_filter, mem_timeline, and_assoc]

theorem laterDirectives_pairwise (program : Program) (id : Nat) :
    (program.laterDirectives id).Pairwise fun first second =>
      (program.directive first).pos.atOrBefore (program.directive second).pos = true := by
  rw [laterDirectives_eq]
  exact (program.timeline_pairwise _).filter _

/-- The directives behind one are sorted, so the first of them is the next. -/
theorem firstAfter_of_nextDirective (found : program.nextDirective? id = some next) :
    program.FirstAfter (program.directive id).name (program.directive id).pos next := by
  rw [nextDirective?] at found
  obtain ⟨inside, named, behind⟩ := mem_laterDirectives.mp (List.mem_of_head? found)
  refine ⟨inside, named, behind, ?_⟩
  intro other otherInside otherNamed otherBehind
  have listed := mem_laterDirectives.mpr ⟨otherInside, otherNamed, otherBehind⟩
  have sorted := program.laterDirectives_pairwise id
  obtain ⟨rest, split⟩ := List.head?_eq_some_iff.mp found
  rw [split] at listed sorted
  rcases List.mem_cons.mp listed with same | member
  · rw [same]
    simpa using SourcePos.atOrBefore_total (program.directive next).pos (program.directive next).pos
  · exact (List.pairwise_cons.mp sorted).1 other member

theorem nextDirective_of_mem {other : Nat} (member : other ∈ program.laterDirectives id) :
    ∃ next, program.nextDirective? id = some next := by
  cases found : program.laterDirectives id with
  | nil =>
    rw [found] at member
    cases member
  | cons next rest => exact ⟨next, by rw [nextDirective?, found, List.head?_cons]⟩

section Unit

variable (unit : program.Unrolling [])
include unit

theorem directive_item (inside : id < program.macros.size) : (program.directive id).item < program.items.size ∧
    (program.item (program.directive id).item).kind = .directive id ∧
      (program.directive id).pos.seq = (program.directive id).item :=
  unit.directives id inside

theorem directive_of_item {first second : Nat} (firstInside : first < program.macros.size)
    (secondInside : second < program.macros.size)
    (same : (program.directive first).item = (program.directive second).item) : first = second := by
  have firstKind := (directive_item unit firstInside).2.1
  have secondKind := (directive_item unit secondInside).2.1
  rw [same, secondKind] at firstKind
  cases firstKind
  rfl

theorem directive_atOrBefore_iff {first second : Nat} (firstInside : first < program.macros.size)
    (secondInside : second < program.macros.size) :
    (program.directive first).pos.atOrBefore (program.directive second).pos = true ↔
      (program.directive first).item ≤ (program.directive second).item := by
  have firstSeq := (directive_item unit firstInside).2.2
  have secondSeq := (directive_item unit secondInside).2.2
  by_cases same : (program.directive first).item = (program.directive second).item
  · obtain rfl := directive_of_item unit firstInside secondInside same
    simpa using SourcePos.atOrBefore_total (program.directive first).pos (program.directive first).pos
  · rw [SourcePos.atOrBefore_of_seq_ne (by rw [firstSeq, secondSeq]; exact same), firstSeq, secondSeq]
    exact ⟨Nat.le_of_lt, fun below => Nat.lt_of_le_of_ne below same⟩

theorem directive_atOrBefore_pos (inside : id < program.macros.size)
    (noDirective : ∀ m, (program.item pos.seq).kind ≠ .directive m) :
    (program.directive id).pos.atOrBefore pos = true ↔ (program.directive id).item < pos.seq := by
  obtain ⟨-, kind, seq⟩ := directive_item unit inside
  have different : (program.directive id).pos.seq ≠ pos.seq := by
    intro same
    rw [← same, seq] at noDirective
    exact noDirective id kind
  rw [SourcePos.atOrBefore_of_seq_ne different, seq]

theorem isLatest_of_directiveAt (noDirective : ∀ m, (program.item pos.seq).kind ≠ .directive m)
    (found : program.directiveAt? name pos = some id) : program.IsLatest name pos.seq id := by
  obtain ⟨inside, named, here, last⟩ := lastAt_of_directiveAt found
  refine ⟨inside, named, (directive_atOrBefore_pos unit inside noDirective).mp here, ?_⟩
  intro other otherInside otherNamed earlier
  have early := (directive_atOrBefore_pos unit otherInside noDirective).mpr earlier
  exact (directive_atOrBefore_iff unit otherInside inside).mp (last other otherInside otherNamed early)

theorem not_earlier_of_directiveAt (noDirective : ∀ m, (program.item pos.seq).kind ≠ .directive m)
    (missing : program.directiveAt? name pos = none) (inside : id < program.macros.size)
    (named : (program.directive id).name = name) : ¬(program.directive id).item < pos.seq := by
  intro earlier
  exact directiveAt_eq_none.mp missing id inside named ((directive_atOrBefore_pos unit inside noDirective).mpr earlier)

theorem directive_before_iff {other : Nat} (inside : id < program.macros.size)
    (otherInside : other < program.macros.size) :
    (program.directive id).pos.before (program.directive other).pos = true ↔
      (program.directive id).item < (program.directive other).item := by
  rw [SourcePos.before_iff, directive_atOrBefore_iff unit otherInside inside, Nat.not_le]

theorem isNext_of_nextDirective (inside : id < program.macros.size) (found : program.nextDirective? id = some next) :
    program.IsNext id next := by
  obtain ⟨nextInside, named, behind, first⟩ := firstAfter_of_nextDirective found
  refine ⟨nextInside, named, (directive_before_iff unit inside nextInside).mp behind, ?_⟩
  intro other otherInside otherNamed later
  have otherBehind := (directive_before_iff unit inside otherInside).mpr later
  exact (directive_atOrBefore_iff unit nextInside otherInside).mp (first other otherInside otherNamed otherBehind)

theorem isLatest_of_visible (noDirective : ∀ m, (program.item pos.seq).kind ≠ .directive m)
    (visible : program.visibleDefinition? name pos = some id) :
    program.IsLatest name pos.seq id ∧ (program.directive id).isDefine = true := by
  obtain ⟨found, define⟩ := Option.filter_eq_some_iff.mp visible
  exact ⟨isLatest_of_directiveAt unit noDirective found, define⟩

theorem latest_not_define (noDirective : ∀ m, (program.item pos.seq).kind ≠ .directive m)
    (hidden : program.visibleDefinition? name pos = none) (inside : id < program.macros.size)
    (named : (program.directive id).name = name) (earlier : (program.directive id).item < pos.seq) :
    ∃ last, program.IsLatest name pos.seq last ∧ (program.directive last).isDefine = false := by
  cases found : program.directiveAt? name pos with
  | none => exact absurd earlier (not_earlier_of_directiveAt unit noDirective found inside named)
  | some last =>
    refine ⟨last, isLatest_of_directiveAt unit noDirective found, ?_⟩
    rw [visibleDefinition?, found] at hidden
    simpa using Option.filter_eq_none_iff.mp hidden last rfl

end Unit

end Program

end Excerpt
