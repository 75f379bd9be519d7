import Excerpt.Emission.Edit
import Excerpt.Proofs.Data.Sorted
import Excerpt.Proofs.Program.Walk

namespace Excerpt

/-- A spelled use, in the body of a declaration, of a symbol behind a pointer. -/
inductive Closure.CallsFor (closure : Closure) (program : Program) (id : DeclId) : Edit → Prop
  | use {body stmt : Stmt} {named : DeclId} {rename : Rename} (found : editedBody? program id = some body)
      (reached : Relation.ReflTransGen program.StmtStep body stmt) (reference : stmt.kind = .declRef named true)
      (pointer : closure.renameFor? program named = some rename) :
      closure.CallsFor program id ⟨stmt.span, rename.useText.toList⟩

namespace Edit

/-- The second edit starts inside the first. -/
def Covers (first second : Edit) : Prop :=
  first.span.file = second.span.file ∧ first.span.start ≤ second.span.start ∧ second.span.start < first.span.stop

/-- The text of a span in which the edit is made at its place: between the text in front of it and the text behind it,
both with edits of their own. -/
def MadeIn (edit : Edit) (program : Program) (span : Span) (text : List Char) : Prop :=
  ∃ before after, text = applyFrom program ⟨span.file, span.start, edit.span.start⟩ span.start before ++ edit.text ++
    applyFrom program span edit.span.stop after

theorem mem_dropRepeats {edits : List Edit} {edit : Edit} : edit ∈ dropRepeats edits ↔ edit ∈ edits := by
  fun_induction dropRepeats edits with
  | case1 second rest ih => simp [ih]
  | case2 first second rest different ih => simp [ih]
  | case3 edits short => rfl

theorem dropRepeats_sublist (edits : List Edit) : (dropRepeats edits).Sublist edits := by
  fun_induction dropRepeats edits with
  | case1 second rest ih => exact ih.cons second
  | case2 first second rest different ih => exact ih.cons_cons first
  | case3 edits short => exact .refl _

theorem atOrBefore_iff {first second : Edit} : first.atOrBefore second = true ↔
    first.span.file < second.span.file ∨ first.span.file = second.span.file ∧ first.span.start ≤ second.span.start := by
  simp [atOrBefore]

theorem atOrBefore_total (first second : Edit) : first.atOrBefore second = true ∨ second.atOrBefore first = true := by
  simp only [atOrBefore_iff]
  rcases Nat.lt_trichotomy first.span.file second.span.file with less | same | less
  · exact .inl (.inl less)
  · exact (Nat.le_total first.span.start second.span.start).imp (.inr ⟨same, ·⟩) (.inr ⟨same.symm, ·⟩)
  · exact .inr (.inl less)

theorem atOrBefore_trans (first second third : Edit) (here : first.atOrBefore second = true)
    (there : second.atOrBefore third = true) : first.atOrBefore third = true := by
  simp only [atOrBefore_iff] at here there ⊢
  rcases here with less | ⟨same, earlier⟩
  · rcases there with later | ⟨same, -⟩
    · exact .inl (Nat.lt_trans less later)
    · exact .inl (same ▸ less)
  · rw [same]
    exact there.imp_right fun later => ⟨later.1, Nat.le_trans earlier later.2⟩

section Text

variable {program : Program} {span : Span}

/-- An edit that no earlier one reaches into is made at its own place, between the edits in front of it and those
behind. -/
theorem applyFrom_split {edit : Edit} {before after : List Edit} {cursor : Nat} (reached : cursor ≤ edit.span.start)
    (apart : ∀ other ∈ before, other.span.stop ≤ edit.span.start) :
    applyFrom program span cursor (before ++ edit :: after) =
      applyFrom program ⟨span.file, span.start, edit.span.start⟩ cursor before ++ edit.text ++
        applyFrom program span edit.span.stop after := by
  induction before generalizing cursor with
  | nil => simp [applyFrom, Nat.not_lt.mpr reached]
  | cons first rest ih =>
    have firstApart := apart first List.mem_cons_self
    have restApart : ∀ other ∈ rest, other.span.stop ≤ edit.span.start :=
      fun other member => apart other (List.mem_cons_of_mem _ member)
    simp only [List.cons_append, applyFrom]
    split_ifs
    · exact ih reached restApart
    · simp only [ih firstApart restApart, List.append_assoc]

/-- Edits are made from left to right. One is left out only when it starts inside one that was made before it. -/
theorem madeIn_or_covered {edits : List Edit} {edit : Edit}
    (sorted : edits.Pairwise fun first second => first.atOrBefore second = true) (member : edit ∈ edits)
    (within : edit.span.isWithin span = true) :
    edit.MadeIn program span (applyAll program span edits) ∨ ∃ other ∈ edits, other ≠ edit ∧ other.Covers edit := by
  have mem_inside : ∀ {other}, other ∈ edits.filter (·.span.isWithin span) ↔
      other ∈ edits ∧ other.span.isWithin span = true := List.mem_filter
  obtain ⟨before, after, split, fresh⟩ := List.eq_append_cons_of_mem (mem_inside.mpr ⟨member, within⟩)
  have start : span.start ≤ edit.span.start := by
    simp only [Span.isWithin, Bool.and_eq_true, decide_eq_true_eq] at within
    exact within.1.2
  by_cases apart : ∀ other ∈ before, other.span.stop ≤ edit.span.start
  · refine .inl ⟨before, after, ?_⟩
    rw [applyAll, split]
    exact applyFrom_split start apart
  · -- An edit in front of it that reaches over its start is another one, as the first occurrence was chosen.
    push Not at apart
    obtain ⟨other, front, reaches⟩ := apart
    obtain ⟨known, otherWithin⟩ := mem_inside.mp (split ▸ List.mem_append_left _ front)
    have order : other.atOrBefore edit = true := by
      have sortedInside := sorted.filter fun other => other.span.isWithin span
      rw [split] at sortedInside
      exact (List.pairwise_append.mp sortedInside).2.2 other front edit List.mem_cons_self
    have sameFile : other.span.file = edit.span.file := by
      simp only [Span.isWithin, Bool.and_eq_true, beq_iff_eq] at within otherWithin
      exact otherWithin.1.1.trans within.1.1.symm
    refine .inr ⟨other, known, fun same => fresh (same ▸ front), sameFile, ?_, reaches⟩
    rcases atOrBefore_iff.mp order with less | ⟨-, earlier⟩
    · exact absurd sameFile (Nat.ne_of_lt less)
    · exact earlier

end Text

end Edit

namespace Closure

variable {closure : Closure} {program : Program}

theorem edits_sorted (ids : List DeclId) :
    (closure.edits program ids).Pairwise fun first second => first.atOrBefore second = true :=
  (stableSort_pairwise Edit.atOrBefore_total Edit.atOrBefore_trans _).sublist (Edit.dropRepeats_sublist _)

theorem nodeEdit_eq_some {stmt : Stmt} {edit : Edit} : closure.nodeEdit? program stmt = some edit ↔
    ∃ named rename, stmt.kind = .declRef named true ∧ closure.renameFor? program named = some rename ∧
      edit = ⟨stmt.span, rename.useText.toList⟩ := by
  unfold nodeEdit?
  constructor
  · intro found
    split at found
    · next named kind =>
      obtain ⟨rename, pointer, rfl⟩ := Option.map_eq_some_iff.mp found
      exact ⟨named, rename, kind, pointer, rfl⟩
    · cases found
  · intro facts
    obtain ⟨named, rename, kind, pointer, rfl⟩ := facts
    simp [kind, pointer]

theorem mem_edits (ordered : program.LocalsAscend) {ids : List DeclId} {edit : Edit} :
    edit ∈ closure.edits program ids ↔ ∃ id ∈ ids, closure.CallsFor program id edit := by
  simp only [edits, Edit.mem_dropRepeats, mem_stableSort, List.mem_filterMap, List.mem_flatMap, List.mem_reverse,
    Program.mem_reverseNodes_iff ordered, nodeEdit_eq_some]
  constructor
  · intro facts
    obtain ⟨stmt, ⟨body, ⟨id, member, found⟩, reached⟩, named, rename, reference, pointer, rfl⟩ := facts
    exact ⟨id, member, .use found reached reference pointer⟩
  · intro facts
    obtain ⟨id, member, called⟩ := facts
    cases called with
    | use found reached reference pointer =>
      exact ⟨_, ⟨_, ⟨id, member, found⟩, reached⟩, _, _, reference, pointer, rfl⟩

end Closure

end Excerpt
