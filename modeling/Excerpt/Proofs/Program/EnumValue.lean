import Excerpt.Program.EnumValue
import Excerpt.Proofs.Draft.Steps
import Mathlib.Order.Bounds.Basic

namespace Excerpt.Program

def IsConstant (program : Program) (value : Int64) (context : Option DeclId) (id : DeclId) : Prop :=
  (program.decl id).context = context ∧ ∃ owner init, (program.decl id).kind = .enumConstant value owner init

variable {program : Program} {value : Int64} {context : Option DeclId} {id : DeclId}

theorem IsConstant.lt_size (isConstant : program.IsConstant value context id) : id < program.decls.size := by
  obtain ⟨-, owner, init, kind⟩ := isConstant
  exact lt_size_of_sort (congrArg DeclKind.sort kind) (by simp [DeclKind.sort])

theorem mem_enumValues : ((value, context), id) ∈ program.enumValues ↔ program.IsConstant value context id := by
  simp only [enumValues, List.mem_filterMap, List.mem_range]
  constructor
  · rintro ⟨other, -, entry⟩
    split at entry
    · next owner init kind =>
      cases entry
      exact ⟨rfl, owner, init, kind⟩
    · cases entry
  · intro isConstant
    have inside := isConstant.lt_size
    obtain ⟨same, owner, init, kind⟩ := isConstant
    exact ⟨id, inside, by simp [kind, same]⟩

theorem enumValues_pairwise : program.enumValues.Pairwise fun first second => first.2 < second.2 := by
  refine List.pairwise_filterMap.mpr (List.pairwise_lt_range.imp fun less first isFirst second isSecond => ?_)
  split at isFirst <;> cases isFirst
  split at isSecond <;> cases isSecond
  exact less

theorem enumConstantIn?_eq_none_iff :
    program.enumConstantIn? value context = none ↔ ∀ other, ¬ program.IsConstant value context other := by
  simp only [enumConstantIn?, List.lookup_eq_none_iff, List.mem_reverse, bne_iff_ne]
  constructor
  · intro missing other known
    exact missing _ (mem_enumValues.mpr known) rfl
  · rintro missing ⟨key, other⟩ listed rfl
    exact missing other (mem_enumValues.mp listed)

theorem isGreatest_of_enumConstantIn? (found : program.enumConstantIn? value context = some id) :
    IsGreatest {other | program.IsConstant value context other} id := by
  obtain ⟨later, earlier, split, fresh⟩ := List.lookup_eq_some_iff.mp found
  have listed : ∀ other, ((value, context), other) ∈ later ++ ((value, context), id) :: earlier ↔
      program.IsConstant value context other := fun other => by
    rw [← split, List.mem_reverse, mem_enumValues]
  refine ⟨(listed id).mp (by simp), fun other known => ?_⟩
  have ordered := split ▸ List.pairwise_reverse.mpr program.enumValues_pairwise
  rcases List.mem_append.mp ((listed other).mpr known) with isLater | rest
  · exact absurd rfl (bne_iff_ne.mp (fresh _ isLater))
  · rcases List.mem_cons.mp rest with same | isEarlier
    · exact (congrArg Prod.snd same).le
    · exact ((List.pairwise_cons.mp (List.pairwise_append.mp ordered).2.1).1 _ isEarlier).le

theorem enumConstantIn?_eq_some_iff : program.enumConstantIn? value context = some id ↔
    IsGreatest {other | program.IsConstant value context other} id := by
  refine ⟨isGreatest_of_enumConstantIn?, fun greatest => ?_⟩
  cases found : program.enumConstantIn? value context with
  | none => exact absurd greatest.1 (enumConstantIn?_eq_none_iff.mp found id)
  | some other => rw [(isGreatest_of_enumConstantIn? found).unique greatest]

theorem enumConstant?_eq_some_iff : program.enumConstant? value context = some id ↔
    IsGreatest {other | program.IsConstant value context other} id ∨
      (∀ other, ¬ program.IsConstant value context other) ∧
        IsGreatest {other | program.IsConstant value none other} id := by
  rw [enumConstant?, Option.or_eq_some_iff, enumConstantIn?_eq_some_iff, enumConstantIn?_eq_none_iff,
    enumConstantIn?_eq_some_iff]

theorem context_of_enumConstant (found : program.enumConstant? value context = some id) :
    (program.decl id).context = none ∨ (program.decl id).context = context :=
  (enumConstant?_eq_some_iff.mp found).elim (fun inside => .inr inside.1.1) fun outside => .inl outside.2.1.1

/-- A value stands for the last constant that has it in the context at hand. In a function without such a constant it
stands for the last one at file scope, and never for one of another function. -/
theorem enumConstant?_exact (program : Program) (value : Int64) (context : Option DeclId) :
    (∀ id, program.enumConstant? value context = some id ↔
      IsGreatest {other | program.IsConstant value context other} id ∨
        (∀ other, ¬ program.IsConstant value context other) ∧ context ≠ none ∧
          IsGreatest {other | program.IsConstant value none other} id) ∧
    (program.enumConstant? value context = none ↔
      (∀ other, ¬ program.IsConstant value context other) ∧ ∀ other, ¬ program.IsConstant value none other) ∧
    ∀ id ∈ program.enumConstant? value context, ∀ function, (program.decl id).context = some function →
      context = some function := by
  refine ⟨fun id => ?_, ?_, fun id found function inside => ?_⟩
  · rw [enumConstant?_eq_some_iff]
    refine or_congr_right (and_congr_right fun missing => ⟨fun greatest => ⟨?_, greatest⟩, And.right⟩)
    rintro rfl
    exact missing id greatest.1
  · rw [enumConstant?, Option.or_eq_none_iff, enumConstantIn?_eq_none_iff, enumConstantIn?_eq_none_iff]
  · rcases context_of_enumConstant found with outside | same
    · cases outside.symm.trans inside
    · exact same.symm.trans inside

end Excerpt.Program
