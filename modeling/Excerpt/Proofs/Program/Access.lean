import Excerpt.Program.Build
import Excerpt.Proofs.Data.Halving
import Excerpt.Proofs.Program.Timeline

namespace Excerpt

namespace Stmt

theorem preorderAll_append (first second : List Stmt) :
    preorderAll (first ++ second) = preorderAll first ++ preorderAll second := by
  induction first with
  | nil => rfl
  | cons stmt rest ih => simp [preorderAll, ih]

/-- What a stack still yields are the trees on it, the top first. -/
theorem visitStack_eq_preorderAll (stack : List Stmt) : visitStack stack = preorderAll stack := by
  fun_induction visitStack stack with
  | case1 => rfl
  | case2 kind span children rest ih => rw [ih, preorderAll_append, preorderAll, preorder, List.cons_append]

theorem visit_eq_preorder (stmt : Stmt) : stmt.visit = stmt.preorder := by
  rw [visit, visitStack_eq_preorderAll, preorderAll, preorderAll, List.append_nil]

end Stmt

namespace Program

variable (program : Program)

/-- The macro uses from `start` up to `stop`, cut out of the sorted table by two searches. -/
def usesSlice (start stop : SourcePos) : List MacroUse :=
  (program.uses.take (partitionPoint (·.pos.before stop) program.uses)).drop
    (partitionPoint (·.pos.before start) program.uses)

theorem finish_uses_cut (pos : SourcePos) : program.finish.uses.Pairwise fun first second =>
    second.pos.before pos = true → first.pos.before pos = true := by
  have sorted : program.finish.uses.Pairwise fun first second => first.pos.atOrBefore second.pos = true :=
    stableSort_pairwise (fun first second => SourcePos.atOrBefore_total first.pos second.pos)
      (fun first second third => SourcePos.atOrBefore_trans first.pos second.pos third.pos) program.uses
  refine sorted.imp fun order early => ?_
  rw [SourcePos.before_iff] at early ⊢
  exact fun late => early (SourcePos.atOrBefore_trans _ _ _ late order)

theorem usesSlice_finish (start stop : SourcePos) :
    program.finish.usesSlice start stop = program.finish.usesBetween start stop := by
  rw [usesSlice, partitionPoint_eq_countP (program.finish_uses_cut stop),
    partitionPoint_eq_countP (program.finish_uses_cut start),
    drop_take_countP (program.finish_uses_cut stop) (program.finish_uses_cut start), usesBetween]
  refine List.filter_congr fun occurrence _ => ?_
  rw [Bool.eq_iff_iff, Bool.and_eq_true, Bool.and_eq_true, Bool.not_eq_true', Bool.eq_false_iff, ne_eq,
    SourcePos.before_iff, not_not]

theorem usesInDecl_eq (id : DeclId) : program.usesInDecl id = program.uses.filter fun occurrence =>
    occurrence.pos.seq = (program.decl id).item ∧ (program.decl id).span.start ≤ occurrence.pos.offset ∧
      occurrence.pos.offset < (program.decl id).span.stop := by
  refine List.filter_congr fun occurrence _ => ?_
  rw [Bool.eq_iff_iff]
  simp only [SourcePos.atOrBefore, SourcePos.before, Bool.and_eq_true, Bool.or_eq_true, decide_eq_true_eq, beq_iff_eq]
  grind

end Program

/-- A stack yields exactly the nodes of a tree, each once and in the order of the recursion. In a finished program the
uses of a declaration are, in order, those at its item and within its span, and two searches by halving find them. -/
theorem visit_and_usesInDecl_exact :
    (∀ stmt : Stmt, stmt.visit = stmt.preorder) ∧
    ∀ (program : Program) (id : DeclId),
      program.finish.usesInDecl id = (program.finish.uses.filter fun occurrence =>
        occurrence.pos.seq = (program.decl id).item ∧ (program.decl id).span.start ≤ occurrence.pos.offset ∧
          occurrence.pos.offset < (program.decl id).span.stop) ∧
      program.finish.usesInDecl id = program.finish.usesSlice ⟨(program.decl id).item, (program.decl id).span.start⟩
        ⟨(program.decl id).item, (program.decl id).span.stop⟩ :=
  ⟨Stmt.visit_eq_preorder, fun program id => ⟨program.finish.usesInDecl_eq id, (program.usesSlice_finish _ _).symm⟩⟩

end Excerpt
