import Excerpt.Closure.Basic
import Excerpt.Proofs.Data.Sorted
import Mathlib.Data.Set.Basic
import Mathlib.Logic.Relation

/-!
What marking does, step by step. Every run of the marking is a sequence of five kinds of steps, and what holds of every
run is derived from what each step keeps. The bodies that were taken and are not walked yet are no part of the marking,
so they stand beside it.
-/

namespace Excerpt

namespace IdSet

theorem length_insert {set : IdSet} {n : Nat} (fresh : n ∉ set) : (set.insert n).length = set.length + 1 := by
  induction set with
  | nil => rfl
  | cons first rest ih =>
    obtain ⟨_, freshRest⟩ := List.ne_and_not_mem_of_not_mem_cons fresh
    rw [insert]
    split
    · rfl
    · rw [List.length_cons, ih freshRest, List.length_cons]

end IdSet

namespace Marking

variable {marking : Marking} {id other : DeclId} {ids : List DeclId}

@[simp] theorem mem_mark : other ∈ (marking.mark id).decls ↔ other = id ∨ other ∈ marking.decls := by
  unfold mark
  split
  · next marked =>
    have : id ∈ marking.decls := by simpa using marked
    constructor
    · exact .inr
    · rintro (same | member)
      · exact same ▸ this
      · exact member
  · exact IdSet.mem_insert

theorem mark_queue (marking : Marking) (id : DeclId) : (marking.mark id).queue = marking.queue ∧ id ∈ marking.decls ∨
    (marking.mark id).queue = marking.queue ++ [id] ∧ id ∉ marking.decls := by
  unfold mark
  split
  · next marked => exact .inl ⟨rfl, by simpa using marked⟩
  · next fresh => exact .inr ⟨rfl, by simpa using fresh⟩

@[simp] theorem mark_macros : (marking.mark id).macros = marking.macros := by
  unfold mark; split <;> rfl

@[simp] theorem mark_renames : (marking.mark id).renames = marking.renames := by
  unfold mark; split <;> rfl

@[simp] theorem mark_pending : (marking.mark id).pending = marking.pending := by
  unfold mark; split <;> rfl

@[simp] theorem mark_passSizes : (marking.mark id).passSizes = marking.passSizes := by
  unfold mark; split <;> rfl

theorem markAll_cons : marking.markAll (id :: ids) = (marking.mark id).markAll ids := rfl

@[simp] theorem mem_markAll : other ∈ (marking.markAll ids).decls ↔ other ∈ ids ∨ other ∈ marking.decls := by
  induction ids generalizing marking with
  | nil => simp [markAll]
  | cons id rest ih =>
    rw [markAll_cons, ih, mem_mark, List.mem_cons]
    tauto

@[simp] theorem markAll_macros : (marking.markAll ids).macros = marking.macros := by
  induction ids generalizing marking with
  | nil => rfl
  | cons id rest ih => rw [markAll_cons, ih, mark_macros]

@[simp] theorem markAll_renames : (marking.markAll ids).renames = marking.renames := by
  induction ids generalizing marking with
  | nil => rfl
  | cons id rest ih => rw [markAll_cons, ih, mark_renames]

@[simp] theorem markAll_pending : (marking.markAll ids).pending = marking.pending := by
  induction ids generalizing marking with
  | nil => rfl
  | cons id rest ih => rw [markAll_cons, ih, mark_pending]

@[simp] theorem markAll_passSizes : (marking.markAll ids).passSizes = marking.passSizes := by
  induction ids generalizing marking with
  | nil => rfl
  | cons id rest ih => rw [markAll_cons, ih, mark_passSizes]

theorem markAll_of_marked (marked : ∀ id ∈ ids, id ∈ marking.decls) : marking.markAll ids = marking := by
  induction ids with
  | nil => rfl
  | cons id rest ih =>
    have here : marking.mark id = marking := by
      unfold mark
      rw [if_pos (by simpa using marked id List.mem_cons_self)]
    rw [markAll_cons, here, ih fun other member => marked other (List.mem_cons_of_mem _ member)]

/-- What is marked for the first time waits, and nothing else joins the queue. -/
theorem mem_markAll_queue : other ∈ (marking.markAll ids).queue ↔
    other ∈ marking.queue ∨ other ∈ ids ∧ other ∉ marking.decls := by
  induction ids generalizing marking with
  | nil => simp [markAll]
  | cons id rest ih =>
    rw [markAll_cons, ih, mem_mark, List.mem_cons]
    rcases mark_queue marking id with ⟨queue, marked⟩ | ⟨queue, fresh⟩
    · rw [queue]
      constructor
      · rintro (waiting | ⟨member, unmarked⟩)
        · exact .inl waiting
        · exact .inr ⟨.inr member, fun known => unmarked (.inr known)⟩
      · rintro (waiting | ⟨same | member, unmarked⟩)
        · exact .inl waiting
        · exact absurd (same ▸ marked) unmarked
        · refine .inr ⟨member, ?_⟩
          rintro (same | known)
          · exact unmarked (same ▸ marked)
          · exact unmarked known
    · rw [queue, List.mem_append, List.mem_singleton]
      constructor
      · rintro ((waiting | same) | ⟨member, unmarked⟩)
        · exact .inl waiting
        · exact .inr ⟨.inl same, same ▸ fresh⟩
        · exact .inr ⟨.inr member, fun known => unmarked (.inr known)⟩
      · rintro (waiting | ⟨same | member, unmarked⟩)
        · exact .inl (.inl waiting)
        · exact .inl (.inr same)
        · by_cases same : other = id
          · exact .inl (.inr same)
          · refine .inr ⟨member, ?_⟩
            rintro (equal | known)
            · exact same equal
            · exact unmarked known

/-- A marking of declarations below `size`, in which those that wait are marked. -/
structure Sane (size : Nat) (marking : Marking) : Prop where
  ascending : marking.decls.Ascending
  bounded : ∀ id ∈ marking.decls, id < size
  waiting : ∀ id ∈ marking.queue, id ∈ marking.decls
  unique : marking.queue.Nodup
  pending : ∀ id ∈ marking.pending, id ∈ marking.decls

/-- Marking keeps the queue free of repetitions, since what waits is marked already. -/
theorem Sane.mark {size : Nat} (sane : marking.Sane size) (inside : id < size) : (marking.mark id).Sane size := by
  by_cases marked : id ∈ marking.decls
  · rwa [show marking.mark id = marking by unfold Marking.mark; rw [if_pos (by simpa using marked)]]
  · have new : marking.mark id = { marking with decls := marking.decls.insert id, queue := marking.queue ++ [id] } := by
      unfold Marking.mark
      rw [if_neg (by simpa using marked)]
    rw [new]
    refine ⟨sane.ascending.insert id, fun other member => ?_, fun other member => ?_, ?_, fun other member => ?_⟩
    · rcases IdSet.mem_insert.mp member with same | member
      · exact same ▸ inside
      · exact sane.bounded other member
    · rcases List.mem_append.mp member with member | same
      · exact IdSet.mem_insert.mpr (.inr (sane.waiting other member))
      · exact IdSet.mem_insert.mpr (.inl (List.mem_singleton.mp same))
    · refine List.nodup_append.mpr ⟨sane.unique, List.nodup_singleton id, fun first member second same equal => ?_⟩
      rw [List.mem_singleton.mp same] at equal
      exact marked (equal ▸ sane.waiting first member)
    · exact IdSet.mem_insert.mpr (.inr (sane.pending other member))

theorem Sane.markAll {size : Nat} (sane : marking.Sane size) (inside : ∀ id ∈ ids, id < size) :
    (marking.markAll ids).Sane size := by
  induction ids generalizing marking with
  | nil => exact sane
  | cons id rest ih =>
    exact ih (sane.mark (inside id List.mem_cons_self)) fun other member =>
      inside other (List.mem_cons_of_mem _ member)

theorem markAll_length : (marking.markAll ids).decls.length + marking.queue.length =
    marking.decls.length + (marking.markAll ids).queue.length := by
  induction ids generalizing marking with
  | nil => rfl
  | cons id rest ih =>
    have later := @ih (marking.mark id)
    have here : (marking.mark id).decls.length + marking.queue.length =
        marking.decls.length + (marking.mark id).queue.length := by
      unfold mark
      split
      · rfl
      · next fresh =>
        have fresh : id ∉ marking.decls := by simpa using fresh
        simp only [IdSet.length_insert fresh, List.length_append, List.length_singleton]
        omega
    rw [markAll_cons]
    omega

end Marking

end Excerpt
