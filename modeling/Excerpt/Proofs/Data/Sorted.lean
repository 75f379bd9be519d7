import Excerpt.Data.Sorted
import Mathlib.Data.List.Sort

namespace Excerpt

theorem insertSorted_eq_orderedInsert (le : α → α → Bool) (value : α) (values : List α) :
    insertSorted le value values = values.orderedInsert (fun first second => le first second = true) value := by
  induction values with
  | nil => rfl
  | cons first rest ih => simp only [insertSorted, List.orderedInsert_cons, ih]

theorem stableSort_eq_insertionSort (le : α → α → Bool) (values : List α) :
    stableSort le values = values.insertionSort (fun first second => le first second = true) := by
  induction values with
  | nil => rfl
  | cons first rest ih => rw [stableSort, ih, insertSorted_eq_orderedInsert, List.insertionSort_cons]

@[simp] theorem mem_stableSort {le : α → α → Bool} {values : List α} {value : α} :
    value ∈ stableSort le values ↔ value ∈ values := by
  rw [stableSort_eq_insertionSort, List.mem_insertionSort]

theorem stableSort_pairwise {le : α → α → Bool}
    (total : ∀ first second, le first second = true ∨ le second first = true)
    (transitive : ∀ first second third, le first second = true → le second third = true → le first third = true)
    (values : List α) :
    (stableSort le values).Pairwise fun first second => le first second = true := by
  rw [stableSort_eq_insertionSort]
  have := Std.Total.mk total
  have := IsTrans.mk transitive
  exact List.pairwise_insertionSort _ values

theorem eq_of_ascending {first second : List Nat} (ascending : first.Pairwise (· < ·)) (other : second.Pairwise (· < ·))
    (same : ∀ id, id ∈ first ↔ id ∈ second) : first = second := by
  have perm : first.Perm second :=
    (List.perm_ext_iff_of_nodup (ascending.imp Nat.ne_of_lt) (other.imp Nat.ne_of_lt)).mpr same
  exact perm.eq_of_pairwise (fun _ _ _ _ less more => absurd more (Nat.lt_asymm less)) ascending other

section Cut

variable {keep : α → Bool} {values : List α}

theorem takeWhile_eq_filter (cut : values.Pairwise fun first second => keep second = true → keep first = true) :
    values.takeWhile keep = values.filter keep := by
  induction values with
  | nil => rfl
  | cons first rest ih =>
    obtain ⟨before, cutRest⟩ := List.pairwise_cons.mp cut
    by_cases kept : keep first = true
    · rw [List.takeWhile_cons_of_pos kept, List.filter_cons_of_pos kept, ih cutRest]
    · have none : rest.filter keep = [] :=
        List.filter_eq_nil_iff.mpr fun value member kept' => kept (before value member kept')
      rw [List.takeWhile_cons_of_neg kept, List.filter_cons_of_neg kept, none]

/-- When a test, once failed, fails for everything behind, cutting at the first failure is a selection. -/
theorem dropWhile_eq_filter (cut : values.Pairwise fun first second => keep second = true → keep first = true) :
    values.dropWhile keep = values.filter fun value => !keep value := by
  induction values with
  | nil => rfl
  | cons first rest ih =>
    obtain ⟨before, cutRest⟩ := List.pairwise_cons.mp cut
    by_cases kept : keep first = true
    · simp only [List.dropWhile_cons_of_pos kept, ih cutRest, List.filter_cons, kept, Bool.not_true,
        Bool.false_eq_true, ↓reduceIte]
    · have all : rest.filter (fun value => !keep value) = rest :=
        List.filter_eq_self.mpr fun value member => by
          simpa using fun kept' => kept (before value member kept')
      simp only [Bool.not_eq_true] at kept
      simp only [List.dropWhile_cons, kept, Bool.false_eq_true, ↓reduceIte, List.filter_cons, Bool.not_false, all]

end Cut

namespace IdSet

def Ascending (set : IdSet) : Prop :=
  set.Pairwise (· < ·)

variable {set : IdSet} {n m : Nat}

@[simp] theorem mem_insert : m ∈ set.insert n ↔ m = n ∨ m ∈ set := by
  induction set with
  | nil => simp [insert]
  | cons first rest ih =>
    rw [insert]
    split
    · exact List.mem_cons
    · split
      · next same => subst same; simp
      · rw [List.mem_cons, ih, List.mem_cons]
        tauto

@[simp] theorem mem_insertAll {numbers : List Nat} : m ∈ set.insertAll numbers ↔ m ∈ set ∨ m ∈ numbers := by
  induction numbers generalizing set with
  | nil => simp [insertAll]
  | cons first rest ih =>
    have step : set.insertAll (first :: rest) = (set.insert first).insertAll rest := rfl
    rw [step, ih, mem_insert, List.mem_cons]
    tauto

theorem Ascending.insert (ascending : Ascending set) (n : Nat) : Ascending (set.insert n) := by
  induction set with
  | nil => exact List.pairwise_singleton _ _
  | cons first rest ih =>
    obtain ⟨before, ascendingRest⟩ := List.pairwise_cons.mp ascending
    rw [IdSet.insert]
    split
    · next less =>
      refine List.pairwise_cons.mpr ⟨fun value member => ?_, ascending⟩
      rcases List.mem_cons.mp member with same | member
      · omega
      · have := before value member
        omega
    · split
      · exact ascending
      · refine List.pairwise_cons.mpr ⟨fun value member => ?_, ih ascendingRest⟩
        rcases mem_insert.mp member with same | member
        · omega
        · exact before value member

theorem Ascending.insertAll (ascending : Ascending set) (numbers : List Nat) : Ascending (set.insertAll numbers) := by
  induction numbers generalizing set with
  | nil => exact ascending
  | cons first rest ih => exact ih (ascending.insert first)

theorem Ascending.length_le {bound : Nat} (ascending : Ascending set) (bounded : ∀ id ∈ set, id < bound) :
    set.length ≤ bound := by
  have nodup : set.Nodup := ascending.imp Nat.ne_of_lt
  have inside : set ⊆ List.range bound := fun id member => List.mem_range.mpr (bounded id member)
  have := (List.subperm_of_subset nodup inside).length_le
  simpa using this

end IdSet

end Excerpt
