import Excerpt.Proofs.Data.Sorted

/-!
Search by halving. The values that pass a test stand ahead of the others, so that halving finds where they end.
-/

namespace Excerpt

/-- Halves the range of places from `first` up to `last` until it is empty. -/
def partitionFrom (test : α → Bool) (values : List α) (first last : Nat) : Nat :=
  if first < last then
    let middle := (first + last) / 2
    if values[middle]?.any test then partitionFrom test values (middle + 1) last
    else partitionFrom test values first middle
  else first
termination_by last - first

def partitionPoint (test : α → Bool) (values : List α) : Nat :=
  partitionFrom test values 0 values.length

/-- Each halving keeps the end of the values that pass inside the range. -/
theorem partitionFrom_eq {test : α → Bool} {values : List α} {point first last : Nat}
    (passes : ∀ i, values[i]?.any test = true ↔ i < point) (low : first ≤ point) (high : point ≤ last) :
    partitionFrom test values first last = point := by
  fun_induction partitionFrom test values first last with
  | case1 first last less middle passed ih => exact ih ((passes middle).mp passed) high
  | case2 first last less middle failed ih => exact ih low (Nat.not_lt.mp (mt (passes middle).mpr failed))
  | case3 first last empty => omega

theorem countP_eq_zero_of_cut {keep : α → Bool} {first : α} {rest : List α}
    (cut : (first :: rest).Pairwise fun first second => keep second = true → keep first = true)
    (failed : ¬ keep first = true) : (first :: rest).countP keep = 0 := by
  rw [List.countP_eq_zero]
  intro value member kept
  rcases List.mem_cons.mp member with rfl | member
  · exact failed kept
  · exact failed ((List.pairwise_cons.mp cut).1 value member kept)

section Cut

variable {keep skip : α → Bool} {values : List α}
  (cut : values.Pairwise fun first second => keep second = true → keep first = true)
include cut

theorem any_getElem?_iff_lt_countP (i : Nat) : values[i]?.any keep = true ↔ i < values.countP keep := by
  induction values generalizing i with
  | nil => simp
  | cons first rest ih =>
    by_cases kept : keep first = true
    · rw [List.countP_cons_of_pos kept]
      cases i with
      | zero => simp [kept]
      | succ i => rw [List.getElem?_cons_succ, ih (List.pairwise_cons.mp cut).2, Nat.succ_lt_succ_iff]
    · have none := countP_eq_zero_of_cut cut kept
      rw [none, Option.any_eq_true]
      simp only [Nat.not_lt_zero, iff_false, not_exists, not_and]
      exact fun value found => List.countP_eq_zero.mp none value (List.mem_of_getElem? found)

theorem partitionPoint_eq_countP : partitionPoint keep values = values.countP keep :=
  partitionFrom_eq (any_getElem?_iff_lt_countP cut) (Nat.zero_le _) List.countP_le_length

theorem take_countP : values.take (values.countP keep) = values.filter keep := by
  rw [List.countP_eq_length_filter, ← takeWhile_eq_filter cut]
  exact (List.prefix_iff_eq_take.mp (List.takeWhile_prefix keep)).symm

/-- Two searches cut out what passes one test and fails another. -/
theorem drop_take_countP (cutSkip : values.Pairwise fun first second => skip second = true → skip first = true) :
    (values.take (values.countP keep)).drop (values.countP skip) =
      values.filter fun value => !skip value && keep value := by
  induction values with
  | nil => rfl
  | cons first rest ih =>
    by_cases skipped : skip first = true
    · by_cases kept : keep first = true
      · simp [skipped, kept, ih cut.of_cons cutSkip.of_cons]
      · have none := countP_eq_zero_of_cut cut kept
        rw [none, List.take_zero, List.drop_nil, eq_comm, List.filter_eq_nil_iff]
        intro value member
        simp [List.countP_eq_zero.mp none value member]
    · have none := countP_eq_zero_of_cut cutSkip skipped
      rw [none, List.drop_zero, take_countP cut]
      exact List.filter_congr fun value member => by simp [List.countP_eq_zero.mp none value member]

end Cut

end Excerpt
