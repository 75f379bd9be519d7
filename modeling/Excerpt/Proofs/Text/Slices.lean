import Excerpt.Text.Bytes
import Mathlib.Data.List.Basic

/-!
Cutting a text at byte offsets. A stretch can be cut out when its two ends are boundaries between characters.
-/

namespace Excerpt.Text

variable {text : List Char} {start stop : Nat}

/-- The offset falls between two characters, or at an end. -/
def IsBoundary (text : List Char) (offset : Nat) : Prop :=
  ∃ front back, text = front ++ back ∧ byteLength front = offset

theorem byteLength_append (first second : List Char) :
    byteLength (first ++ second) = byteLength first + byteLength second := by
  induction first with
  | nil => simp [byteLength]
  | cons c rest ih => simp only [List.cons_append, byteLength, ih, Nat.add_assoc]

theorem eq_nil_of_byteLength (empty : byteLength text = 0) : text = [] := by
  cases text with
  | nil => rfl
  | cons c rest =>
    have := c.utf8Size_pos
    simp only [byteLength] at empty
    omega

theorem split_of_byteLength {front back first second : List Char} (same : front ++ back = first ++ second)
    (less : byteLength front ≤ byteLength first) : ∃ middle, first = front ++ middle ∧ back = middle ++ second := by
  rcases List.append_eq_append_iff.mp same with ⟨middle, longer, rest⟩ | ⟨middle, shorter, rest⟩
  · exact ⟨middle, longer, rest⟩
  · -- The overhang has no bytes.
    have none : middle = [] := by
      apply eq_nil_of_byteLength
      rw [shorter, byteLength_append] at less
      omega
    subst none
    exact ⟨[], by simpa using shorter.symm, by simpa using rest.symm⟩

theorem dropBytes_eq_some {count : Nat} {rest : List Char} :
    dropBytes? count text = some rest ↔ ∃ front, text = front ++ rest ∧ byteLength front = count := by
  constructor
  · intro dropped
    fun_induction dropBytes? count text with
    | case1 text =>
      cases dropped
      exact ⟨[], rfl, rfl⟩
    | case2 count => cases dropped
    | case3 count c tail fits ih =>
      obtain ⟨front, rfl, length⟩ := ih dropped
      refine ⟨c :: front, rfl, ?_⟩
      rw [byteLength, length]
      omega
    | case4 count c tail long => cases dropped
  · intro split
    obtain ⟨front, rfl, rfl⟩ := split
    induction front with
    | nil => simp [byteLength, dropBytes?]
    | cons c front ih =>
      obtain ⟨size, positive⟩ := Nat.exists_eq_succ_of_ne_zero (Nat.ne_of_gt c.utf8Size_pos)
      rw [byteLength, positive, Nat.succ_add, List.cons_append, dropBytes?, positive, if_pos (by omega)]
      rw [show size + byteLength front + 1 - size.succ = byteLength front by omega]
      exact ih

theorem takeBytes_eq_some {count : Nat} {front : List Char} :
    takeBytes? count text = some front ↔ ∃ rest, text = front ++ rest ∧ byteLength front = count := by
  constructor
  · intro taken
    fun_induction takeBytes? count text generalizing front with
    | case1 text =>
      cases taken
      exact ⟨text, rfl, rfl⟩
    | case2 count => cases taken
    | case3 count c tail fits ih =>
      obtain ⟨inner, found, rfl⟩ := Option.map_eq_some_iff.mp taken
      obtain ⟨rest, rfl, length⟩ := ih found
      refine ⟨rest, rfl, ?_⟩
      rw [byteLength, length]
      omega
    | case4 count c tail long => cases taken
  · intro split
    obtain ⟨rest, rfl, rfl⟩ := split
    induction front with
    | nil => simp [byteLength, takeBytes?]
    | cons c front ih =>
      obtain ⟨size, positive⟩ := Nat.exists_eq_succ_of_ne_zero (Nat.ne_of_gt c.utf8Size_pos)
      rw [byteLength, positive, Nat.succ_add, List.cons_append, takeBytes?, positive, if_pos (by omega)]
      rw [show size + byteLength front + 1 - size.succ = byteLength front by omega, ih]
      rfl

/-- A cut in bytes is a cut in characters: the text falls into three parts of the given lengths. -/
theorem slice_eq_some {part : List Char} : slice? text start stop = some part ↔
      ∃ front back, text = front ++ part ++ back ∧ byteLength front = start ∧ start + byteLength part = stop := by
  unfold slice?
  split_ifs with ordered
  · rw [Option.bind_eq_some_iff]
    constructor
    · intro cut
      obtain ⟨rest, dropped, taken⟩ := cut
      obtain ⟨front, rfl, length⟩ := dropBytes_eq_some.mp dropped
      obtain ⟨back, rfl, partLength⟩ := takeBytes_eq_some.mp taken
      exact ⟨front, back, by simp, length, by omega⟩
    · intro split
      obtain ⟨front, back, rfl, length, total⟩ := split
      exact ⟨part ++ back, dropBytes_eq_some.mpr ⟨front, by simp, length⟩,
        takeBytes_eq_some.mpr ⟨back, rfl, by omega⟩⟩
  · simp only [false_iff]
    intro split
    obtain ⟨front, back, -, -, total⟩ := split
    omega

theorem slice_isSome_iff :
    (slice? text start stop).isSome = true ↔ start ≤ stop ∧ IsBoundary text start ∧ IsBoundary text stop := by
  rw [Option.isSome_iff_exists]
  constructor
  · intro cut
    obtain ⟨part, cut⟩ := cut
    obtain ⟨front, back, rfl, length, total⟩ := slice_eq_some.mp cut
    refine ⟨by omega, ⟨front, part ++ back, by simp, length⟩, front ++ part, back, rfl, ?_⟩
    rw [byteLength_append]
    omega
  · intro cut
    obtain ⟨ordered, ⟨front, rest, split, length⟩, longer, back, other, total⟩ := cut
    have less : byteLength front ≤ byteLength longer := by omega
    obtain ⟨part, rfl, rfl⟩ := split_of_byteLength (split.symm.trans other) less
    rw [byteLength_append] at total
    exact ⟨part, slice_eq_some.mpr ⟨front, back, by simp [split], length, by omega⟩⟩

theorem slice_append {middle : Nat} (first : IsBoundary text start)
    (between : IsBoundary text middle) (last : IsBoundary text stop) (before : start ≤ middle)
    (after : middle ≤ stop) :
    slice text start stop = slice text start middle ++ slice text middle stop := by
  obtain ⟨left, cutLeft⟩ := Option.isSome_iff_exists.mp (slice_isSome_iff.mpr ⟨before, first, between⟩)
  obtain ⟨right, cutRight⟩ := Option.isSome_iff_exists.mp (slice_isSome_iff.mpr ⟨after, between, last⟩)
  obtain ⟨front, rest, split, length, total⟩ := slice_eq_some.mp cutLeft
  obtain ⟨longer, back, other, longerLength, longerTotal⟩ := slice_eq_some.mp cutRight
  have same : byteLength (front ++ left) = byteLength longer := by rw [byteLength_append]; omega
  rw [List.append_assoc] at other
  obtain ⟨middle, shorter, behind⟩ := split_of_byteLength (split.symm.trans other) (Nat.le_of_eq same)
  have none : middle = [] := by
    apply eq_nil_of_byteLength
    rw [shorter, byteLength_append _ middle] at same
    omega
  subst none
  have joined : slice? text start stop = some (left ++ right) := by
    refine slice_eq_some.mpr ⟨front, back, ?_, length, ?_⟩
    · rw [split, behind]
      simp
    · rw [byteLength_append]
      omega
  rw [slice, slice, slice, cutLeft, cutRight, joined]
  rfl

theorem byteLength_slice (first : IsBoundary text start) (last : IsBoundary text stop)
    (ordered : start ≤ stop) : byteLength (slice text start stop) = stop - start := by
  obtain ⟨part, cut⟩ := Option.isSome_iff_exists.mp (slice_isSome_iff.mpr ⟨ordered, first, last⟩)
  obtain ⟨front, back, -, -, total⟩ := slice_eq_some.mp cut
  rw [slice, cut, Option.getD_some]
  omega

theorem cut_of_slice_ne_nil (some : slice text start stop ≠ []) :
    start ≤ stop ∧ IsBoundary text start ∧ IsBoundary text stop := by
  apply slice_isSome_iff.mp
  rw [slice] at some
  cases cut : slice? text start stop with
  | none => simp [cut] at some
  | some part => rfl

end Excerpt.Text
