import Excerpt.Constant.Operator
import Mathlib.Algebra.Order.Group.Unbundled.Int
import Mathlib.Tactic.Tauto

/-!
Operators of constant expressions as arithmetic on integers. A word stands for an integer between -2^63 and 2^63 - 1.
-/

namespace Excerpt.Constant

namespace UnaryOp

/-- What a unary operator makes of a word, by way of the integers. -/
def result (op : UnaryOp) (value : Int64) : Int64 :=
  match op with
  | negate => .ofInt (-value.toInt)
  | plus => value
  | complement => .ofInt (-value.toInt - 1)
  | not => if value.toInt = 0 then 1 else 0

theorem apply_eq_result (op : UnaryOp) (value : Int64) : op.apply value = op.result value := by
  cases op with
  | negate => simp [apply, result]
  | plus => rfl
  | complement => simp [apply, result, Int64.not_eq_neg_sub]
  | not => simp [apply, result, truth, ← Int64.toInt_inj]

end UnaryOp

namespace BinaryOp

/-- What a binary operator makes of two words, by way of the integers. -/
def result (op : BinaryOp) (left right : Int64) : Option Int64 :=
  match op with
  | logicalOr => some (if left.toInt ≠ 0 ∨ right.toInt ≠ 0 then 1 else 0)
  | logicalAnd => some (if left.toInt ≠ 0 ∧ right.toInt ≠ 0 then 1 else 0)
  | bitOr => some (left ||| right)
  | bitXor => some (left ^^^ right)
  | bitAnd => some (left &&& right)
  | equal => some (if left.toInt = right.toInt then 1 else 0)
  | notEqual => some (if left.toInt ≠ right.toInt then 1 else 0)
  | less => some (if left.toInt < right.toInt then 1 else 0)
  | greater => some (if right.toInt < left.toInt then 1 else 0)
  | lessEqual => some (if left.toInt ≤ right.toInt then 1 else 0)
  | greaterEqual => some (if right.toInt ≤ left.toInt then 1 else 0)
  | shiftLeft =>
    if 0 ≤ right.toInt ∧ right.toInt ≤ 63 then some (.ofInt (left.toInt * 2 ^ right.toInt.toNat)) else none
  | shiftRight =>
    if 0 ≤ right.toInt ∧ right.toInt ≤ 63 then some (.ofInt (left.toInt / 2 ^ right.toInt.toNat)) else none
  | add => some (.ofInt (left.toInt + right.toInt))
  | subtract => some (.ofInt (left.toInt - right.toInt))
  | multiply => some (.ofInt (left.toInt * right.toInt))
  | divide =>
    if right.toInt = 0 ∨ left = Int64.minValue ∧ right = -1 then none
    else some (.ofInt (left.toInt.tdiv right.toInt))
  | remainder =>
    if right.toInt = 0 ∨ left = Int64.minValue ∧ right = -1 then none
    else some (.ofInt (left.toInt.tmod right.toInt))

theorem isShift_iff {places : Int64} : isShift places = true ↔ 0 ≤ places.toInt ∧ places.toInt ≤ 63 := by
  have bound : Int64.toInt 64 = 63 + 1 := rfl
  simp only [isShift, Bool.and_eq_true, decide_eq_true_eq, Int64.le_iff_toInt_le, Int64.lt_iff_toInt_lt, bound,
    Int.lt_add_one_iff]
  exact Iff.rfl

theorem isDivisible_iff {left right : Int64} :
    isDivisible left right = true ↔ ¬(right.toInt = 0 ∨ left = Int64.minValue ∧ right = -1) := by
  have zero : right.toInt = 0 ↔ right = 0 := Int64.toInt_inj (y := 0)
  simp only [isDivisible, zero, Bool.and_eq_true, decide_eq_true_eq, Bool.not_eq_true', Bool.and_eq_false_iff,
    beq_eq_false_iff_ne]
  tauto

theorem toNat_smod {places : Int64} (least : 0 ≤ places.toInt) (most : places.toInt ≤ 63) :
    (places.toBitVec.smod 64).toNat = places.toInt.toNat := by
  have same : places.toBitVec.smod 64 = places.toBitVec := by
    apply BitVec.eq_of_toInt_eq
    rw [BitVec.toInt_smod]
    exact Int.fmod_eq_of_lt least (Int.lt_add_one_iff.mpr most)
  have value : places.toInt = _ := BitVec.toInt_eq_toNat_cond places.toBitVec
  rw [same]
  split at value <;> omega

theorem shiftLeft_eq {left places : Int64} (least : 0 ≤ places.toInt) (most : places.toInt ≤ 63) :
    left <<< places = .ofInt (left.toInt * 2 ^ places.toInt.toNat) := by
  apply Int64.toBitVec_inj.mp
  have power : BitVec.twoPow 64 places.toInt.toNat = BitVec.ofInt 64 (2 ^ places.toInt.toNat) := by
    have natural : (2 : Int) ^ places.toInt.toNat = ((2 ^ places.toInt.toNat : Nat) : Int) := by push_cast; rfl
    rw [natural, BitVec.ofInt_natCast]
    apply BitVec.eq_of_toNat_eq
    rw [BitVec.toNat_twoPow, BitVec.toNat_ofNat]
  have word : BitVec.ofInt 64 left.toInt = left.toBitVec := BitVec.ofInt_toInt
  rw [Int64.toBitVec_shiftLeft, BitVec.shiftLeft_eq', toNat_smod least most, BitVec.shiftLeft_eq_mul_twoPow,
    Int64.toBitVec_ofInt, BitVec.ofInt_mul, word, power]

theorem shiftRight_eq {left places : Int64} (least : 0 ≤ places.toInt) (most : places.toInt ≤ 63) :
    left >>> places = .ofInt (left.toInt / 2 ^ places.toInt.toNat) := by
  apply Int64.toBitVec_inj.mp
  rw [Int64.toBitVec_shiftRight, BitVec.sshiftRight_eq', toNat_smod least most, BitVec.sshiftRight_eq,
    Int.shiftRight_eq_div_pow]
  rfl

theorem divide_eq (left right : Int64) : left / right = .ofInt (left.toInt.tdiv right.toInt) := by
  apply Int64.toInt_inj.mp
  rw [Int64.toInt_div, Int64.toInt_ofInt]

theorem remainder_eq (left right : Int64) : left % right = .ofInt (left.toInt.tmod right.toInt) := by
  rw [← Int64.toInt_mod, Int64.ofInt_toInt]

/-- Sums, products and shifts to the left are the exact integer reduced to a word, quotients are cut off towards zero,
and a shift to the right rounds down. -/
theorem apply_eq_result (op : BinaryOp) (left right : Int64) : op.apply left right = op.result left right := by
  have zero : ∀ value : Int64, value.toInt = 0 ↔ value = 0 := fun value => Int64.toInt_inj (y := 0)
  cases op with
  | logicalOr => simp [apply, result, truth, zero]
  | logicalAnd => simp [apply, result, truth, zero]
  | bitOr | bitXor | bitAnd => rfl
  | equal => simp [apply, result, truth, Int64.toInt_inj]
  | notEqual => simp [apply, result, truth, Int64.toInt_inj]
  | less => simp [apply, result, truth, Int64.lt_iff_toInt_lt]
  | greater => simp [apply, result, truth, Int64.lt_iff_toInt_lt]
  | lessEqual => simp [apply, result, truth, Int64.le_iff_toInt_le]
  | greaterEqual => simp [apply, result, truth, Int64.le_iff_toInt_le]
  | shiftLeft =>
    simp only [apply, result, isShift_iff]
    split
    · next inside => rw [shiftLeft_eq inside.1 inside.2]
    · rfl
  | shiftRight =>
    simp only [apply, result, isShift_iff]
    split
    · next inside => rw [shiftRight_eq inside.1 inside.2]
    · rfl
  | add => simp [apply, result]
  | subtract => simp [apply, result]
  | multiply => simp [apply, result]
  | divide => simp only [apply, result, isDivisible_iff, ite_not, divide_eq]
  | remainder => simp only [apply, result, isDivisible_iff, ite_not, remainder_eq]

end BinaryOp

end Excerpt.Constant
