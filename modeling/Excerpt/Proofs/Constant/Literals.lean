import Excerpt.Constant.Literal
import Mathlib.Data.Nat.Digits.Lemmas

/-!
Integer literals as they are written, and read back. What is read is the number, wrapped to a word, as long as it fits
64 bits.
-/

namespace Excerpt.Constant

/-- The base of a literal and, where it has a mark, the zeros in front of the digits. -/
inductive Base where
  | binary (upper : Bool) (zeros : Nat)
  | octal (zeros : Nat)
  | decimal
  | hexadecimal (upper : Bool) (zeros : Nat)

namespace Base

def radix : Base → Nat
  | binary .. => 2
  | octal _ => 8
  | decimal => 10
  | hexadecimal .. => 16

/-- What stands in front of the digits. The mark of an octal literal is a digit. -/
def mark : Base → List Char
  | binary upper _ => ['0', if upper then 'B' else 'b']
  | hexadecimal upper _ => ['0', if upper then 'X' else 'x']
  | _ => []

def zeros : Base → Nat
  | binary _ zeros => zeros
  | octal zeros => zeros + 1
  | decimal => 0
  | hexadecimal _ zeros => zeros

def numeral (base : Base) (n : Nat) : List Nat :=
  if n = 0 then [0] else (Nat.digits base.radix n).reverse

def digits (base : Base) (n : Nat) : List Nat :=
  List.replicate base.zeros 0 ++ base.numeral n

end Base

/-- The choices in writing a literal. Places are counted from the last digit. -/
structure Spelling where
  base : Base
  /-- The digit at a place is written with a capital letter. -/
  upper : Nat → Bool
  /-- The quotes behind the digit at a place. -/
  quotes : Nat → Nat
  suffix : List Char
  suffix_letters : ∀ c ∈ suffix, c ∈ ['u', 'U', 'l', 'L']

namespace Spelling

variable (spelling : Spelling)

def digitChar (upper : Bool) (digit : Nat) : Char :=
  if upper then digit.digitChar.toUpper else digit.digitChar

def writeDigits : List Nat → List Char
  | [] => []
  | [digit] => [digitChar (spelling.upper 0) digit]
  | digit :: rest =>
    digitChar (spelling.upper rest.length) digit ::
      (List.replicate (spelling.quotes rest.length) '\'' ++ writeDigits rest)

def write (n : Nat) : List Char :=
  spelling.base.mark ++ spelling.writeDigits (spelling.base.digits n) ++ spelling.suffix

end Spelling

theorem Base.radix_bounds (base : Base) : 1 < base.radix ∧ base.radix ≤ 16 := by
  cases base <;> simp [radix]

theorem Base.lt_of_mem_digits {base : Base} {n digit : Nat} (member : digit ∈ base.digits n) : digit < base.radix := by
  have positive := base.radix_bounds.1
  rcases List.mem_append.mp member with member | member
  · rw [List.eq_of_mem_replicate member]
    omega
  · unfold numeral at member
    split at member
    · rw [List.mem_singleton.mp member]
      omega
    · exact Nat.digits_lt_base positive (List.mem_reverse.mp member)

theorem Base.numeral_ne_nil (base : Base) (n : Nat) : base.numeral n ≠ [] := by
  unfold numeral
  split
  · simp
  · next some => simp [Nat.digits_ne_nil_iff_ne_zero.mpr some]

theorem Base.digits_ne_nil (base : Base) (n : Nat) : base.digits n ≠ [] := by
  simp [digits, numeral_ne_nil]

theorem Base.digits_octal (zeros n : Nat) : ∃ next rest, (octal zeros).digits n = 0 :: next :: rest := by
  have some : List.replicate zeros 0 ++ (octal zeros).numeral n ≠ [] := by simp [numeral_ne_nil]
  obtain ⟨next, rest, same⟩ := List.exists_cons_of_ne_nil some
  exact ⟨next, rest, by rw [← same]; rfl⟩

theorem Base.digits_decimal {n : Nat} (positive : n ≠ 0) :
    ∃ first rest, decimal.digits n = first :: rest ∧ first ≠ 0 := by
  have some : Nat.digits 10 n ≠ [] := Nat.digits_ne_nil_iff_ne_zero.mpr positive
  refine ⟨(Nat.digits 10 n).getLast some, (Nat.digits 10 n).dropLast.reverse, ?_, Nat.getLast_digit_ne_zero 10 positive⟩
  rw [digits, numeral, if_neg positive, ← List.reverse_concat, List.dropLast_append_getLast]
  rfl

def valueFrom (radix value : Nat) (digits : List Nat) : Nat :=
  digits.foldl (fun value digit => value * radix + digit) value

theorem Base.valueFrom_digits (base : Base) (n : Nat) : valueFrom base.radix 0 (base.digits n) = n := by
  have zeros : ∀ count, (List.replicate count 0).foldl (fun value digit => value * base.radix + digit) 0 = 0 := by
    intro count
    induction count with
    | zero => rfl
    | succ count ih => simpa [List.replicate_succ] using ih
  rw [digits, valueFrom, List.foldl_append, zeros, numeral]
  split
  · next none => simp [none]
  · conv_rhs => rw [← Nat.ofDigits_digits base.radix n, Nat.ofDigits_eq_foldr]
    simp only [List.foldl_reverse, Nat.cast_id, Nat.add_comm, Nat.mul_comm]

section Digits

variable {radix digit : Nat} {digits : List Nat}

theorem digitValue?_digitChar (small : digit < 16) (upper : Bool) :
    digitValue? (Spelling.digitChar upper digit) = some digit := by
  revert digit upper
  decide

theorem digitChar_plain (small : digit < 16) (upper : Bool) :
    Spelling.digitChar upper digit ∉ ['\'', '+', 'u', 'U', 'l', 'L', 'x', 'X'] := by
  revert digit upper
  decide

theorem digitChar_decimal (small : digit < 10) (upper : Bool) :
    Spelling.digitChar upper digit ∉ ['x', 'X', 'b', 'B'] ∧ (Spelling.digitChar upper digit = '0' ↔ digit = 0) := by
  revert digit upper
  decide

theorem writeDigits_cons (spelling : Spelling) (digit : Nat) (digits : List Nat) :
    ∃ quotes, spelling.writeDigits (digit :: digits) =
      Spelling.digitChar
        (spelling.upper digits.length) digit :: (List.replicate quotes '\'' ++ spelling.writeDigits digits) := by
  cases digits with
  | nil => exact ⟨0, rfl⟩
  | cons next rest => exact ⟨_, rfl⟩

/-- Quotes between the digits and the case of hexadecimal digits do not count. -/
theorem digitsFrom?_writeDigits (spelling : Spelling) (value : Nat) (inside : radix ≤ 16)
    (small : ∀ digit ∈ digits, digit < radix) :
    digitsFrom? radix value ((spelling.writeDigits digits).filter (· ≠ '\'')) =
      some (valueFrom radix value digits) := by
  induction digits generalizing value with
  | nil => rfl
  | cons digit rest ih =>
    obtain ⟨quotes, same⟩ := writeDigits_cons spelling digit rest
    have bound := small digit List.mem_cons_self
    have plain := digitChar_plain (bound.trans_le inside) (spelling.upper rest.length)
    have quoteless : Spelling.digitChar (spelling.upper rest.length) digit ≠ '\'' := fun same => plain (by simp [same])
    have quoted : (List.replicate quotes '\'').filter (· ≠ '\'') = [] := by simp
    rw [same, List.filter_cons_of_pos (by simpa using quoteless), List.filter_append, quoted, List.nil_append,
      digitsFrom?, digitValue?_digitChar (bound.trans_le inside)]
    simp only [if_pos bound]
    exact ih _ fun digit member => small digit (List.mem_cons_of_mem _ member)

theorem natural?_of_ne_plus {c : Char} {rest : List Char} (plain : c ≠ '+') :
    natural? radix (c :: rest) = (digitsFrom? radix 0 (c :: rest)).filter (· < UInt64.size) := by
  unfold natural?
  split
  · next same => exact absurd (List.cons.inj same).1 plain
  · rfl

/-- Digits are read to their value, if it fits 64 bits. Quotes in front of them are left out too. -/
theorem natural?_writeDigits (spelling : Spelling) (quotes : Nat) (first : digits ≠ []) (inside : radix ≤ 16)
    (small : ∀ digit ∈ digits, digit < radix) :
    natural? radix ((List.replicate quotes '\'' ++ spelling.writeDigits digits).filter (· ≠ '\'')) =
      if valueFrom radix 0 digits < UInt64.size then some (valueFrom radix 0 digits) else none := by
  have read := digitsFrom?_writeDigits spelling 0 inside small
  have quoted : (List.replicate quotes '\'').filter (· ≠ '\'') = [] := by simp
  rw [List.filter_append, quoted, List.nil_append]
  obtain ⟨digit, rest, rfl⟩ := List.exists_cons_of_ne_nil first
  obtain ⟨others, same⟩ := writeDigits_cons spelling digit rest
  have plain := digitChar_plain ((small digit List.mem_cons_self).trans_le inside) (spelling.upper rest.length)
  rw [same, List.filter_cons_of_pos (by simpa using fun same => plain (by simp [same]))] at read ⊢
  rw [natural?_of_ne_plus fun same => plain (by simp [same]), read, Option.filter_some]
  simp only [decide_eq_true_eq]

/-- The last character written is a digit, so a suffix behind it is told apart. -/
theorem exists_last_digit (spelling : Spelling) (first : digits ≠ []) (small : ∀ digit ∈ digits, digit < 16) :
    ∃ front digit upper, digit < 16 ∧ spelling.writeDigits digits = front ++ [Spelling.digitChar upper digit] := by
  induction digits with
  | nil => exact absurd rfl first
  | cons digit rest ih =>
    by_cases last : rest = []
    · subst last
      exact ⟨[], digit, _, small digit List.mem_cons_self, rfl⟩
    · obtain ⟨front, final, upper, bound, same⟩ :=
        ih last fun digit member => small digit (List.mem_cons_of_mem _ member)
      obtain ⟨quotes, whole⟩ := writeDigits_cons spelling digit rest
      exact ⟨_ :: (List.replicate quotes '\'' ++ front), final, upper, bound, by
        rw [whole, same, List.cons_append, List.append_assoc]⟩

end Digits

section Write

variable (spelling : Spelling) (n : Nat)

theorem dropEndWhile_write : Text.dropEndWhile (· ∈ ['u', 'U', 'l', 'L']) (spelling.write n) =
    spelling.base.mark ++ spelling.writeDigits (spelling.base.digits n) := by
  obtain ⟨front, digit, upper, bound, same⟩ := exists_last_digit spelling (spelling.base.digits_ne_nil n)
    fun digit member => (Base.lt_of_mem_digits member).trans_le spelling.base.radix_bounds.2
  have plain := digitChar_plain bound upper
  have letters : ∀ c ∈ spelling.suffix.reverse, decide (c ∈ ['u', 'U', 'l', 'L']) = true :=
    fun c member => decide_eq_true (spelling.suffix_letters c (List.mem_reverse.mp member))
  rw [Text.dropEndWhile, Spelling.write, List.reverse_append, List.dropWhile_append_of_pos letters, same,
    ← List.append_assoc,
    List.reverse_append, List.reverse_singleton, List.singleton_append, List.dropWhile_cons_of_neg]
  · simp
  · simp only [List.mem_cons, List.not_mem_nil, or_false, decide_eq_true_eq] at plain ⊢
    tauto

theorem splitRadix_octal {c : Char} {rest : List Char} (plain : c ∉ ['x', 'X', 'b', 'B']) :
    splitRadix ('0' :: c :: rest) = (8, c :: rest) := by
  unfold splitRadix
  split <;> simp_all

theorem splitRadix_decimal {c : Char} {rest : List Char} (plain : c ≠ '0') :
    splitRadix (c :: rest) = (10, c :: rest) := by
  unfold splitRadix
  split <;> simp_all

/-- Each base is known by its mark: that of an octal number is a leading zero with a digit or a quote behind it. -/
theorem splitRadix_write (base : Base) : ∃ quotes digits, digits ≠ [] ∧ (∀ digit ∈ digits, digit < base.radix) ∧
    valueFrom base.radix 0 digits = n ∧ splitRadix (base.mark ++ spelling.writeDigits (base.digits n)) =
      (base.radix, List.replicate quotes '\'' ++ spelling.writeDigits digits) := by
  have first := base.digits_ne_nil n
  have small : ∀ digit ∈ base.digits n, digit < base.radix := fun _ => Base.lt_of_mem_digits
  have value := base.valueFrom_digits n
  cases base with
  | binary upper zeros => exact ⟨0, _, first, small, value, by cases upper <;> rfl⟩
  | hexadecimal upper zeros => exact ⟨0, _, first, small, value, by cases upper <;> rfl⟩
  | octal zeros =>
    obtain ⟨next, rest, same⟩ := Base.digits_octal zeros n
    rw [same] at small value ⊢
    refine ⟨spelling.quotes (next :: rest).length, next :: rest, by simp,
      fun digit member => small digit (.tail _ member), value, ?_⟩
    have bound : next < 8 := small next (by simp)
    obtain ⟨plain, -⟩ := digitChar_decimal (bound.trans (by decide)) (spelling.upper rest.length)
    obtain ⟨quotes, written⟩ := writeDigits_cons spelling next rest
    rw [Spelling.writeDigits, (digitChar_decimal (by decide) _).2.mpr rfl, written]
    -- Behind the mark stands a quote or another digit.
    cases spelling.quotes (next :: rest).length with
    | zero => exact splitRadix_octal plain
    | succ count => exact splitRadix_octal (by decide)
    all_goals simp
  | decimal =>
    refine ⟨0, _, first, small, value, ?_⟩
    by_cases positive : n = 0
    · subst positive
      change splitRadix [Spelling.digitChar (spelling.upper 0) 0] = (10, [Spelling.digitChar (spelling.upper 0) 0])
      rw [(digitChar_decimal (by decide) _).2.mpr rfl]
      rfl
    · obtain ⟨digit, rest, same, other⟩ := Base.digits_decimal positive
      obtain ⟨quotes, written⟩ := writeDigits_cons spelling digit rest
      rw [same] at small ⊢
      rw [written]
      exact splitRadix_decimal fun zero => other ((digitChar_decimal (small digit List.mem_cons_self) _).2.mp zero)

/-- A literal is read as the number that it was written for, wrapped to a word, unless the number needs more than 64
bits. -/
theorem intLiteral?_write : intLiteral? (spelling.write n) =
    if n < 2 ^ 64 then some (UInt64.ofNat n).toInt64 else none := by
  obtain ⟨quotes, digits, first, small, value, split⟩ := splitRadix_write spelling n spelling.base
  unfold intLiteral?
  rw [dropEndWhile_write, split]
  dsimp only
  rw [natural?_writeDigits spelling quotes first spelling.base.radix_bounds.2 small, value]
  change Option.map Int64.ofNat (if n < 2 ^ 64 then some n else none) = _
  split <;> rfl

end Write

end Excerpt.Constant
