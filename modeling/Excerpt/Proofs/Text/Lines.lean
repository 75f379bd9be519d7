import Excerpt.Proofs.Data.Halving
import Excerpt.Text.Lines
import Mathlib.Data.Prod.Lex
import Mathlib.Order.Bounds.Basic
import Mathlib.Data.List.Basic

/-!
Lines and columns, told from the bytes of a text. The byte of a newline, 10, is part of no other character.
-/

namespace Excerpt.Text

def bytes (text : List Char) : List UInt8 :=
  text.flatMap String.utf8EncodeChar

theorem newline_of_mem {c : Char} (member : 10 ∈ String.utf8EncodeChar c) : c = '\n' := by
  refine Char.ext (UInt32.toNat_inj.mp (show c.val.toNat = 10 from ?_))
  revert member
  -- A longer form has bytes above 127 only.
  fun_cases String.utf8EncodeChar c
  all_goals
    simp only [List.mem_cons, List.not_mem_nil, or_false, @eq_comm UInt8 10, UInt8.ofNat_eq_iff_mod_eq_toNat,
      UInt8.reduceToNat]
    omega

theorem idxsOf_utf8EncodeChar (c : Char) (offset : Nat) :
    List.idxsOf 10 (String.utf8EncodeChar c) offset = if c = '\n' then [offset] else [] := by
  split
  · next same => subst same; rfl
  · next other =>
    rw [List.idxsOf_eq_nil_iff]
    intro byte member
    rw [beq_eq_false_iff_ne]
    rintro rfl
    exact other (newline_of_mem member)

theorem lineStartsFrom_eq (offset : Nat) (text : List Char) :
    lineStartsFrom offset text = (List.idxsOf 10 (bytes text) offset).map (· + 1) := by
  induction text generalizing offset with
  | nil => rfl
  | cons c rest ih =>
    rw [bytes, List.flatMap_cons, List.idxsOf_append, idxsOf_utf8EncodeChar, String.length_utf8EncodeChar,
      lineStartsFrom, ih]
    split
    · next same => subst same; rfl
    · rfl

theorem lineStarts_eq (text : List Char) : lineStarts text = 0 :: (List.idxsOf 10 (bytes text)).map (· + 1) := by
  rw [lineStarts, lineStartsFrom_eq]

theorem mem_lineStarts {text : List Char} {start : Nat} :
    start ∈ lineStarts text ↔ start = 0 ∨ ∃ i, (bytes text)[i]? = some 10 ∧ start = i + 1 := by
  simp only [lineStarts_eq, List.mem_cons, List.mem_map, List.mem_idxsOf_iff_exists_getElem_pos, beq_iff_eq,
    List.getElem?_eq_some_iff, @eq_comm _ start]

theorem lineStarts_pairwise (text : List Char) : (lineStarts text).Pairwise (· < ·) := by
  rw [lineStarts_eq, List.pairwise_cons, List.pairwise_map]
  refine ⟨fun start member => ?_, List.pairwise_idxsOf.imp fun less => Nat.succ_lt_succ less⟩
  obtain ⟨i, -, rfl⟩ := List.mem_map.mp member
  exact Nat.succ_pos i

theorem lineStarts_cut (text : List Char) (offset : Nat) :
    (lineStarts text).Pairwise fun first second => decide (second ≤ offset) = true →
      decide (first ≤ offset) = true := by
  refine (lineStarts_pairwise text).imp fun less early => ?_
  simp only [decide_eq_true_eq] at early ⊢
  omega

theorem countP_idxsOf (bytes : List UInt8) (offset : Nat) :
    (List.idxsOf 10 bytes).countP (· < offset) = (bytes.take offset).count 10 := by
  nth_rewrite 1 [← List.take_append_drop offset bytes]
  have below : ((bytes.take offset).idxsOf 10).countP (· < offset) = (bytes.take offset).count 10 := by
    rw [← List.length_idxsOf (s := 0), List.countP_eq_length]
    intro i member
    have := List.lt_add_of_mem_idxsOf i member
    simp at this ⊢
    omega
  have above : ((bytes.drop offset).idxsOf 10 (0 + (bytes.take offset).length)).countP (· < offset) = 0 := by
    rw [List.countP_eq_zero]
    intro i member
    have first := List.ge_of_mem_idxsOf i member
    have last := List.lt_add_of_mem_idxsOf i member
    simp at first last ⊢
    omega
  rw [List.idxsOf_append, List.countP_append, below, above, Nat.add_zero]

theorem countP_lineStarts (text : List Char) (offset : Nat) :
    (lineStarts text).countP (· ≤ offset) = 1 + ((bytes text).take offset).count 10 := by
  rw [lineStarts_eq, List.countP_cons_of_pos (by simp), List.countP_map, ← countP_idxsOf, Nat.add_comm]
  rfl

/-- The line is the number of line starts up to the offset, the column the distance from the last of them. -/
theorem lineColumn_eq (text : List Char) (offset : Nat) : ∃ start,
    (lineStarts text)[((bytes text).take offset).count 10]? = some start ∧ start ≤ offset ∧
      lineColumn text offset = (1 + ((bytes text).take offset).count 10, offset - start) := by
  have cut := lineStarts_cut text offset
  have lines := countP_lineStarts text offset
  obtain ⟨start, found, early⟩ := Option.any_eq_true _ _ |>.mp ((any_getElem?_iff_lt_countP cut _).mpr
    (lines ▸ Nat.lt_add_of_pos_left Nat.one_pos))
  refine ⟨start, found, by simpa using early, ?_⟩
  have reached : (lineStarts text).takeWhile (· ≤ offset) =
      (lineStarts text).take (1 + ((bytes text).take offset).count 10) := by
    rw [takeWhile_eq_filter cut, ← take_countP cut, lines]
  have inside : 1 + ((bytes text).take offset).count 10 ≤ (lineStarts text).length := lines ▸ List.countP_le_length
  rw [lineColumn, reached, List.length_take, Nat.min_eq_left inside, List.getLastD_eq_getLast?, List.getLast?_take]
  simp [found]

/-- The line of an offset begins behind the last newline below the offset. -/
theorem isGreatest_lineStart {text : List Char} {offset start : Nat}
    (found : (lineStarts text)[((bytes text).take offset).count 10]? = some start) (early : start ≤ offset) :
    IsGreatest {next | next = 0 ∨ ∃ i < offset, (bytes text)[i]? = some 10 ∧ next = i + 1} start := by
  have starts : ∀ next, (next = 0 ∨ ∃ i < offset, (bytes text)[i]? = some 10 ∧ next = i + 1) ↔
      next ∈ lineStarts text ∧ next ≤ offset := by
    intro next
    rw [mem_lineStarts]
    constructor
    · rintro (rfl | ⟨i, less, byte, rfl⟩)
      · exact ⟨.inl rfl, Nat.zero_le _⟩
      · exact ⟨.inr ⟨i, byte, rfl⟩, less⟩
    · rintro ⟨rfl | ⟨i, byte, rfl⟩, less⟩
      · exact .inl rfl
      · exact .inr ⟨i, less, byte, rfl⟩
  refine ⟨(starts start).mpr ⟨List.mem_of_getElem? found, early⟩, fun next isStart => ?_⟩
  obtain ⟨listed, below⟩ := (starts next).mp isStart
  obtain ⟨place, inside, rfl⟩ := List.getElem_of_mem listed
  obtain ⟨known, rfl⟩ := List.getElem?_eq_some_iff.mp found
  have counted := (any_getElem?_iff_lt_countP (lineStarts_cut text offset) place).mp (by simp [inside, below])
  rw [countP_lineStarts] at counted
  rcases Nat.lt_or_eq_of_le (Nat.lt_one_add_iff.mp counted) with less | same
  · exact (List.pairwise_iff_getElem.mp (lineStarts_pairwise text) _ _ inside known less).le
  · exact (getElem_congr_idx same).le

theorem lineColumn_strictMono (text : List Char) : StrictMono fun offset => toLex (lineColumn text offset) := by
  intro offset later less
  obtain ⟨start, found, early, same⟩ := lineColumn_eq text offset
  obtain ⟨next, foundNext, earlyNext, sameNext⟩ := lineColumn_eq text later
  have grows := (List.take_sublist_take_left (l := bytes text) less.le).count_le 10
  simp only [same, sameNext, Prod.Lex.toLex_lt_toLex]
  rcases Nat.lt_or_eq_of_le grows with newLine | sameLine
  · exact .inl (Nat.add_lt_add_left newLine 1)
  · obtain rfl : start = next := Option.some.inj (found.symm.trans (sameLine ▸ foundNext))
    exact .inr ⟨by rw [sameLine], by omega⟩

/-- An offset has one more line than there are newlines below it, and its column is counted from behind the last of
them. A search by halving finds the line, and its start is not behind the offset. Different offsets have different
lines and columns, in the same order. In a text of fewer than 4294967295 bytes all of these numbers fit in 32 bits. -/
theorem lineColumn_exact (text : List Char) :
    (∀ offset, ∃ start, lineColumn text offset = (1 + ((bytes text).take offset).count 10, offset - start) ∧
      IsGreatest {next | next = 0 ∨ ∃ i < offset, (bytes text)[i]? = some 10 ∧ next = i + 1} start ∧
      (lineColumn text offset).1 = max 1 (partitionPoint (· ≤ offset) (lineStarts text)) ∧
      (lineStarts text)[(lineColumn text offset).1 - 1]? = some start ∧ start ≤ offset) ∧
    Function.Injective (lineColumn text) ∧ (StrictMono fun offset => toLex (lineColumn text offset)) ∧
    ((bytes text).length < 4294967295 → (∀ start ∈ lineStarts text, start < 4294967295) ∧
      ∀ offset, (lineColumn text offset).1 ≤ 4294967295) := by
  refine ⟨fun offset => ?_, fun offset other same => ?_, lineColumn_strictMono text,
    fun short => ⟨?_, fun offset => ?_⟩⟩
  · obtain ⟨start, found, early, same⟩ := lineColumn_eq text offset
    refine ⟨start, same, isGreatest_lineStart found early, ?_, by simpa [same] using found, early⟩
    rw [same, partitionPoint_eq_countP (lineStarts_cut text offset), countP_lineStarts]
    omega
  · exact (lineColumn_strictMono text).injective (congrArg toLex same)
  · intro start member
    rcases mem_lineStarts.mp member with rfl | ⟨i, byte, rfl⟩
    · decide
    · have := (List.getElem?_eq_some_iff.mp byte).1
      omega
  · obtain ⟨start, -, -, same⟩ := lineColumn_eq text offset
    have counted := ((bytes text).take_sublist offset).count_le 10
    have := (bytes text).count_le_length (a := 10)
    rw [same]
    omega

/-- A text with a character of two bytes and an empty line, at an offset past its end. -/
theorem lineColumn_exact_pastEnd : lineColumn "é\n\nb".toList 9 = (3, 5) ∧
    ∀ offset, (lineColumn "é\n\nb".toList offset).1 ≤ 4294967295 :=
  ⟨by decide, ((lineColumn_exact _).2.2.2 (by decide)).2⟩

end Excerpt.Text
