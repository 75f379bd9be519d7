import Excerpt.Text.Keyword
import Mathlib.Data.List.DropRight
import Mathlib.Data.List.TakeWhile

/-!
Removing keywords, word by word. A word is a longest run of word characters.
-/

namespace Excerpt.Text

def IsWord (word : List Char) : Prop :=
  word ≠ [] ∧ ∀ c ∈ word, isWordChar c = true

/-- The word stands in the text between two word boundaries. -/
def HasWord (word text : List Char) : Prop :=
  ∃ front back, text = front ++ word ++ back ∧ isWordBoundary front.getLast? word.head? = true ∧
    isWordBoundary word.getLast? back.head? = true

/-- The text is `kept` once the words among `keywords` are left out, each with all blanks behind it. -/
inductive Strips (keywords : List (List Char)) : List Char → List Char → Prop
  | nil : Strips keywords [] []
  | other {c : Char} {rest kept : List Char} (plain : isWordChar c = false) (further : Strips keywords rest kept) :
      Strips keywords (c :: rest) (c :: kept)
  | word {word rest kept : List Char} (isWord : IsWord word) (ends : rest.head?.any isWordChar = false)
      (apart : word ∉ keywords) (further : Strips keywords rest kept) : Strips keywords (word ++ rest) (word ++ kept)
  | keyword {word blanks rest kept : List Char} (isWord : IsWord word)
      (ends : (blanks ++ rest).head?.any isWordChar = false) (listed : word ∈ keywords)
      (blank : ∀ c ∈ blanks, isBlank c = true) (visible : rest.head?.any isBlank = false)
      (further : Strips keywords rest kept) : Strips keywords (word ++ (blanks ++ rest)) kept

structure RemovesExactly (keywords : List String) (remove : List Char → List Char) : Prop where
  strips : ∀ text, ∃ kept, Strips (keywords.map (·.toList)) text kept ∧ remove text = trim kept
  free : ∀ text, ∀ keyword ∈ keywords, ¬HasWord keyword.toList (remove text)
  again : ∀ text, remove (remove text) = remove text

section Words

variable {c : Char} {word text rest : List Char}

theorem wordRanges_apart : ∀ range ∈ wordRanges, ∀ gap ∈ [(9, 13), (32, 32), (0x85, 0x85), (0xA0, 0xA0),
    (0x1680, 0x1680), (0x2000, 0x200A), (0x2028, 0x2029), (0x202F, 0x202F), (0x205F, 0x205F), (0x3000, 0x3000)],
    range.2 < gap.1 ∨ gap.2 < range.1 := by
  decide +kernel

theorem not_isWordChar_of_isBlank (blank : isBlank c = true) : isWordChar c = false := by
  rw [isWordChar, List.any_eq_false]
  intro range listed
  have apart := wordRanges_apart range listed
  simp only [List.mem_cons, List.not_mem_nil, or_false, forall_eq_or_imp, forall_eq] at apart
  simp only [isBlank, Bool.or_eq_true, Bool.and_eq_true, decide_eq_true_eq, beq_iff_eq] at blank ⊢
  omega

theorem head_any_of_forall {p : Char → Bool} (none : ∀ c ∈ text, p c = false) : text.head?.any p = false := by
  cases text with
  | nil => rfl
  | cons c rest => exact none c (List.mem_cons_self ..)

theorem head_dropWhile {p : Char → Bool} (text : List Char) : (text.dropWhile p).head?.any p = false := by
  have first := List.head?_dropWhile_not p text
  cases head : (text.dropWhile p).head? with
  | none => rfl
  | some c =>
    rw [head] at first
    exact first

theorem takeWhile_word (isWord : IsWord word) (ends : rest.head?.any isWordChar = false) :
    (word ++ rest).takeWhile isWordChar = word := by
  rw [List.takeWhile_append_of_pos isWord.2]
  cases rest with
  | nil => simp
  | cons c rest => simpa using ends

theorem IsWord.getLast (isWord : IsWord word) : word.getLast?.any isWordChar = true := by
  rw [List.getLast?_eq_some_getLast isWord.1]
  exact isWord.2 _ (List.getLast_mem isWord.1)

theorem IsWord.head (isWord : IsWord word) : word.head?.any isWordChar = true := by
  rw [List.head?_eq_some_head isWord.1]
  exact isWord.2 _ (List.head_mem isWord.1)

theorem IsWord.hasWord_iff (isWord : IsWord word) : HasWord word text ↔ ∃ front back, text = front ++ word ++ back ∧
    front.getLast?.any isWordChar = false ∧ back.head?.any isWordChar = false := by
  simp [HasWord, isWordBoundary, isWord.getLast, isWord.head]

theorem IsWord.not_hasWord_nil (isWord : IsWord word) : ¬HasWord word [] := by
  rintro ⟨front, back, split, -⟩
  simp [isWord.1] at split

theorem IsWord.hasWord_cons (isWord : IsWord word) (plain : isWordChar c = false) :
    HasWord word (c :: text) ↔ HasWord word text := by
  simp only [isWord.hasWord_iff]
  constructor
  · rintro ⟨front, back, split, before, behind⟩
    cases front with
    | nil =>
      have first := congrArg (fun text => text.head?.any isWordChar) split
      simp [List.head?_append_of_ne_nil _ isWord.1, isWord.head, plain] at first
    | cons d front =>
      cases split
      refine ⟨front, back, rfl, ?_, behind⟩
      cases last : front.getLast? <;> simp_all [List.getLast?_cons]
  · rintro ⟨front, back, rfl, before, behind⟩
    refine ⟨c :: front, back, rfl, ?_, behind⟩
    cases last : front.getLast? <;> simp_all [List.getLast?_cons]

/-- A text that begins with a whole word has this word and those of the rest: no other word begins inside it. -/
theorem IsWord.hasWord_word {first : List Char} (isWord : IsWord word) (begins : IsWord first)
    (ends : rest.head?.any isWordChar = false) : HasWord word (first ++ rest) ↔ word = first ∨ HasWord word rest := by
  simp only [isWord.hasWord_iff]
  constructor
  · rintro ⟨front, back, split, before, behind⟩
    rw [List.append_assoc, List.append_eq_append_iff] at split
    rcases split with ⟨inner, rfl, split⟩ | ⟨inner, rfl, split⟩
    · refine .inr ⟨inner, back, by simpa using split, ?_, behind⟩
      cases last : inner.getLast? <;> simp_all [List.getLast?_append]
    · -- An occurrence that begins inside the word begins with it, and both reach up to the same end.
      obtain rfl : front = [] := by
        by_contra nonempty
        have letters : IsWord front := ⟨nonempty, fun c member => begins.2 c (List.mem_append_left _ member)⟩
        rw [letters.getLast] at before
        cases before
      rw [← takeWhile_word isWord behind, split]
      exact .inl (takeWhile_word begins ends)
  · rintro (rfl | ⟨front, back, rfl, before, behind⟩)
    · exact ⟨[], rest, rfl, rfl, ends⟩
    · refine ⟨first ++ front, back, by simp, ?_, behind⟩
      cases front with
      | nil => simp [List.head?_append_of_ne_nil _ isWord.1, isWord.head] at ends
      | cons c front => rwa [List.getLast?_append_of_ne_nil _ (List.cons_ne_nil c front)]

/-- Reading a text word by word. Behind a word, the text may also go on after blanks. -/
theorem word_induction {holds : List Char → Prop} (nil : holds [])
    (other : ∀ c rest, isWordChar c = false → holds rest → holds (c :: rest))
    (word : ∀ word rest, IsWord word → rest.head?.any isWordChar = false → holds rest →
      holds (rest.dropWhile isBlank) → holds (word ++ rest)) (text : List Char) : holds text := by
  induction size : text.length using Nat.strong_induction_on generalizing text with
  | _ size ih =>
    subst size
    cases text with
    | nil => exact nil
    | cons c rest =>
      by_cases letter : isWordChar c = true
      · have shorter : ((c :: rest).dropWhile isWordChar).length ≤ rest.length := by
          rw [List.dropWhile_cons_of_pos letter]
          exact (List.dropWhile_suffix _).length_le
        rw [← List.takeWhile_append_dropWhile (p := isWordChar) (l := c :: rest)]
        refine word _ _ ⟨by simp [letter], fun _ => List.mem_takeWhile_imp⟩ (head_dropWhile _) ?_ ?_
        · exact ih _ (Nat.lt_succ_of_le shorter) _ rfl
        · exact ih _ (Nat.lt_succ_of_le ((List.dropWhile_suffix _).length_le.trans shorter)) _ rfl
      · exact other c rest (by simpa using letter) (ih rest.length (Nat.lt_succ_self _) rest rfl)

end Words

section Trim

variable {text front back : List Char}

theorem trim_append (before : ∀ c ∈ front, isBlank c = true) (behind : ∀ c ∈ back, isBlank c = true) :
    trim (front ++ text ++ back) = trim text := by
  have none : back.dropWhile isBlank = [] := List.dropWhile_eq_nil_iff.mpr behind
  have start : trimStart (front ++ text ++ back) = trimStart text ++ if trimStart text = [] then [] else back := by
    rw [trimStart, List.append_assoc, List.dropWhile_append_of_pos before, List.dropWhile_append, none]
    by_cases blank : text.dropWhile isBlank = [] <;> simp [trimStart, blank]
  rw [trim, start, trim]
  split
  · rw [List.append_nil]
  · rw [trimEnd, dropEndWhile, List.reverse_append, List.dropWhile_append_of_pos (by simpa using behind)]
    rfl

theorem exists_trim (text : List Char) : ∃ front back, text = front ++ trim text ++ back ∧
    (∀ c ∈ front, isBlank c = true) ∧ ∀ c ∈ back, isBlank c = true := by
  refine ⟨text.takeWhile isBlank, ((trimStart text).reverse.takeWhile isBlank).reverse, ?_,
    fun _ => List.mem_takeWhile_imp, fun _ member => List.mem_takeWhile_imp (List.mem_reverse.mp member)⟩
  rw [trim, trimEnd, dropEndWhile, List.append_assoc, ← List.reverse_append, List.takeWhile_append_dropWhile,
    List.reverse_reverse, trimStart, List.takeWhile_append_dropWhile]

/-- Trimming makes no words, since blanks are no word characters. -/
theorem HasWord.of_trim {word : List Char} (isWord : IsWord word) (has : HasWord word (trim text)) :
    HasWord word text := by
  obtain ⟨front, back, split, before, behind⟩ := exists_trim text
  rw [isWord.hasWord_iff] at has ⊢
  obtain ⟨first, last, same, start, stop⟩ := has
  refine ⟨front ++ first, last ++ back, by rw [split, same]; simp, ?_, ?_⟩
  · cases end_ : first.getLast? with
    | none =>
      rw [List.getLast?_append, end_, Option.none_or, ← List.head?_reverse]
      exact head_any_of_forall fun c member => not_isWordChar_of_isBlank (before c (List.mem_reverse.mp member))
    | some c => simp_all [List.getLast?_append]
  · cases last with
    | nil => exact head_any_of_forall fun c member => not_isWordChar_of_isBlank (behind c member)
    | cons c last => exact stop

theorem trim_trim (text : List Char) : trim (trim text) = trim text := by
  obtain ⟨front, back, split, before, behind⟩ := exists_trim text
  conv_rhs => rw [split]
  rw [trim_append before behind]

end Trim

section Removal

variable {keywords : List (List Char)} {word text rest : List Char} {c : Char}

theorem removeFrom_skip (front rest : List Char) (before : Option Char) :
    removeFrom keywords front.length before (front ++ rest) =
      removeFrom keywords 0 (front.getLast?.or before) rest := by
  induction front generalizing before with
  | nil => rfl
  | cons c front ih =>
    rw [List.length_cons, List.cons_append, removeFrom, ih, List.getLast?_cons]
    cases front.getLast? <;> rfl

theorem removeFrom_before {before : Option Char} (plain : before.any isWordChar = false) :
    removeFrom keywords 0 before text = removeFrom keywords 0 none text := by
  cases text with
  | nil => rfl
  | cons c rest =>
    have same : isWordBoundary before (some c) = isWordBoundary none (some c) := by simp [isWordBoundary, plain]
    rw [removeFrom, removeFrom, same]

variable (words : ∀ keyword ∈ keywords, IsWord keyword)
include words

theorem keywordAt_of_plain (plain : isWordChar c = false) : keywordAt? keywords (c :: rest) = none := by
  rw [keywordAt?, List.find?_eq_none]
  intro keyword listed accepted
  obtain ⟨tail, split⟩ := List.isPrefixOf_iff_prefix.mp (Bool.and_eq_true_iff.mp accepted).1
  have letters := words keyword listed
  obtain ⟨first, others, rfl⟩ := List.exists_cons_of_ne_nil letters.1
  cases split
  rw [letters.2 c (List.mem_cons_self ..)] at plain
  cases plain

/-- At the start of a word only the whole word can be a keyword. -/
theorem keywordAt_word (isWord : IsWord word) (ends : rest.head?.any isWordChar = false) :
    keywordAt? keywords (word ++ rest) = if word ∈ keywords then some word else none := by
  have accepts : (word.isPrefixOf (word ++ rest) &&
      isWordBoundary word.getLast? ((word ++ rest).drop word.length).head?) = true := by
    simp [isWordBoundary, isWord.getLast, ends]
  cases found : keywordAt? keywords (word ++ rest) with
  | none =>
    rw [if_neg fun listed => absurd accepts (List.find?_eq_none.mp found word listed)]
  | some keyword =>
    have listed := List.mem_of_find?_eq_some found
    have letters := words keyword listed
    have accepted := List.find?_some found
    obtain ⟨prefixed, boundary⟩ := Bool.and_eq_true_iff.mp accepted
    obtain ⟨tail, split⟩ := List.isPrefixOf_iff_prefix.mp prefixed
    have stops : tail.head?.any isWordChar = false := by
      simpa [← split, isWordBoundary, letters.getLast] using boundary
    -- Both words reach up to the same end.
    have same : keyword = word := by rw [← takeWhile_word letters stops, split, takeWhile_word isWord ends]
    rw [same] at listed ⊢
    rw [if_pos listed]

theorem removeFrom_of_plain {before : Option Char} (plain : isWordChar c = false) :
    removeFrom keywords 0 before (c :: rest) = c :: removeFrom keywords 0 none rest := by
  have next : removeFrom keywords 0 (some c) rest = removeFrom keywords 0 none rest :=
    removeFrom_before (by simpa using plain)
  simp only [removeFrom, keywordAt_of_plain words plain, ite_self, next]

theorem removeFrom_of_ends {before : Option Char} (ends : text.head?.any isWordChar = false) :
    removeFrom keywords 0 before text = removeFrom keywords 0 none text := by
  cases text with
  | nil => rfl
  | cons c rest =>
    have plain : isWordChar c = false := by simpa using ends
    rw [removeFrom_of_plain words plain, removeFrom_of_plain words plain]

/-- Inside a word no keyword begins. -/
theorem removeFrom_letters {before : Option Char} (inside : before.any isWordChar = true)
    (letters : ∀ c ∈ word, isWordChar c = true) (ends : rest.head?.any isWordChar = false) :
    removeFrom keywords 0 before (word ++ rest) = word ++ removeFrom keywords 0 none rest := by
  induction word generalizing before with
  | nil => exact removeFrom_of_ends words ends
  | cons c word ih =>
    have letter := letters c (List.mem_cons_self ..)
    have next : (some c).any isWordChar = true := by simpa using letter
    have further := ih next fun c member => letters c (List.mem_cons_of_mem _ member)
    simp [removeFrom, isWordBoundary, inside, letter, further]

/-- A word goes as a whole, with the blanks behind it, or stays as a whole. -/
theorem removeFrom_word (isWord : IsWord word) (ends : rest.head?.any isWordChar = false) :
    removeFrom keywords 0 none (word ++ rest) =
      if word ∈ keywords then removeFrom keywords 0 none (rest.dropWhile isBlank)
      else word ++ removeFrom keywords 0 none rest := by
  obtain ⟨c, others, rfl⟩ := List.exists_cons_of_ne_nil isWord.1
  have letter := isWord.2 c (List.mem_cons_self ..)
  have found := keywordAt_word words isWord ends
  by_cases listed : c :: others ∈ keywords
  · have skipped : removeFrom keywords 0 none (c :: others ++ rest) = removeFrom keywords
        (c :: others ++ rest.takeWhile isBlank).length
          none (c :: others ++ rest.takeWhile isBlank ++ rest.dropWhile isBlank) := by
      rw [if_pos listed, List.cons_append] at found
      rw [List.append_assoc, List.takeWhile_append_dropWhile]
      simp [removeFrom, isWordBoundary, letter, found, Nat.add_right_comm]
    rw [if_pos listed, skipped, removeFrom_skip]
    -- In front of what follows is a blank, or the end of the keyword when there is none.
    cases gap : rest.takeWhile isBlank with
    | nil =>
      have all : rest.dropWhile isBlank = rest := by
        conv_rhs => rw [← List.takeWhile_append_dropWhile (p := isBlank) (l := rest), gap, List.nil_append]
      rw [all]
      exact removeFrom_of_ends words ends
    | cons blank blanks =>
      apply removeFrom_before
      rw [List.getLast?_append, List.getLast?_eq_some_getLast (List.cons_ne_nil blank blanks)]
      apply not_isWordChar_of_isBlank
      refine List.mem_takeWhile_imp (l := rest) ?_
      rw [gap]
      exact List.getLast_mem _
  · rw [if_neg listed] at found ⊢
    rw [List.cons_append] at found
    have next : (some c).any isWordChar = true := by simpa using letter
    have further := removeFrom_letters words next (fun d member => isWord.2 d (List.mem_cons_of_mem c member)) ends
    simp [removeFrom, isWordBoundary, letter, found, further]

theorem removeFrom_blanks {blanks : List Char} (blank : ∀ c ∈ blanks, isBlank c = true) :
    removeFrom keywords 0 none (blanks ++ text) = blanks ++ removeFrom keywords 0 none text := by
  induction blanks with
  | nil => rfl
  | cons c blanks ih =>
    have plain := not_isWordChar_of_isBlank (blank c (List.mem_cons_self ..))
    rw [List.cons_append, removeFrom_of_plain words plain, ih fun c member => blank c (List.mem_cons_of_mem _ member)]
    rfl

/-- Blanks at the end stay at the end, or go with a keyword in front of them. -/
theorem removeFrom_append_blanks {blanks : List Char} (blank : ∀ c ∈ blanks, isBlank c = true) (text : List Char) :
    ∃ tail, (∀ c ∈ tail, isBlank c = true) ∧
      removeFrom keywords 0 none (text ++ blanks) = removeFrom keywords 0 none text ++ tail := by
  have plain : blanks.head?.any isWordChar = false :=
    head_any_of_forall fun c member => not_isWordChar_of_isBlank (blank c member)
  induction text using word_induction with
  | nil =>
    have kept : removeFrom keywords 0 none (blanks ++ []) = blanks ++ [] := removeFrom_blanks words blank
    exact ⟨blanks, blank, by simpa [removeFrom] using kept⟩
  | other c rest letter ih =>
    obtain ⟨tail, tailBlank, same⟩ := ih
    refine ⟨tail, tailBlank, ?_⟩
    rw [List.cons_append, removeFrom_of_plain words letter, removeFrom_of_plain words letter, same]
    rfl
  | word word rest isWord ends further behind =>
    have stops : (rest ++ blanks).head?.any isWordChar = false := by
      cases rest with
      | nil => exact plain
      | cons c rest => exact ends
    rw [List.append_assoc, removeFrom_word words isWord stops, removeFrom_word words isWord ends, List.dropWhile_append]
    split
    · split
      · next none =>
        rw [List.dropWhile_eq_nil_iff.mpr blank, List.isEmpty_iff.mp none]
        exact ⟨[], by simp, rfl⟩
      · exact behind
    · obtain ⟨tail, tailBlank, same⟩ := further
      exact ⟨tail, tailBlank, by rw [same, List.append_assoc]⟩

theorem trim_removeFrom_trim (text : List Char) :
    trim (removeFrom keywords 0 none (trim text)) = trim (removeFrom keywords 0 none text) := by
  obtain ⟨front, back, split, before, behind⟩ := exists_trim text
  obtain ⟨tail, blank, same⟩ := removeFrom_append_blanks words behind (front ++ trim text)
  conv_rhs => rw [split, same, removeFrom_blanks words before, trim_append before blank]

/-- Removing keywords and dropping blanks in front commute, so a keyword in front leaves no blanks. -/
theorem dropWhile_removeFrom (text : List Char) : (removeFrom keywords 0 none text).dropWhile isBlank =
    removeFrom keywords 0 none (text.dropWhile isBlank) := by
  have visible : ∀ {word : List Char}, IsWord word →
      ∀ rest : List Char, (word ++ rest).dropWhile isBlank = word ++ rest := by
    intro word isWord rest
    obtain ⟨c, others, rfl⟩ := List.exists_cons_of_ne_nil isWord.1
    apply List.dropWhile_cons_of_neg
    intro blank
    have letter := isWord.2 c (List.mem_cons_self ..)
    rw [not_isWordChar_of_isBlank blank] at letter
    cases letter
  induction text using word_induction with
  | nil => rfl
  | other c rest plain ih =>
    rw [removeFrom_of_plain words plain]
    by_cases blank : isBlank c = true
    · rw [List.dropWhile_cons_of_pos blank, List.dropWhile_cons_of_pos blank, ih]
    · rw [List.dropWhile_cons_of_neg blank, List.dropWhile_cons_of_neg blank, removeFrom_of_plain words plain]
  | word word rest isWord ends further behind =>
    rw [visible isWord, removeFrom_word words isWord ends]
    split
    · rw [behind, List.dropWhile_idempotent]
    · rw [visible isWord]

/-- Removing some keywords and then others removes all of them. -/
theorem removeFrom_removeFrom {others : List (List Char)} (otherWords : ∀ keyword ∈ others, IsWord keyword)
    (text : List Char) : removeFrom others 0 none (removeFrom keywords 0 none text) =
      removeFrom (keywords ++ others) 0 none text := by
  have both : ∀ keyword ∈ keywords ++ others, IsWord keyword :=
    fun keyword listed => (List.mem_append.mp listed).elim (words keyword) (otherWords keyword)
  induction text using word_induction with
  | nil => rfl
  | other c rest plain ih =>
    rw [removeFrom_of_plain words plain, removeFrom_of_plain otherWords plain, removeFrom_of_plain both plain, ih]
  | word word rest isWord ends further behind =>
    rw [removeFrom_word words isWord ends, removeFrom_word both isWord ends]
    by_cases listed : word ∈ keywords
    · rw [if_pos listed, if_pos (List.mem_append_left _ listed), behind]
    · have stops : (removeFrom keywords 0 none rest).head?.any isWordChar = false := by
        cases rest with
        | nil => rfl
        | cons c rest =>
          rw [removeFrom_of_plain words (by simpa using ends)]
          exact ends
      rw [if_neg listed, removeFrom_word otherWords isWord stops, dropWhile_removeFrom words, further, behind]
      simp [listed]

theorem strips_removeFrom (text : List Char) : Strips keywords text (removeFrom keywords 0 none text) := by
  induction text using word_induction with
  | nil => exact .nil
  | other c rest plain ih =>
    rw [removeFrom_of_plain words plain]
    exact .other plain ih
  | word word rest isWord ends further behind =>
    rw [removeFrom_word words isWord ends]
    split
    · next listed =>
      have split := List.takeWhile_append_dropWhile (p := isBlank) (l := rest)
      have removed := Strips.keyword isWord (by rwa [split]) listed (fun _ => List.mem_takeWhile_imp)
        (head_dropWhile rest) behind
      rwa [split] at removed
    · next apart => exact .word isWord ends apart further

end Removal

section Strips

variable {keywords : List (List Char)} {keyword word text rest kept : List Char} {c : Char}

theorem Strips.head (strips : Strips keywords text kept) (ends : text.head?.any isWordChar = false) :
    kept.head?.any isWordChar = false := by
  cases strips with
  | nil | other => exact ends
  | word isWord | keyword isWord => simp [List.head?_append_of_ne_nil _ isWord.1, isWord.head] at ends

/-- No keyword is left over, and none arises. -/
theorem Strips.free (strips : Strips keywords text kept) (listed : keyword ∈ keywords) (letters : IsWord keyword) :
    ¬HasWord keyword kept := by
  induction strips with
  | nil => exact letters.not_hasWord_nil
  | other plain further ih => rwa [letters.hasWord_cons plain]
  | word isWord ends apart further ih =>
    rw [letters.hasWord_word isWord (further.head ends), not_or]
    exact ⟨fun same => apart (same ▸ listed), ih⟩
  | keyword _ _ _ _ _ _ ih => exact ih

/-- A text without keywords is left alone. -/
theorem Strips.eq_of_free (strips : Strips keywords text kept) (words : ∀ keyword ∈ keywords, IsWord keyword)
    (free : ∀ keyword ∈ keywords, ¬HasWord keyword text) : kept = text := by
  induction strips with
  | nil => rfl
  | other plain further ih =>
    rw [ih fun keyword listed has => free keyword listed (((words keyword listed).hasWord_cons plain).mpr has)]
  | word isWord ends apart further ih =>
    rw [ih fun keyword listed has =>
      free keyword listed (((words keyword listed).hasWord_word isWord ends).mpr (.inr has))]
  | keyword isWord ends listed => exact absurd ((isWord.hasWord_word isWord ends).mpr (.inl rfl)) (free _ listed)

end Strips

theorem removeKeywords_exact {keywords : List String} (words : ∀ keyword ∈ keywords, IsWord keyword.toList) :
    RemovesExactly keywords (removeKeywords keywords) := by
  have all : ∀ keyword ∈ keywords.map (·.toList), IsWord keyword := by simpa using words
  have free : ∀ text, ∀ keyword ∈ keywords.map (·.toList), ¬HasWord keyword (removeKeywords keywords text) :=
    fun text keyword listed has =>
      (strips_removeFrom all text).free listed (all keyword listed) (has.of_trim (all keyword listed))
  refine ⟨fun text => ⟨_, strips_removeFrom all text, rfl⟩, by simpa using free, fun text => ?_⟩
  rw [removeKeywords, (strips_removeFrom all _).eq_of_free all (free text), removeKeywords, trim_trim]

theorem isWord_of_storage : ∀ keyword ∈ storageKeywords, IsWord keyword.toList := by
  have letters : ∀ keyword ∈ storageKeywords, keyword.toList ≠ [] ∧ keyword.toList.all isWordChar = true := by
    decide +kernel
  exact fun keyword listed => ⟨(letters keyword listed).1, List.all_eq_true.mp (letters keyword listed).2⟩

theorem isWord_typedef : IsWord "typedef".toList :=
  ⟨by decide, List.all_eq_true.mp (by decide +kernel)⟩

theorem stripStorageAndTypedef_eq (specifiers : List Char) :
    stripStorageAndTypedef specifiers = removeKeywords (storageKeywords ++ ["typedef"]) specifiers := by
  have storage : ∀ keyword ∈ storageKeywords.map (·.toList), IsWord keyword := by simpa using isWord_of_storage
  have typedef : ∀ keyword ∈ ["typedef".toList], IsWord keyword := by simpa using isWord_typedef
  rw [stripStorageAndTypedef, stripStorage, removeKeywords, removeKeywords, removeKeywords, List.map_append]
  exact (trim_removeFrom_trim typedef _).trans (congrArg trim (removeFrom_removeFrom storage typedef specifiers))

/-- Exactly the storage keywords are removed from specifiers, and the word `typedef` where it is to go too. -/
theorem stripStorage_exact : RemovesExactly storageKeywords stripStorage ∧
    RemovesExactly (storageKeywords ++ ["typedef"]) stripStorageAndTypedef := by
  refine ⟨removeKeywords_exact isWord_of_storage, ?_⟩
  rw [funext stripStorageAndTypedef_eq]
  refine removeKeywords_exact fun keyword listed => ?_
  rcases List.mem_append.mp listed with storage | typedef
  · exact isWord_of_storage keyword storage
  · rw [List.mem_singleton.mp typedef]
    exact isWord_typedef

section Counting

variable {c : Char} (visible : isBlank c = false)
include visible

theorem count_blanks {blanks : List Char} (blank : ∀ c ∈ blanks, isBlank c = true) : blanks.count c = 0 := by
  rw [List.count_eq_zero]
  intro member
  rw [blank c member] at visible
  cases visible

theorem count_trim (text : List Char) : (trim text).count c = text.count c := by
  obtain ⟨front, back, split, before, behind⟩ := exists_trim text
  conv_rhs => rw [split, List.count_append, List.count_append, count_blanks visible before, count_blanks visible behind]
  omega

/-- Only keywords and blanks are left out. -/
theorem Strips.count {keywords : List (List Char)} {text kept : List Char} (strips : Strips keywords text kept)
    (apart : ∀ keyword ∈ keywords, c ∉ keyword) : kept.count c = text.count c := by
  induction strips with
  | nil => rfl
  | other plain further ih => rw [List.count_cons, List.count_cons, ih]
  | word isWord ends apart further ih => rw [List.count_append, List.count_append, ih]
  | @keyword word blanks rest kept isWord ends listed blank _ further ih =>
    rw [List.count_append, List.count_append, List.count_eq_zero.mpr (apart word listed),
      count_blanks visible blank, ih]
    omega

end Counting

/-- A visible character that no storage keyword has. -/
def isPlain (c : Char) : Bool :=
  !isBlank c && storageKeywords.all fun keyword => !keyword.toList.contains c

theorem count_stripStorage {c : Char} (plain : isPlain c = true) (text : List Char) :
    (stripStorage text).count c = text.count c := by
  obtain ⟨visible, free⟩ := Bool.and_eq_true_iff.mp plain
  have visible : isBlank c = false := by simpa using visible
  obtain ⟨kept, strips, same⟩ := (removeKeywords_exact isWord_of_storage).strips text
  rw [stripStorage, same, count_trim visible]
  refine strips.count visible fun keyword member => ?_
  obtain ⟨word, listed, rfl⟩ := List.mem_map.mp member
  simpa using List.all_eq_true.mp free word listed

end Excerpt.Text
