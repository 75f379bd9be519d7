import Excerpt.Token
import Mathlib.Data.List.Infix
import Mathlib.Data.List.TakeWhile

namespace Excerpt.Token

open Text

inductive IsComment (rest : List Char) : List Char → Prop
  | block {body : List Char} (first : ¬['*', '/'] <:+: body ++ ['*']) :
      IsComment rest ('/' :: '*' :: (body ++ ['*', '/']))
  | line {body : List Char} (oneLine : '\n' ∉ body) (ends : ∀ c ∈ rest.head?, c = '\n') :
      IsComment rest ('/' :: '/' :: body)

/-- What stands between quotes. A backslash hides the character behind it. -/
inductive QuoteBody (quote : Char) : List Char → Prop
  | nil : QuoteBody quote []
  | hidden {c : Char} {rest : List Char} (further : QuoteBody quote rest) : QuoteBody quote ('\\' :: c :: rest)
  | plain {c : Char} {rest : List Char} (other : c ≠ quote) (bare : ¬(c = '\\' ∨ c = '\n'))
      (further : QuoteBody quote rest) : QuoteBody quote (c :: rest)

def IsQuoted (quote : Char) (text : List Char) : Prop :=
  ∃ body, QuoteBody quote body ∧ text = quote :: (body ++ [quote])

inductive NumberTail : List Char → Prop
  | nil : NumberTail []
  | exponent {mark sign : Char} {rest : List Char} (signed : mark ∈ ['e', 'E', 'p', 'P'] ∧ sign ∈ ['+', '-'])
      (further : NumberTail rest) : NumberTail (mark :: sign :: rest)
  | part {c : Char} {rest : List Char} (inside : (isIdentifierChar c || c == '.') = true) (further : NumberTail rest) :
      NumberTail (c :: rest)

/-- The text is a digit, or a point and a digit, and what may follow. -/
def IsNumber (text : List Char) : Prop :=
  ∃ digit tail, digit.isDigit = true ∧ NumberTail tail ∧ (text = digit :: tail ∨ text = '.' :: digit :: tail)

inductive Reads (rest : List Char) : TokenKind → List Char → Prop
  | str {text : List Char} (quoted : IsQuoted '"' text) : Reads rest .str text
  | char {text : List Char} (quoted : IsQuoted '\'' text) : Reads rest .char text
  | number {text : List Char} (isNumber : IsNumber text)
      (longest : ∀ longer, IsNumber longer → longer <+: text ++ rest → longer.length ≤ text.length) :
      Reads rest .number text
  | identifier {c : Char} {tail : List Char} (start : isIdentifierStart c = true)
      (inside : ∀ d ∈ tail, isIdentifierChar d = true) (ends : ∀ d ∈ rest.head?, isIdentifierChar d = false) :
      Reads rest .identifier (c :: tail)
  | pair {c d : Char} (listed : (c, d) ∈ pairs) : Reads rest .punct [c, d]
  /-- A character that begins no pair, no comment, no constant and no number. -/
  | single {c : Char} (visible : isBlank c = false) (plain : isIdentifierChar c = false)
      (alone : ∀ d ∈ rest.head?, (c, d) ∉ pairs)
      (noComment : ∀ comment behind, IsComment behind comment → c :: rest ≠ comment ++ behind)
      (noQuoted : ∀ quote ∈ ['"', '\''], ∀ quoted, IsQuoted quote quoted → ¬quoted <+: c :: rest)
      (noNumber : ∀ number, IsNumber number → ¬number <+: c :: rest) : Reads rest .punct [c]

section Shapes

variable {quote c : Char} {rest text : List Char} {length : Nat}

/-- A comment closes at its first `*/`. -/
theorem commentEnd_eq_some : commentEnd? text = some length ↔ ∃ body rest, text = body ++ '*' :: '/' :: rest ∧
    ¬['*', '/'] <:+: body ++ ['*'] ∧ length = body.length + 2 := by
  constructor
  · intro found
    fun_induction commentEnd? text generalizing length with
    | case1 rest =>
      cases found
      exact ⟨[], rest, rfl, by decide, rfl⟩
    | case2 c rest other ih =>
      obtain ⟨length, inner, rfl⟩ := Option.map_eq_some_iff.mp found
      obtain ⟨body, rest, rfl, first, rfl⟩ := ih inner
      refine ⟨c :: body, rest, rfl, ?_, rfl⟩
      rw [List.cons_append, List.infix_cons_iff, List.cons_prefix_cons, not_or]
      refine ⟨?_, first⟩
      rintro ⟨rfl, slash⟩
      cases body with
      | nil => simp at slash
      | cons d body =>
        obtain ⟨rfl, -⟩ := List.cons_prefix_cons.mp slash
        exact other _ rfl rfl
    | case3 => cases found
  · rintro ⟨body, rest, rfl, first, rfl⟩
    induction body with
    | nil => rfl
    | cons c body ih =>
      rw [List.cons_append, List.infix_cons_iff, List.cons_prefix_cons, not_or] at first
      rw [List.cons_append, commentEnd?.eq_2, ih first.2]
      · rfl
      · rintro tail rfl same
        refine first.1 ⟨rfl, ?_⟩
        cases body with
        | nil => simp at same
        | cons d body => simp_all

theorem comment_eq_some :
    comment? text = some length ↔ ∃ comment rest, text = comment ++ rest ∧ IsComment rest comment ∧
    length = comment.length := by
  constructor
  · intro found
    fun_cases comment? text with
    | case1 rest =>
      obtain ⟨inner, closes, rfl⟩ :=
        Option.map_eq_some_iff.mp (show (commentEnd? rest).map (· + 2) = some length from found)
      obtain ⟨body, rest, rfl, first, rfl⟩ := commentEnd_eq_some.mp closes
      exact ⟨_, rest, by simp, .block first, by simp⟩
    | case2 rest =>
      cases found
      refine ⟨'/' :: '/' :: rest.takeWhile (· ≠ '\n'), rest.dropWhile (· ≠ '\n'), by simp, .line ?_ ?_, rfl⟩
      · intro member
        simpa using List.mem_takeWhile_imp member
      · intro c first
        have stops := List.head?_dropWhile_not (fun c : Char => decide (c ≠ '\n')) rest
        rw [Option.mem_def.mp first] at stops
        simpa using stops
    | case3 => simp_all [comment?]
  · rintro ⟨comment, rest, rfl, isComment, rfl⟩
    cases isComment with
    | @block body first =>
      have closes := commentEnd_eq_some.mpr ⟨body, rest, rfl, first, rfl⟩
      simp [comment?, closes]
    | @line body oneLine ends =>
      have whole : (body ++ rest).takeWhile (fun c : Char => decide (c ≠ '\n')) = body := by
        have inside : ∀ c ∈ body, decide (c ≠ '\n') = true :=
          fun c member => decide_eq_true fun same => oneLine (same ▸ member)
        rw [List.takeWhile_append_of_pos inside]
        cases rest with
        | nil => simp
        | cons c rest => simpa using ends
      simpa [comment?] using congrArg List.length whole

/-- A constant is closed by the first quote that no backslash hides. -/
theorem quoteEnd_eq_some (mark : quote ≠ '\\') : quoteEnd? quote text = some length ↔
    ∃ body rest, text = body ++ quote :: rest ∧ QuoteBody quote body ∧ length = body.length + 1 := by
  constructor
  · intro found
    fun_induction quoteEnd? quote text generalizing length with
    | case1 c rest ih =>
      obtain ⟨length, inner, rfl⟩ := Option.map_eq_some_iff.mp found
      obtain ⟨body, rest, rfl, shape, rfl⟩ := ih inner
      exact ⟨'\\' :: c :: body, rest, rfl, .hidden shape, rfl⟩
    | case2 rest =>
      cases found
      exact ⟨[], rest, rfl, .nil, rfl⟩
    | case4 c rest _ other bare ih =>
      obtain ⟨length, inner, rfl⟩ := Option.map_eq_some_iff.mp found
      obtain ⟨body, rest, rfl, shape, rfl⟩ := ih inner
      exact ⟨c :: body, rest, rfl, .plain other bare shape, rfl⟩
    | case3 | case5 => cases found
  · rintro ⟨body, rest, rfl, shape, rfl⟩
    induction shape with
    | nil => simp [quoteEnd?, mark]
    | hidden _ ih => simp [quoteEnd?, ih]
    | plain other bare _ ih =>
      rw [not_or] at bare
      simp [quoteEnd?, other, bare, ih]

theorem quoted_eq_some (mark : quote ≠ '\\') : quoted? quote text = some length ↔
    ∃ quoted rest, text = quoted ++ rest ∧ IsQuoted quote quoted ∧ length = quoted.length := by
  constructor
  · intro found
    cases text with
    | nil => cases found
    | cons c rest =>
      rw [quoted?] at found
      split at found
      · next first =>
        obtain ⟨inner, closes, rfl⟩ := Option.map_eq_some_iff.mp found
        obtain ⟨body, rest, rfl, shape, rfl⟩ := (quoteEnd_eq_some mark).mp closes
        exact ⟨quote :: (body ++ [quote]), rest, by simp [first], ⟨body, shape, rfl⟩, by simp⟩
      · cases found
  · rintro ⟨_, rest, rfl, ⟨body, shape, rfl⟩, rfl⟩
    have closes := (quoteEnd_eq_some mark).mpr ⟨body, rest, rfl, shape, rfl⟩
    simp [quoted?, closes]

theorem exists_cons_of_quoted (found : quoted? quote text = some length) : ∃ rest, text = quote :: rest := by
  unfold quoted? at found
  split at found
  · split at found
    · next rest first => exact ⟨rest, by rw [first]⟩
    · cases found
  · cases found

theorem numberTail_spec (text : List Char) :
    NumberTail (text.take (numberTail text)) ∧ numberTail text ≤ text.length := by
  fun_induction numberTail text with
  | case1 mark sign rest exponent ih => exact ⟨.exponent exponent ih.1, by simpa using ih.2⟩
  | case2 mark sign rest plain inside ih => exact ⟨.part inside ih.1, by simpa using ih.2⟩
  | case4 c inside => exact ⟨.part inside .nil, by simp⟩
  | case3 | case5 | case6 => exact ⟨.nil, Nat.zero_le _⟩

theorem NumberTail.newline_not_mem (tail : NumberTail text) : '\n' ∉ text := by
  induction tail with
  | nil => simp
  | exponent signed _ ih => grind
  | part inside _ ih =>
    rw [List.mem_cons, not_or]
    refine ⟨?_, ih⟩
    rintro rfl
    cases inside

/-- The reader goes on as long as a number can: no tail of a number is longer than what it takes. -/
theorem NumberTail.length_le (tail : NumberTail text) (rest : List Char) : text.length ≤ numberTail (text ++ rest) := by
  induction tail with
  | nil => exact Nat.zero_le _
  | exponent signed further ih => simpa [numberTail, signed] using ih
  | @part c tail inside further ih =>
    rw [List.cons_append]
    cases next : tail ++ rest with
    | nil => simp_all [numberTail]
    | cons d others =>
      rw [next] at ih
      by_cases signed : c ∈ ['e', 'E', 'p', 'P'] ∧ d ∈ ['+', '-']
      · -- A sign begins no tail, so the shorter one ends in front of it.
        have sign : d = '+' ∨ d = '-' := by simpa using signed.2
        obtain ⟨unmarked, outside⟩ : d ∉ ['e', 'E', 'p', 'P'] ∧ (isIdentifierChar d || d == '.') = false := by
          rcases sign with rfl | rfl <;> decide
        rw [numberTail, if_pos signed]
        cases further with
        | nil => simp
        | exponent marked =>
          cases next
          exact absurd marked.1 unmarked
        | part within =>
          cases next
          rw [within] at outside
          cases outside
      · rw [numberTail, if_neg signed, if_pos inside]
        exact Nat.succ_le_succ ih

theorem IsNumber.newline_not_mem (isNumber : IsNumber text) : '\n' ∉ text := by
  obtain ⟨digit, tail, isDigit, shape, same⟩ := isNumber
  have first : '\n' ≠ digit := by
    rintro rfl
    cases isDigit
  rcases same with rfl | rfl <;> simp [first, shape.newline_not_mem]

theorem number_spec (found : number? text = some length) : IsNumber (text.take length) ∧ length ≤ text.length := by
  fun_cases number? text with
  | case1 digit rest isDigit =>
    obtain rfl : numberTail rest + 2 = length := by simpa [number?, isDigit] using found
    obtain ⟨shape, le⟩ := numberTail_spec rest
    exact ⟨⟨digit, _, isDigit, shape, .inr rfl⟩, by simpa using le⟩
  | case3 digit rest other isDigit =>
    obtain rfl : numberTail rest + 1 = length := by
      rw [number?.eq_2 _ _ other, if_pos isDigit] at found
      exact Option.some.inj found
    obtain ⟨shape, le⟩ := numberTail_spec rest
    exact ⟨⟨digit, _, isDigit, shape, .inl rfl⟩, by simpa using le⟩
  | case2 | case4 | case5 => simp_all [number?]

theorem IsNumber.le_number {number : List Char} (isNumber : IsNumber number) (begins : number <+: text) :
    ∃ length, number? text = some length ∧ number.length ≤ length := by
  obtain ⟨rest, rfl⟩ := begins
  obtain ⟨digit, tail, isDigit, shape, rfl | rfl⟩ := isNumber
  · have point : digit ≠ '.' := by
      rintro rfl
      cases isDigit
    exact ⟨_, by simp [number?, point, isDigit], Nat.succ_le_succ (shape.length_le rest)⟩
  · exact ⟨_, by simp [number?, isDigit], Nat.succ_le_succ (Nat.succ_le_succ (shape.length_le rest))⟩

/-- A number is as long as a number can be there. -/
theorem number_eq_some : number? text = some length ↔ ∃ number rest, text = number ++ rest ∧ IsNumber number ∧
    (∀ longer, IsNumber longer → longer <+: number ++ rest → longer.length ≤ number.length) ∧
      length = number.length := by
  constructor
  · intro found
    obtain ⟨isNumber, le⟩ := number_spec found
    refine ⟨text.take length, text.drop length, by simp, isNumber, fun longer shape begins => ?_, by simp [le]⟩
    rw [List.take_append_drop] at begins
    obtain ⟨other, same, below⟩ := shape.le_number begins
    cases found.symm.trans same
    simpa [le] using below
  · rintro ⟨number, rest, rfl, isNumber, longest, rfl⟩
    obtain ⟨length, found, le⟩ := isNumber.le_number (List.prefix_append number rest)
    obtain ⟨shape, inside⟩ := number_spec found
    have below := longest _ shape (List.take_prefix _ _)
    rw [List.length_take, Nat.min_eq_left inside] at below
    rw [found, Nat.le_antisymm below le]

theorem identifier_eq_some : identifier? text = some length ↔ ∃ c tail rest, text = c :: tail ++ rest ∧
    isIdentifierStart c = true ∧ (∀ d ∈ tail, isIdentifierChar d = true) ∧
      (∀ d ∈ rest.head?, isIdentifierChar d = false) ∧ length = tail.length + 1 := by
  constructor
  · intro found
    cases text with
    | nil => cases found
    | cons c rest =>
      rw [identifier?] at found
      split at found
      · next start =>
        cases found
        refine ⟨c, rest.takeWhile isIdentifierChar, rest.dropWhile isIdentifierChar, by simp, start,
          fun d => List.mem_takeWhile_imp, fun d first => ?_, rfl⟩
        have stops := List.head?_dropWhile_not isIdentifierChar rest
        rwa [Option.mem_def.mp first] at stops
      · cases found
  · rintro ⟨c, tail, rest, rfl, start, inside, ends, rfl⟩
    have whole : (tail ++ rest).takeWhile isIdentifierChar = tail := by
      rw [List.takeWhile_append_of_pos inside]
      cases rest with
      | nil => simp
      | cons d rest => simpa using ends
    rw [List.cons_append, identifier?, if_pos start, whole]

/-- A single character is a punctuator where no pair begins. -/
theorem punctuator_eq_some : punctuator? text = some length ↔
    (∃ pair ∈ pairs, ∃ rest, text = pair.1 :: pair.2 :: rest ∧ length = 2) ∨
      ∃ c rest, text = c :: rest ∧ length = 1 ∧ isBlank c = false ∧ isIdentifierChar c = false ∧
        ∀ d ∈ rest.head?, (c, d) ∉ pairs := by
  constructor
  · intro found
    unfold punctuator? at found
    split at found
    · next c d rest =>
      split at found
      · next listed =>
        cases found
        exact .inl ⟨(c, d), listed, rest, rfl, rfl⟩
      · next unlisted =>
        split at found
        · cases found
        · next plain =>
          cases found
          rw [Bool.or_eq_true, not_or, Bool.not_eq_true, Bool.not_eq_true] at plain
          exact .inr ⟨c, d :: rest, rfl, rfl, plain.1, plain.2, by simpa using unlisted⟩
    · next c =>
      split at found
      · cases found
      · next plain =>
        cases found
        rw [Bool.or_eq_true, not_or, Bool.not_eq_true, Bool.not_eq_true] at plain
        exact .inr ⟨c, [], rfl, rfl, plain.1, plain.2, by simp⟩
    · cases found
  · rintro (⟨pair, listed, rest, rfl, rfl⟩ | ⟨c, rest, rfl, rfl, visible, plain, alone⟩)
    · rw [punctuator?, if_pos listed]
    · cases rest with
      | nil => simp [punctuator?, visible, plain]
      | cons d rest => rw [punctuator?, if_neg (alone d rfl), visible, plain]; rfl

theorem isBlank_of_isIdentifierChar (part : isIdentifierChar c = true) : isBlank c = false := by
  have between : ∀ {low high : UInt32}, low ≤ c.val ∧ c.val ≤ high → low.toNat ≤ c.toNat ∧ c.toNat ≤ high.toNat :=
    fun both => ⟨UInt32.le_iff_toNat_le.mp both.1, UInt32.le_iff_toNat_le.mp both.2⟩
  have cut : ∀ {low high : UInt32}, (decide (c.val ≥ low) && decide (c.val ≤ high)) = true → low ≤ c.val ∧
      c.val ≤ high :=
    fun both => (Bool.and_eq_true_iff.mp both).imp of_decide_eq_true of_decide_eq_true
  have kinds : (((c.isUpper || c.isLower) || c.isDigit) || c == '_') = true := part
  simp only [Bool.or_eq_true, beq_iff_eq] at kinds
  simp only [isBlank, Bool.or_eq_false_iff, Bool.and_eq_false_iff, decide_eq_false_iff_not, beq_eq_false_iff_ne]
  rcases kinds with ((upper | lower) | digit) | rfl
  · have bounds : 65 ≤ c.toNat ∧ c.toNat ≤ 90 := between (of_decide_eq_true upper)
    omega
  · have bounds : 97 ≤ c.toNat ∧ c.toNat ≤ 122 := between (cut lower)
    omega
  · have bounds : 48 ≤ c.toNat ∧ c.toNat ≤ 57 := between (cut digit)
    omega
  · decide

theorem comment_of_ne (first : c ≠ '/') : comment? (c :: rest) = none := by
  unfold comment?
  split <;> simp_all

theorem quoted_of_ne (first : c ≠ quote) : quoted? quote (c :: rest) = none := by
  simp [quoted?, first]

theorem not_isDigit_of_isIdentifierStart (start : isIdentifierStart c = true) : c.isDigit = false := by
  rw [Bool.eq_false_iff]
  intro digit
  have below : c.val ≤ '9'.val := of_decide_eq_true (Bool.and_eq_true_iff.mp digit).2
  rcases Bool.or_eq_true_iff.mp start with letter | underscore
  · rcases Bool.or_eq_true_iff.mp letter with upper | lower
    · have above : 'A'.val ≤ c.val := (of_decide_eq_true upper).1
      exact absurd (UInt32.le_trans above below) (by decide)
    · have above : 'a'.val ≤ c.val := of_decide_eq_true (Bool.and_eq_true_iff.mp lower).1
      exact absurd (UInt32.le_trans above below) (by decide)
  · rw [beq_iff_eq.mp underscore] at digit
    cases digit

end Shapes

section Lexemes

variable {c : Char} {rest text : List Char} {kind : TokenKind} {length : Nat}

theorem Reads.ne_nil (reads : Reads rest kind text) : text ≠ [] := by
  cases reads with
  | str quoted | char quoted =>
    obtain ⟨body, -, rfl⟩ := quoted
    simp
  | number isNumber =>
    obtain ⟨digit, tail, -, -, rfl | rfl⟩ := isNumber <;> simp
  | identifier | pair | single => simp

theorem lexeme_comment : lexeme? text = some (.comment length) ↔ comment? text = some length := by
  simp [lexeme?, Option.orElse_eq_or, Option.or_eq_some_iff]

theorem lexeme_of_isIdentifierStart (start : isIdentifierStart c = true) :
    lexeme? (c :: rest) = (identifier? (c :: rest)).map (.token .identifier) := by
  have other : ∀ mark, isIdentifierStart mark = false → c ≠ mark := by
    rintro mark refused rfl
    rw [start] at refused
    cases refused
  have number : number? (c :: rest) = none := by
    have digit := not_isDigit_of_isIdentifierStart start
    have point := other '.' (by decide)
    unfold number?
    split <;> simp_all
  simp [lexeme?, comment_of_ne (other '/' (by decide)), quoted_of_ne (other '"' (by decide)),
    quoted_of_ne (other '\'' (by decide)), number, identifier?, start]

/-- A number is neither a comment nor a constant, so it is taken although those come first. -/
theorem lexeme_of_number (found : number? text = some length) : lexeme? text = some (.token .number length) := by
  obtain ⟨c, rest, rfl, first⟩ : ∃ c rest, text = c :: rest ∧ (c = '.' ∨ c.isDigit = true) := by
    unfold number? at found
    split at found
    · exact ⟨_, _, rfl, .inl rfl⟩
    · split at found
      · next digit => exact ⟨_, _, rfl, .inr digit⟩
      · cases found
    · cases found
  have other : ∀ mark, mark ≠ '.' → mark.isDigit = false → c ≠ mark := by
    rintro mark point digit rfl
    simp [point, digit] at first
  simp [lexeme?, comment_of_ne (other '/' (by decide) (by decide)), quoted_of_ne (other '"' (by decide) (by decide)),
    quoted_of_ne (other '\'' (by decide) (by decide)), found]

theorem exists_reads (found : lexeme? text = some (.token kind length)) :
    ∃ piece rest, text = piece ++ rest ∧ Reads rest kind piece ∧ length = piece.length := by
  simp only [lexeme?, Option.orElse_eq_orElse, Option.orElse_eq_or, Option.or_eq_some_iff, Option.map_eq_some_iff,
    Lexeme.token.injEq, reduceCtorEq, and_false, exists_false, false_or, Option.map_eq_none_iff] at found
  rcases found with ⟨noComment, ⟨_, read, rfl, rfl⟩ | ⟨string, ⟨_, read, rfl, rfl⟩ | ⟨char, ⟨_, read, rfl, rfl⟩ |
    ⟨number, ⟨_, read, rfl, rfl⟩ | ⟨-, _, read, rfl, rfl⟩⟩⟩⟩⟩
  · obtain ⟨piece, rest, split, quoted, size⟩ := (quoted_eq_some (by decide)).mp read
    exact ⟨piece, rest, split, .str quoted, size⟩
  · obtain ⟨piece, rest, split, quoted, size⟩ := (quoted_eq_some (by decide)).mp read
    exact ⟨piece, rest, split, .char quoted, size⟩
  · obtain ⟨piece, rest, split, isNumber, longest, size⟩ := number_eq_some.mp read
    exact ⟨piece, rest, split, .number isNumber longest, size⟩
  · obtain ⟨c, tail, rest, split, start, inside, ends, size⟩ := identifier_eq_some.mp read
    exact ⟨c :: tail, rest, split, .identifier start inside ends, size⟩
  · rcases punctuator_eq_some.mp read with ⟨pair, listed, rest, rfl, rfl⟩ | ⟨c, rest, rfl, rfl, visible, plain, alone⟩
    · exact ⟨[pair.1, pair.2], rest, rfl, .pair listed, rfl⟩
    · refine ⟨[c], rest, rfl, .single visible plain alone ?_ ?_ ?_, rfl⟩
      · intro comment behind isComment split
        rw [comment_eq_some.mpr ⟨comment, behind, split, isComment, rfl⟩] at noComment
        cases noComment
      · rintro quote listed quoted isQuoted ⟨behind, split⟩
        have mark : quote ≠ '\\' ∧ quoted? quote (c :: rest) = none := by
          simp only [List.mem_cons, List.not_mem_nil, or_false] at listed
          rcases listed with rfl | rfl
          · exact ⟨by decide, string⟩
          · exact ⟨by decide, char⟩
        rw [(quoted_eq_some mark.1).mpr ⟨quoted, behind, split.symm, isQuoted, rfl⟩] at mark
        cases mark.2
      · intro other isNumber begins
        obtain ⟨length, found, -⟩ := isNumber.le_number begins
        rw [found] at number
        cases number

/-- A piece of a given shape is taken as a whole, since no kind that is tried before fits it. -/
theorem Reads.lexeme (reads : Reads rest kind text) : lexeme? (text ++ rest) = some (.token kind text.length) := by
  cases reads with
  | str quoted =>
    have read := (quoted_eq_some (by decide)).mpr ⟨text, rest, rfl, quoted, rfl⟩
    obtain ⟨tail, same⟩ := exists_cons_of_quoted read
    rw [same] at read ⊢
    simp [lexeme?, comment_of_ne, read]
  | char quoted =>
    have read := (quoted_eq_some (by decide)).mpr ⟨text, rest, rfl, quoted, rfl⟩
    obtain ⟨tail, same⟩ := exists_cons_of_quoted read
    rw [same] at read ⊢
    simp [lexeme?, comment_of_ne, quoted_of_ne, read]
  | number isNumber longest => exact lexeme_of_number (number_eq_some.mpr ⟨text, rest, rfl, isNumber, longest, rfl⟩)
  | @identifier c tail start inside ends =>
    have read := identifier_eq_some.mpr ⟨c, tail, rest, rfl, start, inside, ends, rfl⟩
    rw [List.cons_append] at read ⊢
    rw [lexeme_of_isIdentifierStart start, read]
    rfl
  | pair listed =>
    simp only [pairs, List.mem_cons, Prod.mk.injEq, List.not_mem_nil, or_false] at listed
    rcases listed with ⟨rfl, rfl⟩ | ⟨rfl, rfl⟩ | ⟨rfl, rfl⟩ | ⟨rfl, rfl⟩ | ⟨rfl, rfl⟩ | ⟨rfl, rfl⟩ | ⟨rfl, rfl⟩ |
      ⟨rfl, rfl⟩ | ⟨rfl, rfl⟩ | ⟨rfl, rfl⟩ <;> rfl
  | @single c visible plain alone noComment noQuoted noNumber =>
    have comment : comment? (c :: rest) = none := by
      refine Option.eq_none_iff_forall_ne_some.mpr fun length found => ?_
      obtain ⟨comment, behind, split, isComment, -⟩ := comment_eq_some.mp found
      exact noComment comment behind isComment split
    have quotes : ∀ quote ∈ ['"', '\''], quote ≠ '\\' → quoted? quote (c :: rest) = none := by
      refine fun quote listed mark => Option.eq_none_iff_forall_ne_some.mpr fun length found => ?_
      obtain ⟨quoted, behind, split, isQuoted, -⟩ := (quoted_eq_some mark).mp found
      exact noQuoted quote listed quoted isQuoted ⟨behind, split.symm⟩
    have number : number? (c :: rest) = none :=
      Option.eq_none_iff_forall_ne_some.mpr fun length found =>
        noNumber _ (number_spec found).1 (List.take_prefix _ _)
    have start : isIdentifierStart c = false := by
      simp only [isIdentifierChar, isIdentifierStart, Char.isAlphanum, Bool.or_eq_false_iff] at plain ⊢
      exact ⟨plain.1.1, plain.2⟩
    have read := punctuator_eq_some.mpr (.inr ⟨c, rest, rfl, rfl, visible, plain, alone⟩)
    simp [lexeme?, comment, quotes, number, identifier?, start, read]

/-- A line break continues no token, so a token stays one in front of a line break. -/
theorem Reads.shift (reads : Reads rest kind text) {other : List Char} (ends : ∀ c ∈ other.head?, c = '\n') :
    Reads other kind text := by
  cases reads with
  | str quoted => exact .str quoted
  | char quoted => exact .char quoted
  | pair listed => exact .pair listed
  | identifier start inside =>
    exact .identifier start inside fun d first => by rw [ends d first]; rfl
  | number isNumber longest =>
    refine .number isNumber fun longer shape begins => Nat.le_of_not_lt fun less => ?_
    -- What is longer would go on with the line break.
    obtain ⟨more, rfl⟩ := List.prefix_of_prefix_length_le (List.prefix_append _ other) begins less.le
    rw [List.prefix_append_right_inj] at begins
    cases more with
    | nil => simp at less
    | cons d more =>
      obtain ⟨behind, rfl⟩ := begins
      exact shape.newline_not_mem (by simp [ends d rfl])
  | @single c visible plain alone noComment noQuoted noNumber =>
    refine .single visible plain ?_ ?_ ?_ ?_
    · intro d first
      rw [ends d first]
      simp [pairs]
    · intro comment behind isComment split
      cases isComment <;> cases split <;> exact absurd (ends _ rfl) (by decide)
    · rintro quote listed _ ⟨body, shape, rfl⟩ ⟨behind, split⟩
      cases shape with
      | nil =>
        cases split
        rw [ends _ rfl] at listed
        simp at listed
      | hidden =>
        cases split
        exact absurd (ends _ rfl) (by decide)
      | plain _ bare =>
        cases split
        exact bare (.inr (ends _ rfl))
    · rintro _ ⟨digit, tail, isDigit, -, rfl | rfl⟩ ⟨behind, split⟩ <;> cases split
      · simp [isIdentifierChar, Char.isAlphanum, isDigit] at plain
      · rw [ends _ rfl] at isDigit
        cases isDigit

/-- Only at blanks the lexer takes nothing. -/
theorem isBlank_of_lexeme (none : lexeme? (c :: rest) = none) : isBlank c = true := by
  rw [← Bool.not_eq_false]
  intro visible
  cases plain : isIdentifierChar c with
  | false =>
    have read : ∃ length, punctuator? (c :: rest) = some length := by
      by_cases alone : ∀ d ∈ rest.head?, (c, d) ∉ pairs
      · exact ⟨1, punctuator_eq_some.mpr (.inr ⟨c, rest, rfl, rfl, visible, plain, alone⟩)⟩
      · cases rest with
        | nil => simp at alone
        | cons d rest => exact ⟨2, punctuator_eq_some.mpr (.inl ⟨(c, d), by simpa using alone, rest, rfl, rfl⟩)⟩
    obtain ⟨length, read⟩ := read
    simp [lexeme?, read] at none
  | true =>
    by_cases start : isIdentifierStart c = true
    · rw [lexeme_of_isIdentifierStart start, identifier?, if_pos start] at none
      cases none
    · have digit : c.isDigit = true := by
        simp only [isIdentifierChar, isIdentifierStart, Char.isAlphanum, Bool.or_eq_true, not_or] at plain start
        tauto
      have begins : [c] <+: c :: rest := by simp
      obtain ⟨length, read, -⟩ := IsNumber.le_number ⟨c, [], digit, .nil, .inl rfl⟩ begins
      rw [lexeme_of_number read] at none
      cases none

theorem lexeme_of_blank (blank : isBlank c = true) : lexeme? (c :: rest) = none := by
  have other : ∀ mark, isBlank mark = false → c ≠ mark := by
    rintro mark visible rfl
    rw [visible] at blank
    cases blank
  have part : isIdentifierChar c = false := by
    refine Bool.eq_false_iff.mpr fun inside => ?_
    rw [isBlank_of_isIdentifierChar inside] at blank
    cases blank
  obtain ⟨⟨letter, digit⟩, underscore⟩ : (c.isAlpha = false ∧ c.isDigit = false) ∧ c ≠ '_' := by
    simpa [isIdentifierChar, Char.isAlphanum] using part
  have number : number? (c :: rest) = none := by simp [number?, other '.' rfl, digit]
  have punct : punctuator? (c :: rest) = none := by
    cases found : punctuator? (c :: rest) with
    | none => rfl
    | some length =>
      have visible : ∀ pair ∈ pairs, isBlank pair.1 = false := by decide
      rcases punctuator_eq_some.mp found with ⟨pair, listed, others, same, -⟩ | ⟨d, others, same, -, plain, -⟩
      · cases same
        exact absurd rfl (other _ (visible pair listed))
      · cases same
        exact absurd rfl (other _ plain)
  simp [lexeme?, comment_of_ne (other '/' rfl), quoted_of_ne (other '"' rfl), quoted_of_ne (other '\'' rfl), number,
    identifier?, isIdentifierStart, letter, underscore, punct]

end Lexemes

end Excerpt.Token
