import Excerpt.Program.Basic
import Excerpt.Proofs.Text.Tokens
import Mathlib.Data.List.Forall2
import Mathlib.Data.Option.Basic

/-!
Texts of the same words, read as tokens. Squeezed, with one space for each gap, texts of the same words are equal, and
squeezing a line of text changes none of its tokens but for the blanks inside constants.
-/

namespace Excerpt

namespace Text

/-- One space in front of a text that follows a gap. A gap at the end is dropped. -/
def gap : List Char → List Char
  | [] => []
  | ' ' :: rest => ' ' :: rest
  | c :: rest => ' ' :: c :: rest

/-- The text with one space for each gap. -/
def squeeze : List Char → List Char
  | [] => []
  | c :: rest => if isBlank c then gap (squeeze rest) else c :: squeeze rest

variable {c : Char} {text rest : List Char}

theorem gap_cases (text : List Char) :
    (text = [] ∧ gap text = []) ∨ (∃ rest, text = ' ' :: rest ∧ gap text = text) ∨ gap text = ' ' :: text := by
  fun_cases gap text with
  | case1 => exact .inl ⟨rfl, rfl⟩
  | case2 rest => exact .inr (.inl ⟨rest, rfl, rfl⟩)
  | case3 c rest other => exact .inr (.inr rfl)

theorem gap_head {others : List Char} (head : gap text = c :: others) : c = ' ' := by
  rcases gap_cases text with ⟨-, same⟩ | ⟨rest, rfl, same⟩ | same <;> grind

theorem gap_gap (text : List Char) : gap (gap text) = gap text := by
  fun_cases gap text <;> rfl

theorem squeeze_blank (blank : isBlank c = true) : squeeze (c :: rest) = gap (squeeze rest) := by
  rw [squeeze, if_pos blank]

theorem squeeze_visible (visible : isBlank c = false) : squeeze (c :: rest) = c :: squeeze rest := by
  rw [squeeze, if_neg (by simp [visible])]

theorem exists_cons_of_squeeze {others : List Char} (visible : isBlank c = false) (head : squeeze text = c :: others) :
    ∃ rest, text = c :: rest ∧ squeeze rest = others := by
  cases text with
  | nil => cases head
  | cons d rest =>
    by_cases blank : isBlank d = true
    · rw [squeeze_blank blank] at head
      rw [gap_head head] at visible
      cases visible
    · rw [squeeze_visible (by simpa using blank)] at head
      cases head
      exact ⟨rest, rfl, rfl⟩

theorem newline_not_mem_squeeze (text : List Char) : '\n' ∉ squeeze text := by
  induction text with
  | nil => simp [squeeze]
  | cons c rest ih =>
    by_cases blank : isBlank c = true
    · rw [squeeze_blank blank]
      rcases gap_cases (squeeze rest) with ⟨-, same⟩ | ⟨-, -, same⟩ | same <;> simp [same, ih]
    · rw [squeeze_visible (by simpa using blank), List.mem_cons, not_or]
      exact ⟨fun same => blank (by rw [← same]; rfl), ih⟩

theorem wordsFrom_gap (run text : List Char) : wordsFrom run (gap text) = wordsFrom run (' ' :: text) := by
  rcases gap_cases text with ⟨rfl, same⟩ | ⟨rest, rfl, same⟩ | same
  · cases run <;> rfl
  · cases run <;> rfl
  · rw [same]

theorem wordsFrom_squeeze (run text : List Char) : wordsFrom run (squeeze text) = wordsFrom run text := by
  induction text generalizing run with
  | nil => rfl
  | cons c rest ih =>
    by_cases blank : isBlank c = true
    · have space : isBlank ' ' = true := rfl
      rw [squeeze_blank blank, wordsFrom_gap]
      simp only [wordsFrom, blank, space, ↓reduceIte, ih]
    · rw [squeeze_visible (by simpa using blank)]
      simp only [wordsFrom, blank, Bool.false_eq_true, ↓reduceIte, ih]

/-- Joining the words with single spaces is squeezing. The run is the word that is being read, from its end. -/
theorem wordsFrom_joined (run text : List Char) : (wordsFrom run text).flatMap (' ' :: ·) =
    if run = [] then gap (squeeze text) else ' ' :: (run.reverse ++ squeeze text) := by
  induction text generalizing run with
  | nil => cases run <;> simp [wordsFrom, squeeze, gap]
  | cons c rest ih =>
    by_cases blank : isBlank c = true
    · rw [squeeze_blank blank]
      cases run <;> simp [wordsFrom, blank, ih, gap_gap]
    · have visible : gap (c :: squeeze rest) = ' ' :: c :: squeeze rest := by
        rw [gap]
        rintro rfl
        exact blank rfl
      rw [squeeze_visible (by simpa using blank)]
      cases run <;> simp [wordsFrom, blank, ih, visible]

theorem squeeze_of_words {first second : List Char} (same : words first = words second) :
    gap (squeeze first) = gap (squeeze second) := by
  have joined := congrArg (List.flatMap (' ' :: ·)) same
  simpa only [words, wordsFrom_joined, ↓reduceIte] using joined

theorem gap_append {front : List Char} (nonempty : front ≠ []) (rest : List Char) :
    gap (front ++ rest) = gap front ++ rest := by
  fun_cases gap front with
  | case1 => exact absurd rfl nonempty
  | case2 => rfl
  | case3 c front other => rw [List.cons_append, gap.eq_3 _ _ other, List.cons_append, List.cons_append]

theorem squeeze_ne_nil (visible : isBlank c = false) (member : c ∈ text) : squeeze text ≠ [] := by
  induction text with
  | nil => cases member
  | cons d rest ih =>
    by_cases blank : isBlank d = true
    · have inside : c ∈ rest := by
        refine (List.mem_cons.mp member).resolve_left ?_
        rintro rfl
        rw [visible] at blank
        cases blank
      rw [squeeze_blank blank]
      rcases gap_cases (squeeze rest) with ⟨empty, -⟩ | ⟨-, -, same⟩ | same
      · exact absurd empty (ih inside)
      · rw [same]
        exact ih inside
      · simp [same]
    · simp [squeeze, blank]

theorem squeeze_append (visible : isBlank c = false) (front rest : List Char) :
    squeeze (front ++ [c] ++ rest) = squeeze (front ++ [c]) ++ squeeze rest := by
  induction front with
  | nil => simp [squeeze, visible]
  | cons d front ih =>
    simp only [List.cons_append, squeeze, ih]
    split
    · exact gap_append (squeeze_ne_nil visible (by simp)) _
    · rfl

end Text

namespace Token

open Text

variable {c quote : Char} {text rest : List Char} {length : Nat}

def after? (read : List Char → Option Nat) (text : List Char) : Option (List Char) :=
  (read text).map text.drop

/-- Squeezing a text cuts the lexeme at its head at the same place. -/
def Cuts (text : List Char) (length squeezed : Nat) : Prop :=
  (squeeze text).drop squeezed = squeeze (text.drop length)

section Quotes

theorem after_quoteEnd_hidden (c : Char) (rest : List Char) :
    after? (quoteEnd? quote) ('\\' :: c :: rest) = after? (quoteEnd? quote) rest := by
  simp [after?, quoteEnd?, Function.comp_def]

theorem after_quoteEnd_plain (other : c ≠ quote) (bare : ¬(c = '\\' ∨ c = '\n')) (rest : List Char) :
    after? (quoteEnd? quote) (c :: rest) = after? (quoteEnd? quote) rest := by
  rw [not_or] at bare
  simp [after?, quoteEnd?, other, bare, Function.comp_def]

theorem after_quoteEnd_space (mark : isBlank quote = false) (rest : List Char) :
    after? (quoteEnd? quote) (' ' :: rest) = after? (quoteEnd? quote) rest := by
  refine after_quoteEnd_plain ?_ (by decide) rest
  rintro rfl
  cases mark

theorem after_quoteEnd_gap (mark : isBlank quote = false) (text : List Char) :
    after? (quoteEnd? quote) (gap text) = after? (quoteEnd? quote) text := by
  rcases gap_cases text with ⟨rfl, same⟩ | ⟨rest, rfl, same⟩ | same
  · rw [same]
  · rw [same]
  · rw [same, after_quoteEnd_space mark]

theorem after_quoteEnd_hidden_gap (escape : quote ≠ '\\') (mark : isBlank quote = false) (text : List Char) :
    after? (quoteEnd? quote) ('\\' :: gap text) = after? (quoteEnd? quote) text := by
  rcases gap_cases text with ⟨rfl, same⟩ | ⟨rest, rfl, same⟩ | same
  · rw [same]
    simp [after?, quoteEnd?, escape.symm]
  · rw [same, after_quoteEnd_hidden, after_quoteEnd_space mark]
  · rw [same, after_quoteEnd_hidden]

/-- A quote closes the same constant in both texts, since no blank is a quote or a backslash. -/
theorem after_quoteEnd_squeeze (escape : quote ≠ '\\') (mark : isBlank quote = false) (line : '\n' ∉ text) :
    after? (quoteEnd? quote) (squeeze text) = (after? (quoteEnd? quote) text).map squeeze := by
  fun_induction quoteEnd? quote text with
  | case1 hidden rest ih =>
    have inner := ih fun member => line (by simp [member])
    rw [squeeze_visible (by decide), after_quoteEnd_hidden, ← inner]
    by_cases blank : isBlank hidden = true
    · rw [squeeze_blank blank, after_quoteEnd_hidden_gap escape mark]
    · rw [squeeze_visible (by simpa using blank), after_quoteEnd_hidden]
  | case2 rest =>
    rw [squeeze_visible mark]
    simp [after?, quoteEnd?, escape]
  | case3 c rest hidden other bare =>
    have last : c = '\\' := bare.resolve_right fun same => line (by simp [same])
    cases rest with
    | nil => simp [squeeze, last, after?, quoteEnd?, escape.symm, show isBlank '\\' = false from rfl]
    | cons next rest => exact absurd rfl (hidden next rest last)
  | case4 c rest hidden other bare ih =>
    have inner := ih fun member => line (by simp [member])
    rw [after_quoteEnd_plain other bare, ← inner]
    by_cases blank : isBlank c = true
    · rw [squeeze_blank blank, after_quoteEnd_gap mark]
    · rw [squeeze_visible (by simpa using blank), after_quoteEnd_plain other bare]
  | case5 => rfl

theorem after_quoted (rest : List Char) : after? (quoted? quote) (quote :: rest) = after? (quoteEnd? quote) rest := by
  simp [after?, quoted?, Function.comp_def]

theorem after_quoted_squeeze (escape : quote ≠ '\\') (mark : isBlank quote = false) (line : '\n' ∉ text) :
    after? (quoted? quote) (squeeze text) = (after? (quoted? quote) text).map squeeze := by
  cases plain : quoted? quote text with
  | some length =>
    obtain ⟨rest, rfl⟩ := exists_cons_of_quoted plain
    have inner : '\n' ∉ rest := fun member => line (List.mem_cons_of_mem _ member)
    rw [squeeze_visible mark, after_quoted, after_quoted, after_quoteEnd_squeeze escape mark inner]
  | none =>
    cases squeezed : quoted? quote (squeeze text) with
    | none => rw [after?, after?, plain, squeezed, Option.map_none, Option.map_none, Option.map_none]
    | some length =>
      obtain ⟨others, head⟩ := exists_cons_of_quoted squeezed
      obtain ⟨rest, rfl, -⟩ := exists_cons_of_squeeze mark head
      have inner : '\n' ∉ rest := fun member => line (List.mem_cons_of_mem _ member)
      rw [squeeze_visible mark, after_quoted, after_quoted, after_quoteEnd_squeeze escape mark inner]

theorem quoted_squeeze (escape : quote ≠ '\\') (mark : isBlank quote = false) {squeezed : Nat}
    (found : quoted? quote text = some length) (cuts : Cuts text length squeezed) :
    (squeeze text).take squeezed = squeeze (text.take length) := by
  obtain ⟨_, rest, rfl, ⟨body, -, rfl⟩, rfl⟩ := (quoted_eq_some escape).mp found
  have whole := squeeze_append mark (quote :: body) rest
  rw [Cuts, List.drop_left] at cuts
  rw [← cuts] at whole
  rw [List.take_left]
  exact List.append_cancel_right ((List.take_append_drop squeezed _).trans whole)

end Quotes

section Comments

theorem after_commentEnd_step (other : ∀ tail, c = '*' → rest = '/' :: tail → False) :
    after? commentEnd? (c :: rest) = after? commentEnd? rest := by
  rw [after?, commentEnd?.eq_2 _ _ other]
  simp [after?, Function.comp_def]

theorem after_commentEnd_gap (text : List Char) : after? commentEnd? (gap text) = after? commentEnd? text := by
  rcases gap_cases text with ⟨rfl, same⟩ | ⟨rest, rfl, same⟩ | same
  · rw [same]
  · rw [same]
  · rw [same, after_commentEnd_step (by simp)]

/-- A comment closes at the same place, since its end has no blank in it. -/
theorem after_commentEnd_squeeze (text : List Char) :
    after? commentEnd? (squeeze text) = (after? commentEnd? text).map squeeze := by
  fun_induction commentEnd? text with
  | case1 rest =>
    rw [squeeze_visible (by decide), squeeze_visible (by decide)]
    rfl
  | case2 c rest other ih =>
    rw [after_commentEnd_step other, ← ih]
    by_cases blank : isBlank c = true
    · rw [squeeze_blank blank, after_commentEnd_gap]
    · rw [squeeze_visible (by simpa using blank), after_commentEnd_step]
      intro tail star slash
      obtain ⟨rest, rfl, -⟩ := exists_cons_of_squeeze (by decide) slash
      exact other rest star rfl
  | case3 => rfl

theorem after_comment_line (line : '\n' ∉ rest) : after? comment? ('/' :: '/' :: rest) = some [] := by
  have whole : rest.takeWhile (· ≠ '\n') = rest := by
    rw [List.takeWhile_eq_self_iff]
    intro c member
    simpa using fun same => line (by rwa [same] at member)
  rw [after?, comment?, whole]
  simp

/-- On one line a line comment takes all the rest in both texts. -/
theorem after_comment_squeeze (line : '\n' ∉ text) :
    after? comment? (squeeze text) = (after? comment? text).map squeeze := by
  fun_cases comment? text with
  | case1 rest =>
    have inner := after_commentEnd_squeeze rest
    rw [squeeze_visible (by decide), squeeze_visible (by decide)]
    simpa [after?, comment?, Function.comp_def] using inner
  | case2 rest =>
    have inner : '\n' ∉ rest := fun member => line (by simp [member])
    rw [squeeze_visible (by decide), squeeze_visible (by decide), after_comment_line inner,
      after_comment_line (newline_not_mem_squeeze rest)]
    rfl
  | case3 _ block single =>
    have plain : comment? text = none := comment?.eq_3 _ block single
    have squeezed : comment? (squeeze text) = none := by
      refine comment?.eq_3 _ ?_ ?_
      · intro others same
        obtain ⟨rest, rfl, inner⟩ := exists_cons_of_squeeze (by decide) same
        obtain ⟨rest, rfl, -⟩ := exists_cons_of_squeeze (by decide) inner
        exact block rest rfl
      · intro others same
        obtain ⟨rest, rfl, inner⟩ := exists_cons_of_squeeze (by decide) same
        obtain ⟨rest, rfl, -⟩ := exists_cons_of_squeeze (by decide) inner
        exact single rest rfl
    rw [after?, after?, plain, squeezed, Option.map_none, Option.map_none, Option.map_none]

end Comments

section Words

def Ends (text : List Char) : Prop :=
  ∀ c ∈ text.head?, isBlank c = true

theorem Ends.absurd (ends : Ends (c :: rest)) (visible : isBlank c = false) : False := by
  rw [ends c rfl] at visible
  cases visible

theorem ends_squeeze (ends : Ends text) : Ends (squeeze text) := by
  cases text with
  | nil => exact ends
  | cons c rest =>
    rw [squeeze_blank (ends c rfl)]
    intro d first
    cases same : gap (squeeze rest) with
    | nil => simp [same] at first
    | cons e others =>
      simp only [same, List.head?_cons, Option.mem_some_iff] at first
      rw [← first, gap_head same]
      rfl

theorem exists_word (text : List Char) : ∃ word rest, text = word ++ rest ∧ squeeze text = word ++ squeeze rest ∧
    (∀ c ∈ word, isBlank c = false) ∧ Ends rest := by
  induction text with
  | nil => exact ⟨[], [], rfl, rfl, by simp, by simp [Ends]⟩
  | cons c text ih =>
    by_cases blank : isBlank c = true
    · exact ⟨[], c :: text, rfl, rfl, by simp, by simpa [Ends] using blank⟩
    · have visible : isBlank c = false := by simpa using blank
      obtain ⟨word, rest, rfl, squeezed, inside, ends⟩ := ih
      exact ⟨c :: word, rest, rfl, by rw [squeeze_visible visible, squeezed, List.cons_append],
        List.forall_mem_cons.mpr ⟨visible, inside⟩, ends⟩

theorem squeeze_front {count : Nat} (visible : ∀ c ∈ text.take count, isBlank c = false) :
    (squeeze text).take count = text.take count ∧ Cuts text count count := by
  induction count generalizing text with
  | zero => exact ⟨rfl, rfl⟩
  | succ count ih =>
    cases text with
    | nil => exact ⟨rfl, rfl⟩
    | cons c rest =>
      rw [List.take_succ_cons, List.forall_mem_cons] at visible
      obtain ⟨front, cuts⟩ := ih visible.2
      rw [Cuts, squeeze_visible visible.1, List.take_succ_cons, List.take_succ_cons, front]
      exact ⟨rfl, cuts⟩

theorem numberTail_of_not (outside : ¬(isIdentifierChar c || c == '.') = true) (rest : List Char) :
    numberTail (c :: rest) = 0 := by
  have marks : c ∉ ['e', 'E', 'p', 'P'] := by
    intro listed
    have parts : ['e', 'E', 'p', 'P'].all isIdentifierChar = true := by decide
    exact outside (by rw [List.all_eq_true.mp parts c listed, Bool.true_or])
  cases rest with
  | nil => rw [numberTail, if_neg outside]
  | cons next rest => rw [numberTail, if_neg fun exponent => marks exponent.1, if_neg outside]

theorem numberTail_of_ends (ends : Ends rest) : numberTail rest = 0 := by
  cases rest with
  | nil => rfl
  | cons c rest =>
    refine numberTail_of_not (fun part => ?_) rest
    rcases Bool.or_eq_true_iff.mp part with inside | point
    · exact ends.absurd (isBlank_of_isIdentifierChar inside)
    · exact ends.absurd (by rw [beq_iff_eq.mp point]; rfl)

theorem numberTail_append (ends : Ends rest) (word : List Char) : numberTail (word ++ rest) = numberTail word := by
  fun_induction numberTail word with
  | case1 mark sign word exponent ih => simp [numberTail, exponent, ih]
  | case2 mark sign word plain inside ih =>
    rw [List.cons_append, List.cons_append, numberTail, if_neg plain, if_pos inside, ← List.cons_append, ih]
  | case3 mark sign word plain outside => exact numberTail_of_not outside _
  | case4 c inside =>
    have tail := numberTail_of_ends ends
    cases rest with
    | nil => simp [numberTail, inside]
    | cons d rest =>
      have sign : d ∉ ['+', '-'] := by
        have signs : ['+', '-'].all (isBlank · == false) = true := by decide
        exact fun listed => ends.absurd (beq_iff_eq.mp (List.all_eq_true.mp signs d listed))
      rw [List.singleton_append, numberTail, if_neg fun exponent => sign exponent.2, if_pos inside, tail]
  | case5 c outside => exact numberTail_of_not outside _
  | case6 => exact numberTail_of_ends ends

theorem number_append (ends : Ends rest) (word : List Char) : number? (c :: word ++ rest) = number? (c :: word) := by
  by_cases point : c = '.'
  · subst point
    cases word with
    | nil =>
      cases rest with
      | nil => rfl
      | cons d rest =>
        have digit : d.isDigit = false := by
          refine Bool.eq_false_iff.mpr fun digit => ends.absurd (isBlank_of_isIdentifierChar ?_)
          simp [isIdentifierChar, Char.isAlphanum, digit]
        simp [number?, digit]
    | cons d word => simp [number?, numberTail_append ends]
  · simp [number?, point, numberTail_append ends]

theorem identifier_append (ends : Ends rest) (word : List Char) :
    identifier? (c :: word ++ rest) = identifier? (c :: word) := by
  have tail : (word ++ rest).takeWhile isIdentifierChar = word.takeWhile isIdentifierChar := by
    induction word with
    | nil =>
      cases rest with
      | nil => rfl
      | cons d rest =>
        exact List.takeWhile_cons_of_neg fun inside => ends.absurd (isBlank_of_isIdentifierChar inside)
    | cons d word ih => simp only [List.cons_append, List.takeWhile_cons, ih]
  rw [List.cons_append, identifier?, identifier?, tail]

theorem punctuator_append (ends : Ends rest) (word : List Char) :
    punctuator? (c :: word ++ rest) = punctuator? (c :: word) := by
  cases word with
  | cons d word => simp [punctuator?]
  | nil =>
    cases rest with
    | nil => rfl
    | cons d rest =>
      have single : (c, d) ∉ pairs := by
        have visible : ∀ pair ∈ pairs, isBlank pair.2 = false := by decide
        exact fun listed => ends.absurd (visible (c, d) listed)
      simp [punctuator?, single]

end Words

/-- The lexeme at the head of a text, and what squeezing the text makes of it. -/
inductive Matches (text : List Char) : Lexeme → Lexeme → Prop
  | comment {length squeezed : Nat} (cuts : Cuts text length squeezed) :
      Matches text (.comment length) (.comment squeezed)
  | constant {kind : TokenKind} {length squeezed : Nat} (cuts : Cuts text length squeezed)
      (isConstant : kind = .str ∨ kind = .char)
      (front : (squeeze text).take squeezed = squeeze (text.take length)) :
      Matches text (.token kind length) (.token kind squeezed)
  | plain {kind : TokenKind} {length : Nat} (cuts : Cuts text length length)
      (front : (squeeze text).take length = text.take length) :
      Matches text (.token kind length) (.token kind length)

theorem rel_orElse {relation : Lexeme → Lexeme → Prop} {first second third fourth : Option Lexeme}
    (one : Option.Rel relation first second) (two : Option.Rel relation third fourth) :
    Option.Rel relation (first <|> third) (second <|> fourth) := by
  cases one with
  | some related => exact .some related
  | none => exact two

/-- Two readers that leave texts alike behind take lexemes that match. -/
theorem rel_of_after {read : List Char → Option Nat} {build : Nat → Lexeme}
    (same : after? read (squeeze text) = (after? read text).map squeeze)
    (step : ∀ {length squeezed}, read text = some length → Cuts text length squeezed →
      Matches text (build length) (build squeezed)) :
    Option.Rel (Matches text) ((read text).map build) ((read (squeeze text)).map build) := by
  rw [after?, after?] at same
  cases plain : read text with
  | none =>
    rw [plain, Option.map_none, Option.map_none, Option.map_eq_none_iff] at same
    rw [same]
    exact .none
  | some length =>
    rw [plain, Option.map_some, Option.map_some, Option.map_eq_some_iff] at same
    obtain ⟨squeezed, found, cuts⟩ := same
    rw [found]
    exact .some (step plain cuts)

/-- A lexeme without blanks is the same in both texts, since it is read from one word. -/
theorem rel_plain {kind : TokenKind} {read : List Char → Option Nat} (visible : isBlank c = false)
    (depends : ∀ {word rest}, Ends rest → read (c :: word ++ rest) = read (c :: word))
    (bounded : ∀ {text length}, read text = some length → length ≤ text.length) (text : List Char) :
    Option.Rel (Matches (c :: text)) ((read (c :: text)).map (.token kind))
      ((read (squeeze (c :: text))).map (.token kind)) := by
  obtain ⟨word, rest, rfl, squeezed, inside, ends⟩ := exists_word text
  have plain : read (c :: (word ++ rest)) = read (c :: word) := depends ends
  have same : read (squeeze (c :: (word ++ rest))) = read (c :: word) := by
    rw [squeeze_visible visible, squeezed]
    exact depends (ends_squeeze ends)
  rw [plain, same]
  cases found : read (c :: word) with
  | none => exact .none
  | some length =>
    have taken : ∀ d ∈ (c :: (word ++ rest)).take length, isBlank d = false := by
      rw [← List.cons_append, List.take_append_of_le_length (bounded found)]
      intro d member
      rcases List.mem_cons.mp (List.mem_of_mem_take member) with rfl | member
      · exact visible
      · exact inside d member
    obtain ⟨front, cuts⟩ := squeeze_front taken
    exact .some (.plain cuts front)

/-- Squeezing a line of text leaves the lexeme at its head, with its own gaps squeezed. -/
theorem lexeme_squeeze (visible : isBlank c = false) (line : '\n' ∉ c :: rest) :
    Option.Rel (Matches (c :: rest)) (lexeme? (c :: rest)) (lexeme? (squeeze (c :: rest))) := by
  refine rel_orElse ?_ (rel_orElse ?_ (rel_orElse ?_ (rel_orElse ?_ (rel_orElse ?_ ?_))))
  · exact rel_of_after (after_comment_squeeze line) fun _ cuts => .comment cuts
  · exact rel_of_after (after_quoted_squeeze (by decide) rfl line) fun found cuts =>
      .constant cuts (.inl rfl) (quoted_squeeze (by decide) rfl found cuts)
  · exact rel_of_after (after_quoted_squeeze (by decide) rfl line) fun found cuts =>
      .constant cuts (.inr rfl) (quoted_squeeze (by decide) rfl found cuts)
  · exact rel_plain visible (number_append · _) (fun read => (number_spec read).2) rest
  · refine rel_plain visible (identifier_append · _) (fun {text} {length} read => ?_) rest
    have below := fun rest : List Char => (List.takeWhile_prefix isIdentifierChar (l := rest)).length_le
    unfold identifier? at read
    grind
  · refine rel_plain visible (punctuator_append · _) (fun {text} {length} read => ?_) rest
    unfold punctuator? at read
    grind

/-- Two tokens that differ in the gaps inside a constant at most. -/
structure Respaced (first second : Token) : Prop where
  kind : first.kind = second.kind
  words : words first.text.toList = words second.text.toList
  text : first.kind ≠ .str → first.kind ≠ .char → first.text = second.text

theorem scanFrom_drop (skip offset : Nat) (text : List Char) :
    ∃ start, scanFrom skip offset text = scanFrom 0 start (text.drop skip) := by
  induction text generalizing skip offset with
  | nil => exact ⟨0, by simp [scanFrom]⟩
  | cons c rest ih =>
    cases skip with
    | zero => exact ⟨offset, rfl⟩
    | succ skip =>
      obtain ⟨start, same⟩ := ih skip (offset + c.utf8Size)
      exact ⟨start, by rw [scanFrom, same, List.drop_succ_cons]⟩

theorem scanFrom_gap (offset : Nat) (text : List Char) :
    ∃ start, scanFrom 0 offset (gap text) = scanFrom 0 start text := by
  rcases gap_cases text with ⟨rfl, same⟩ | ⟨rest, rfl, same⟩ | same
  · exact ⟨offset, by rw [same]⟩
  · exact ⟨offset, by rw [same]⟩
  · exact ⟨offset + ' '.utf8Size, by rw [same, scanFrom, lexeme_of_blank rfl]⟩

theorem lexeme_pos {lexeme : Lexeme} (found : lexeme? text = some lexeme) : 0 < lexeme.length := by
  cases lexeme with
  | token kind length =>
    obtain ⟨piece, rest, -, reads, rfl⟩ := exists_reads found
    exact List.length_pos_iff.mpr reads.ne_nil
  | comment length =>
    obtain ⟨comment, rest, -, isComment, rfl⟩ := comment_eq_some.mp (lexeme_comment.mp found)
    cases isComment <;> exact Nat.succ_pos _

def Lexeme.tokens (text : List Char) (offset : Nat) : Lexeme → List Token
  | .comment _ => []
  | .token kind length => [⟨kind, String.ofList (text.take length), offset⟩]

theorem scanFrom_of_lexeme {lexeme : Lexeme} (found : lexeme? (c :: rest) = some lexeme) (offset : Nat) :
    ∃ start, scanFrom 0 offset (c :: rest) =
      lexeme.tokens (c :: rest) offset ++ scanFrom 0 start ((c :: rest).drop lexeme.length) := by
  obtain ⟨start, same⟩ := scanFrom_drop (lexeme.length - 1) (offset + c.utf8Size) rest
  have positive := lexeme_pos found
  have behind : (c :: rest).drop lexeme.length = rest.drop (lexeme.length - 1) := by
    rw [← Nat.sub_add_cancel positive, List.drop_succ_cons, Nat.add_sub_cancel]
  refine ⟨start, ?_⟩
  rw [behind, ← same, scanFrom, found]
  cases lexeme <;> rfl

theorem Matches.cuts {first second : Lexeme} (matched : Matches text first second) :
    Cuts text first.length second.length := by
  cases matched <;> assumption

theorem Matches.respaced {first second : Lexeme} (matched : Matches text first second) (offset start : Nat) :
    List.Forall₂ Respaced (first.tokens text offset) (second.tokens (squeeze text) start) := by
  cases matched with
  | comment => exact .nil
  | constant cuts isConstant front =>
    refine .cons ⟨rfl, ?_, fun noString noChar => ?_⟩ .nil
    · rw [String.toList_ofList, String.toList_ofList, front, words, words, wordsFrom_squeeze]
    · exact absurd isConstant (not_or.mpr ⟨noString, noChar⟩)
  | plain cuts front =>
    refine .cons ⟨rfl, ?_, fun _ _ => ?_⟩ .nil
    · rw [front]
    · rw [front]

/-- The tokens of a line of text, and of the text squeezed. -/
theorem scanFrom_squeeze (line : '\n' ∉ text) (offset start : Nat) :
    List.Forall₂ Respaced (scanFrom 0 offset text) (scanFrom 0 start (squeeze text)) := by
  induction size : text.length using Nat.strong_induction_on generalizing text offset start with
  | _ size ih =>
  subst size
  cases text with
  | nil => exact .nil
  | cons c rest =>
    have behind : ∀ length, 0 < length → ∀ offset start, List.Forall₂ Respaced
        (scanFrom 0 offset ((c :: rest).drop length)) (scanFrom 0 start (squeeze ((c :: rest).drop length))) := by
      intro length positive offset start
      refine ih _ ?_ (fun member => line (List.mem_of_mem_drop member)) offset start rfl
      simp only [List.length_drop, List.length_cons]
      omega
    by_cases blank : isBlank c = true
    · obtain ⟨start', same⟩ := scanFrom_gap start (squeeze rest)
      rw [squeeze_blank blank, same, scanFrom, lexeme_of_blank blank]
      exact behind 1 Nat.one_pos _ _
    · have visible : isBlank c = false := by simpa using blank
      have related := lexeme_squeeze visible line
      rw [squeeze_visible visible] at related ⊢
      generalize found : lexeme? (c :: rest) = first at related
      generalize squeezed : lexeme? (c :: squeeze rest) = second at related
      cases related with
      | none =>
        rw [scanFrom, scanFrom, found, squeezed]
        exact behind 1 Nat.one_pos _ _
      | some matched =>
        obtain ⟨offset', plain⟩ := scanFrom_of_lexeme found offset
        obtain ⟨start', other⟩ := scanFrom_of_lexeme squeezed start
        rw [plain, other, ← squeeze_visible visible, matched.cuts]
        exact List.rel_append (matched.respaced offset start) (behind _ (lexeme_pos found) _ _)

theorem Respaced.join {first second third : Token} (one : Respaced first third) (two : Respaced second third) :
    Respaced first second := by
  refine ⟨one.kind.trans two.kind.symm, one.words.trans two.words.symm, fun noString noChar => ?_⟩
  have same := one.kind.trans two.kind.symm
  exact (one.text noString noChar).trans (two.text (same ▸ noString) (same ▸ noChar)).symm

theorem respaced_join {first second third : List Token} (one : List.Forall₂ Respaced first third)
    (two : List.Forall₂ Respaced second third) : List.Forall₂ Respaced first second := by
  induction one generalizing second with
  | nil =>
    cases two
    exact .nil
  | cons head _ ih =>
    cases two with
    | cons otherHead otherTail => exact .cons (head.join otherHead) (ih otherTail)

theorem tokenize_of_words {first second : List Char} (line : '\n' ∉ first) (other : '\n' ∉ second)
    (same : Text.words first = Text.words second) : List.Forall₂ Respaced (tokenize first) (tokenize second) := by
  obtain ⟨start, one⟩ := scanFrom_gap 0 (squeeze first)
  obtain ⟨start', two⟩ := scanFrom_gap 0 (squeeze second)
  have left := scanFrom_squeeze line 0 start
  have right := scanFrom_squeeze other 0 start'
  rw [← one] at left
  rw [← two, ← squeeze_of_words same] at right
  exact respaced_join left right

def isConstant (token : Token) : Bool :=
  token.kind = .str || token.kind = .char

/-- Tokens of respaced texts can differ in their constants only. -/
theorem view_eq_iff {first second : List Token} (related : List.Forall₂ Respaced first second) :
    first.map view = second.map view ↔
      (first.filter isConstant).map (·.text) = (second.filter isConstant).map (·.text) := by
  induction related with
  | nil => simp
  | @cons one two first second head _ ih =>
    have kinds : one.isConstant = two.isConstant := by rw [isConstant, isConstant, head.kind]
    by_cases quoted : two.isConstant = true
    · rw [List.filter_cons_of_pos (kinds.trans quoted), List.filter_cons_of_pos quoted]
      simp [view, head.kind, ih]
    · have text : one.text = two.text := by
        simp only [isConstant, Bool.or_eq_true, decide_eq_true_eq, not_or] at quoted
        exact head.text (head.kind ▸ quoted.1) (head.kind ▸ quoted.2)
      rw [List.filter_cons_of_neg (by rwa [kinds]), List.filter_cons_of_neg quoted]
      simp [view, head.kind, text, ih]

end Token

def constants (text : List Char) : List String :=
  ((tokenize text).filter Token.isConstant).map (·.text)

namespace MacroDirective

/-- Definitions that are taken for the same have the same parameters, and their replacements have the same tokens except
for blanks inside string and character constants. Only these constants can make a difference. -/
theorem sameDefinition_tokens {first second : MacroDirective} {params otherParams : Option (List String)}
    {body otherBody : List Char} {names otherNames : List String} (define : first.kind = .define params body names)
    (otherDefine : second.kind = .define otherParams otherBody otherNames) (line : '\n' ∉ body)
    (otherLine : '\n' ∉ otherBody) (same : first.sameDefinition second = true) :
    params = otherParams ∧ List.Forall₂ Token.Respaced (tokenize body) (tokenize otherBody) ∧
      ((tokenize body).map Token.view = (tokenize otherBody).map Token.view ↔
        constants body = constants otherBody) := by
  simp only [sameDefinition, define, otherDefine, Bool.and_eq_true, beq_iff_eq] at same
  have related := Token.tokenize_of_words line otherLine same.2
  exact ⟨same.1, related, Token.view_eq_iff related⟩

def defined (body : String) : MacroDirective :=
  ⟨"M", .define none body.toList [], ⟨0, 0, 0⟩, ⟨0, 0⟩, 0⟩

theorem sameDefinition_tokens_sum :
    (defined "a + f(1.5e-3,  b)").sameDefinition (defined "a  +\tf(1.5e-3, b) ") = true ∧
    (tokenize "a + f(1.5e-3,  b)".toList).map Token.view = (tokenize "a  +\tf(1.5e-3, b) ".toList).map Token.view := by
  have same : (defined "a + f(1.5e-3,  b)").sameDefinition (defined "a  +\tf(1.5e-3, b) ") = true := by decide +kernel
  refine ⟨same, (sameDefinition_tokens rfl rfl ?_ ?_ same).2.2.mpr ?_⟩ <;> decide +kernel

/-- Two strings of the same words are different tokens, and the definitions are taken for the same. -/
theorem sameDefinition_of_different_strings : (defined "\"x y\"").sameDefinition (defined "\"x  y\"") = true ∧
    (tokenize "\"x y\"".toList).map Token.view ≠ (tokenize "\"x  y\"".toList).map Token.view := by
  decide +kernel

end MacroDirective

end Excerpt
