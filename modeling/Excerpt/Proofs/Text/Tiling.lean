import Excerpt.Proofs.Text.Slices
import Excerpt.Proofs.Text.Tokens

/-!
Tokens tile a text. The lexer cuts a text into blanks, comments and tokens that follow each other without a gap.
-/

namespace Excerpt.Token

open Text

/-- A stretch of text that the lexer passes over at once. -/
inductive Piece where
  | blank (c : Char)
  | comment (text : List Char)
  | token (kind : TokenKind) (text : List Char)

namespace Piece

def text : Piece → List Char
  | blank c => [c]
  | comment text => text
  | token _ text => text

/-- The piece is a blank, a complete comment or a token in front of `rest`. -/
def Fits (rest : List Char) : Piece → Prop
  | blank c => isBlank c = true
  | comment text => IsComment rest text
  | token kind text => Reads rest kind text

def tokens (offset : Nat) : Piece → List Token
  | token kind text => [⟨kind, String.ofList text, offset⟩]
  | _ => []

/-- The piece is a comment, a constant in quotes or a number. -/
def Hides : Piece → Prop
  | blank _ => False
  | comment _ => True
  | token kind _ => kind ∈ [.str, .char, .number]

end Piece

def spelled (pieces : List Piece) : List Char :=
  pieces.flatMap Piece.text

def Tiled : List Piece → Prop
  | [] => True
  | piece :: rest => piece.Fits (spelled rest) ∧ Tiled rest

def tokensFrom (offset : Nat) : List Piece → List Token
  | [] => []
  | piece :: rest => piece.tokens offset ++ tokensFrom (offset + byteLength piece.text) rest

variable {offset : Nat} {token : Token} {piece : Piece} {pieces : List Piece} {text rest : List Char}

/-- The step: a piece that fits is skipped as a whole and gives the token that it is, if it is one. -/
theorem scanFrom_piece (fits : piece.Fits rest) (offset : Nat) :
    scanFrom 0 offset (piece.text ++ rest) = piece.tokens offset ++ scanFrom 0
      (offset + byteLength piece.text) rest := by
  cases piece with
  | blank c =>
    rw [Piece.text, List.singleton_append, scanFrom, lexeme_of_blank fits]
    rfl
  | comment text =>
    have found := lexeme_comment.mpr (comment_eq_some.mpr ⟨text, rest, rfl, fits, rfl⟩)
    obtain ⟨c, tail, rfl⟩ : ∃ c tail, text = c :: tail := by cases fits <;> exact ⟨_, _, rfl⟩
    rw [List.cons_append] at found
    rw [Piece.text, List.cons_append, scanFrom, found]
    simp only [List.length_cons, Nat.add_sub_cancel, scanFrom_skip, byteLength, Nat.add_assoc]
    rfl
  | token kind text =>
    have found := Reads.lexeme fits
    obtain ⟨c, tail, rfl⟩ := List.exists_cons_of_ne_nil (Reads.ne_nil fits)
    rw [List.cons_append] at found
    rw [Piece.text, List.cons_append, scanFrom, found]
    simp only [List.length_cons, Nat.add_sub_cancel, scanFrom_skip, byteLength, Nat.add_assoc]
    rw [← List.length_cons, ← List.cons_append, List.take_left]
    rfl

theorem scanFrom_spelled (tiled : Tiled pieces) (offset : Nat) :
    scanFrom 0 offset (spelled pieces) = tokensFrom offset pieces := by
  induction pieces generalizing offset with
  | nil => rfl
  | cons piece rest ih =>
    rw [spelled, List.flatMap_cons, ← spelled, scanFrom_piece tiled.1, ih tiled.2]
    rfl

theorem exists_piece (c : Char) (rest : List Char) :
    ∃ piece behind, c :: rest = Piece.text piece ++ behind ∧ piece.Fits behind ∧ piece.text ≠ [] := by
  cases found : lexeme? (c :: rest) with
  | none => exact ⟨.blank c, rest, rfl, isBlank_of_lexeme found, List.cons_ne_nil _ _⟩
  | some lexeme =>
    cases lexeme with
    | comment length =>
      obtain ⟨comment, behind, split, isComment, -⟩ := comment_eq_some.mp (lexeme_comment.mp found)
      exact ⟨.comment comment, behind, split, isComment, by cases isComment <;> exact List.cons_ne_nil _ _⟩
    | token kind length =>
      obtain ⟨token, behind, split, reads, -⟩ := exists_reads found
      exact ⟨.token kind token, behind, split, reads, reads.ne_nil⟩

/-- The run: every text is tiled, by induction on its length. -/
theorem exists_tiled (text : List Char) : ∃ pieces, Tiled pieces ∧ spelled pieces = text := by
  induction length : text.length using Nat.strong_induction_on generalizing text with
  | _ size ih =>
    cases text with
    | nil => exact ⟨[], trivial, rfl⟩
    | cons c rest =>
      obtain ⟨piece, behind, split, fits, nonempty⟩ := exists_piece c rest
      have shorter : behind.length < size := by
        have positive := List.length_pos_iff.mpr nonempty
        rw [← length, split, List.length_append]
        omega
      obtain ⟨pieces, tiled, rfl⟩ := ih _ shorter behind rfl
      exact ⟨piece :: pieces, ⟨fits, tiled⟩, split.symm⟩

theorem byteLength_spelled_cons : byteLength (spelled (piece :: pieces)) =
    byteLength piece.text + byteLength (spelled pieces) :=
  byteLength_append _ _

theorem tokensFrom_append (first second : List Piece) (offset : Nat) : tokensFrom offset (first ++ second) =
    tokensFrom offset first ++ tokensFrom (offset + byteLength (spelled first)) second := by
  induction first generalizing offset with
  | nil => rfl
  | cons piece rest ih =>
    rw [List.cons_append, tokensFrom, ih, tokensFrom, List.append_assoc, byteLength_spelled_cons, Nat.add_assoc]

theorem bounds_of_mem_tokensFrom (listed : token ∈ tokensFrom offset pieces) :
    offset ≤ token.start ∧ token.stop ≤ offset + byteLength (spelled pieces) := by
  induction pieces generalizing offset with
  | nil => cases listed
  | cons piece rest ih =>
    rw [byteLength_spelled_cons]
    rcases List.mem_append.mp listed with here | further
    · cases piece with
      | blank | comment => cases here
      | token kind text =>
        rw [List.mem_singleton.mp here]
        simp only [stop, Piece.text, String.toList_ofList]
        omega
    · have bounds := ih further
      omega

theorem pairwise_tokensFrom (offset : Nat) (pieces : List Piece) :
    (tokensFrom offset pieces).Pairwise fun first second => first.stop ≤ second.start := by
  induction pieces generalizing offset with
  | nil => exact .nil
  | cons piece rest ih =>
    refine List.pairwise_append.mpr ⟨?_, ih _, ?_⟩
    · cases piece <;> simp [Piece.tokens]
    · intro first here second further
      have own : first ∈ tokensFrom offset [piece] := List.mem_append_left _ here
      have bounds := bounds_of_mem_tokensFrom own
      have behind := bounds_of_mem_tokensFrom further
      rw [byteLength_spelled_cons, spelled, List.flatMap_nil, byteLength] at bounds
      omega

/-- A token is spelled where it says, and it is read there in front of the text behind it. -/
theorem exists_of_mem_tokensFrom (tiled : Tiled pieces) (listed : token ∈ tokensFrom offset pieces) :
    ∃ front back, spelled pieces = front ++ token.text.toList ++ back ∧ offset + byteLength front = token.start ∧
      Reads back token.kind token.text.toList := by
  induction pieces generalizing offset with
  | nil => cases listed
  | cons piece rest ih =>
    rw [spelled, List.flatMap_cons, ← spelled]
    rcases List.mem_append.mp listed with here | further
    · cases piece with
      | blank | comment => cases here
      | token kind text =>
        rw [List.mem_singleton.mp here, String.toList_ofList]
        exact ⟨[], spelled rest, rfl, rfl, tiled.1⟩
    · obtain ⟨front, back, split, place, reads⟩ := ih tiled.2 further
      exact ⟨piece.text ++ front, back, by rw [split]; simp, by rw [byteLength_append]; omega, reads⟩

/-- No identifier lies inside a comment, a constant in quotes or a number. -/
theorem apart_of_hides {before after : List Piece} (hides : piece.Hides)
    (listed : token ∈ tokensFrom 0 (before ++ piece :: after)) (isIdentifier : token.kind = .identifier) :
    token.stop ≤ byteLength (spelled before) ∨ byteLength (spelled before) + byteLength piece.text ≤ token.start := by
  rw [tokensFrom_append, Nat.zero_add] at listed
  rcases List.mem_append.mp listed with front | back
  · exact .inl (by simpa using (bounds_of_mem_tokensFrom front).2)
  · rcases List.mem_append.mp back with here | behind
    · cases piece with
      | blank | comment => cases here
      | token kind text =>
        rw [List.mem_singleton.mp here] at isIdentifier
        cases isIdentifier
        simp [Piece.Hides] at hides
    · exact .inr (bounds_of_mem_tokensFrom behind).1

/-- The tokens of a text follow each other, each is the text at its place and by itself the same token, and between them
are blanks and comments. -/
theorem tokenize_tiles (text : List Char) :
    ((tokenize text).Pairwise fun first second => first.stop ≤ second.start) ∧
    (∀ token ∈ tokenize text, token.start < token.stop ∧ slice? text token.start token.stop = some token.text.toList ∧
      tokenize token.text.toList = [⟨token.kind, token.text, 0⟩]) ∧
    ∃ pieces, Tiled pieces ∧ spelled pieces = text ∧ tokensFrom 0 pieces = tokenize text ∧
      ∀ before piece after, pieces = before ++ piece :: after → piece.Hides →
        ∀ token ∈ tokenize text, token.kind = .identifier →
          token.stop ≤ byteLength (spelled before) ∨
            byteLength (spelled before) + byteLength piece.text ≤ token.start := by
  obtain ⟨pieces, tiled, rfl⟩ := exists_tiled text
  have same : tokenize (spelled pieces) = tokensFrom 0 pieces := scanFrom_spelled tiled 0
  rw [same]
  refine ⟨pairwise_tokensFrom 0 pieces, fun token listed => ?_, pieces, tiled, rfl, rfl, ?_⟩
  · obtain ⟨front, back, split, place, reads⟩ := exists_of_mem_tokensFrom tiled listed
    refine ⟨?_, slice_eq_some.mpr ⟨front, back, split, by omega, rfl⟩, ?_⟩
    · refine Nat.lt_add_of_pos_right (Nat.pos_of_ne_zero fun empty => reads.ne_nil (eq_nil_of_byteLength empty))
    · have alone : Tiled [.token token.kind token.text.toList] := ⟨reads.shift (by simp [spelled]), trivial⟩
      simpa [tokensFrom, Piece.tokens, spelled, Piece.text, tokenize] using scanFrom_spelled alone 0
  · rintro before piece after rfl hides token listed isIdentifier
    exact apart_of_hides hides listed isIdentifier

end Excerpt.Token
