import Excerpt.Proofs.Text.Lexemes

namespace Excerpt

namespace Token

def view (token : Token) : TokenKind × String :=
  (token.kind, token.text)

/-- The token is what is read at its text when a line break follows. -/
structure Stable (token : Token) : Prop where
  nonempty : token.text.toList ≠ []
  reads : ∀ rest, lexeme? (token.text.toList ++ '\n' :: rest) = some (.token token.kind token.text.toList.length)

def spell (tokens : List Token) : List Char :=
  tokens.flatMap fun token => token.text.toList ++ ['\n']

/-- A token of a text is read as the same token wherever it stands in front of a line break. -/
theorem stable_of_mem_scanFrom {text : List Char} {skip offset : Nat} {token : Token}
    (listed : token ∈ scanFrom skip offset text) : token.Stable := by
  fun_induction scanFrom skip offset text with
  | case1 => cases listed
  | case2 _ _ _ _ _ ih | case3 _ _ _ _ _ ih | case4 _ _ _ _ _ _ ih => exact ih listed
  | case5 offset c rest next kind length found ih =>
    rcases List.mem_cons.mp listed with rfl | listed
    · obtain ⟨piece, behind, split, reads, rfl⟩ := exists_reads found
      rw [split, List.take_left]
      refine ⟨?_, fun other => ?_⟩
      · rw [String.toList_ofList]
        exact reads.ne_nil
      · rw [String.toList_ofList]
        exact (reads.shift (by simp)).lexeme
    · exact ih listed

theorem stable_of_mem_tokenize {text : List Char} {token : Token} (listed : token ∈ tokenize text) : token.Stable :=
  stable_of_mem_scanFrom listed

theorem scanFrom_skip (front rest : List Char) (offset : Nat) :
    scanFrom front.length offset (front ++ rest) = scanFrom 0 (offset + Text.byteLength front) rest := by
  induction front generalizing offset with
  | nil => simp [Text.byteLength]
  | cons c front ih =>
    rw [List.length_cons, List.cons_append, scanFrom, ih, Text.byteLength, Nat.add_assoc]

theorem scanFrom_newline (offset : Nat) (rest : List Char) :
    scanFrom 0 offset ('\n' :: rest) = scanFrom 0 (offset + 1) rest := by
  have blank : lexeme? ('\n' :: rest) = none := by
    cases rest <;> rfl
  rw [scanFrom, blank]
  rfl

/-- Tokens written one to a line are read back, up to their places. -/
theorem scanFrom_spell {tokens : List Token} (stable : ∀ token ∈ tokens, token.Stable) (offset : Nat) :
    (scanFrom 0 offset (spell tokens)).map view = tokens.map view := by
  induction tokens generalizing offset with
  | nil => rfl
  | cons token tokens ih =>
    have first := stable token (List.mem_cons_self ..)
    have others := fun offset => ih (fun other listed => stable other (List.mem_cons_of_mem _ listed)) offset
    obtain ⟨c, rest, text⟩ := List.exists_cons_of_ne_nil first.nonempty
    have reads := first.reads (spell tokens)
    have spelled : spell (token :: tokens) = c :: (rest ++ '\n' :: spell tokens) := by simp [spell, text]
    have whole : (c :: (rest ++ '\n' :: spell tokens)).take (rest.length + 1) = token.text.toList := by simp [text]
    rw [text, List.cons_append] at reads
    rw [spelled, scanFrom, reads]
    simp only [List.length_cons, whole, String.ofList_toList, List.map_cons, Nat.add_sub_cancel, scanFrom_skip,
      scanFrom_newline, others]
    rfl

end Token

end Excerpt
