import Excerpt.Draft.Macro
import Excerpt.Proofs.Constant.Substitution
import Excerpt.Proofs.Draft.UnitSizes
import Excerpt.Proofs.Draft.Written

/-!
Constants folded through macros, beside the text that macro replacement gives.
-/

namespace Excerpt

open Constant

def Token.parenthesize (tokens : List Token) : List Token :=
  ⟨.punct, "(", 0⟩ :: (tokens ++ [⟨.punct, ")", 0⟩])

namespace Draft

section

variable (draft : Draft)

def enumerator? (name : String) : Option Int64 :=
  match draft.ordinary? name with
  | some id =>
    match (draft.program.decl id).kind with
    | .enumConstant value _ _ => some value
    | _ => none
  | none => none

def replacement? (name : String) : Option (List Char) :=
  match draft.definition? name with
  | some id =>
    match (draft.program.directive id).kind with
    | .define none body _ => some body
    | _ => none
  | none => none

/-- What a token is replaced by, to `depth` levels of macros. Each replacement is put in as `enclose` says. -/
def replaceToken (enclose : List Token → List Token) : Nat → Token → List Token
  | 0, token => [token]
  | depth + 1, token =>
    if token.kind = .identifier then
      match draft.replacement? token.text with
      | some body => enclose ((tokenize body).flatMap (replaceToken enclose depth))
      | none => [token]
    else [token]

def replaceText (enclose : List Token → List Token) (depth : Nat) (text : List Char) : List Char :=
  Token.spell ((tokenize text).flatMap (draft.replaceToken enclose depth))

/-- The tokens are an expression of a level. Through `depth` levels of names, each name in it is no macro, or it is a
macro without parameters whose replacement fits the level of the place. -/
def Fits : Nat → Nat → List Token → Prop
  | 0, level, tokens => ∃ expr, Derives level tokens expr ∧ expr.places level = []
  | depth + 1, level, tokens => ∃ expr, Derives level tokens expr ∧ ∀ place ∈ expr.places level,
      draft.definition? place.2 = none ∨ ∃ body, draft.replacement? place.2 = some body ∧
        Fits depth place.1 (tokenize body)

end

variable {draft : Draft} {name : String} {value : Int64} {level depth most : Nat} {text : List Char}
  {enclose : List Token → List Token}

theorem replacement?_of_none (plain : draft.definition? name = none) : draft.replacement? name = none := by
  simp [replacement?, plain]

theorem constant?_of_none (plain : draft.definition? name = none) (depth : Nat) :
    draft.constant? (depth + 1) name = draft.enumerator? name := by
  rw [constant?, plain]
  rfl

theorem constant?_of_replacement {body : List Char} (replaced : draft.replacement? name = some body) (depth : Nat) :
    draft.constant? (depth + 1) name = Constant.evaluate (draft.constant? depth) body := by
  unfold replacement? at replaced
  split at replaced
  · next id defined =>
    split at replaced
    · next names kind =>
      cases replaced
      simp only [constant?, defined, kind]
    · cases replaced
  · cases replaced

theorem plain_or_replaced (found : draft.constant? (depth + 1) name = some value) :
    draft.definition? name = none ∨ ∃ body, draft.replacement? name = some body := by
  rw [constant?] at found
  cases defined : draft.definition? name with
  | none => exact .inl rfl
  | some id =>
    simp only [defined] at found
    split at found
    · next body names kind => exact .inr ⟨body, by simp [replacement?, defined, kind]⟩
    · cases found

theorem replaceToken_of_ne {token : Token} (other : token.kind ≠ .identifier) (depth : Nat) :
    draft.replaceToken enclose depth token = [token] := by
  cases depth <;> simp [replaceToken, other]

theorem stable_of_mem_replaceToken
    (encloses : ∀ tokens, (∀ token ∈ tokens, Token.Stable token) → ∀ token ∈ enclose tokens, token.Stable)
    {token : Token} (stable : token.Stable) : ∀ part ∈ draft.replaceToken enclose depth token, part.Stable := by
  induction depth generalizing token with
  | zero => simpa [replaceToken] using stable
  | succ depth ih =>
    rw [replaceToken]
    split
    · split
      · refine encloses _ fun part listed => ?_
        obtain ⟨token, written, listed⟩ := List.mem_flatMap.mp listed
        exact ih (Token.stable_of_mem_tokenize written) part listed
      · simpa using stable
    · simpa using stable

/-- A name may be replaced by tokens that denote what it stands for, so the whole keeps its value. -/
theorem denotes_replaced {expr : Expr} {less more : Nat} (derived : Derives level (tokenize text) expr)
    (names : ∀ place ∈ expr.places level, draft.definition? place.2 = none ∨
      ∃ body, draft.replacement? place.2 = some body ∧
        Denotes draft.enumerator? place.1 (enclose ((tokenize body).flatMap (draft.replaceToken enclose more)))
          (Constant.evaluate (draft.constant? less) body)) :
    Denotes draft.enumerator? level ((tokenize text).flatMap (draft.replaceToken enclose (more + 1)))
      (expr.value (draft.constant? (less + 1))) := by
  refine derived.denotes_flatMap (fun token other => replaceToken_of_ne other (more + 1)) ?_
  intro place placed token kind operand same
  rw [replaceToken, if_pos kind, same]
  rcases names place placed with plain | ⟨body, replaced, denotes⟩
  · rw [replacement?_of_none plain, constant?_of_none plain]
    have denotes : Denotes draft.enumerator? 11 [token] (draft.enumerator? place.2) :=
      ⟨.name token.text, .name kind operand, congrArg draft.enumerator? same⟩
    exact denotes.loosen (places_le derived.level_le place placed)
  · rw [replaced, constant?_of_replacement replaced]
    exact denotes

theorem denotes_unnamed {expr : Expr} (derived : Derives level (tokenize text) expr) (unnamed : expr.places level = [])
    (resolve : String → Option Int64) (depth : Nat) :
    Denotes draft.enumerator? level ((tokenize text).flatMap (draft.replaceToken enclose depth)) (expr.value resolve) :=
  derived.denotes_flatMap (fun token other => replaceToken_of_ne other depth) (by simp [unnamed])

/-- Folding takes the value of each replacement by itself, which is that of a replacement in parentheses. -/
theorem denotes_parenthesized (enough : depth ≤ most)
    (evaluates : Constant.evaluate (draft.constant? depth) text = some value) :
    Denotes draft.enumerator? 0 ((tokenize text).flatMap (draft.replaceToken Token.parenthesize most))
      (some value) := by
  induction depth generalizing most text value with
  | zero =>
    obtain ⟨expr, derived⟩ := exists_derives_of_evaluate evaluates
    rw [derived.evaluate_eq] at evaluates
    have unnamed : expr.places 0 = [] := by
      refine List.eq_nil_iff_forall_not_mem.mpr fun place placed => ?_
      obtain ⟨value, resolved⟩ := resolve_of_value evaluates place placed
      cases resolved
    exact evaluates ▸ denotes_unnamed derived unnamed _ most
  | succ less ih =>
    obtain ⟨more, rfl⟩ : ∃ more, most = more + 1 := ⟨most - 1, by omega⟩
    obtain ⟨expr, derived⟩ := exists_derives_of_evaluate evaluates
    rw [derived.evaluate_eq] at evaluates
    rw [← evaluates]
    refine denotes_replaced derived fun place placed => ?_
    obtain ⟨value, resolved⟩ := resolve_of_value evaluates place placed
    refine (plain_or_replaced resolved).imp_right ?_
    rintro ⟨body, replaced⟩
    rw [constant?_of_replacement replaced] at resolved
    have inner : Denotes draft.enumerator? 11
        (Token.parenthesize ((tokenize body).flatMap (draft.replaceToken Token.parenthesize more))) (some value) :=
      (ih (by omega) resolved).group ⟨rfl, rfl⟩ ⟨rfl, rfl⟩
    exact ⟨body, replaced, resolved ▸ inner.loosen (places_le derived.level_le place placed)⟩

/-- Bare replacements have the same value when each is an expression of the level that its place takes. -/
theorem denotes_bare (enough : depth ≤ most) (fits : draft.Fits depth level (tokenize text)) :
    Denotes draft.enumerator? level ((tokenize text).flatMap (draft.replaceToken id most))
      (Constant.evaluate (draft.constant? depth) text) := by
  induction depth generalizing most level text with
  | zero =>
    obtain ⟨expr, derived, unnamed⟩ := fits
    rw [derived.evaluate_eq]
    exact denotes_unnamed derived unnamed _ most
  | succ less ih =>
    obtain ⟨more, rfl⟩ : ∃ more, most = more + 1 := ⟨most - 1, by omega⟩
    obtain ⟨expr, derived, names⟩ := fits
    rw [derived.evaluate_eq]
    refine denotes_replaced derived fun place placed => (names place placed).imp_right ?_
    rintro ⟨body, replaced, fits⟩
    exact ⟨body, replaced, ih (by omega) fits⟩

theorem stable_of_mem_parenthesize (tokens : List Token) (stable : ∀ token ∈ tokens, Token.Stable token) :
    ∀ token ∈ Token.parenthesize tokens, token.Stable := by
  have opening : Token.Stable ⟨.punct, "(", 0⟩ := ⟨by decide, fun _ => rfl⟩
  have closing : Token.Stable ⟨.punct, ")", 0⟩ := ⟨by decide, fun _ => rfl⟩
  simp only [Token.parenthesize, List.forall_mem_cons, List.forall_mem_append]
  exact ⟨opening, stable, closing, by simp⟩

theorem stable_of_mem_replaced
    (encloses : ∀ tokens, (∀ token ∈ tokens, Token.Stable token) → ∀ token ∈ enclose tokens, token.Stable)
    (text : List Char) : ∀ token ∈ (tokenize text).flatMap (draft.replaceToken enclose depth), token.Stable := by
  intro part listed
  obtain ⟨token, written, listed⟩ := List.mem_flatMap.mp listed
  exact stable_of_mem_replaceToken encloses (Token.stable_of_mem_tokenize written) part listed

/-- A constant expression that folds has the value of its text with every macro replaced in parentheses, where names
stand for enum constants alone. Where each replacement fits its place, it folds exactly as its text with bare
replacements is evaluated. -/
theorem fold_eq_evaluate_replaced (draft : Draft) (text : List Char) {depth : Nat} (enough : foldDepth ≤ depth) :
    (∀ value, draft.fold text = some value →
        Constant.evaluate draft.enumerator? (draft.replaceText Token.parenthesize depth text) = some value) ∧
      (draft.Fits foldDepth 0 (tokenize text) →
        Constant.evaluate draft.enumerator? (draft.replaceText id depth text) = draft.fold text) := by
  constructor
  · intro value folds
    exact (denotes_parenthesized enough folds).evaluate_spell (stable_of_mem_replaced stable_of_mem_parenthesize text)
  · intro fits
    exact (denotes_bare enough fits).evaluate_spell (stable_of_mem_replaced (fun _ stable => stable) text)

def tripledUnit (body : String) : Document :=
  Written.document [("", .define "A" body), ("", .define "M" "A * 3"), ("", .array "t" "M")]

structure TripledReading (body : String) (reading : SizeReading) : Prop where
  listed : reading ∈ Program.sizesOf ⟨[], []⟩ ⟨[]⟩ "unit.c" (tripledUnit body)
  text : reading.text = ['M']
  replacements : reading.draft.replacement? "M" = some "A * 3".toList ∧
    reading.draft.replacement? "A" = some body.toList

theorem exists_tripledReading {body : String} {enclosed bare : Option Int64}
    (read : (Program.sizesOf ⟨[], []⟩ ⟨[]⟩ "unit.c" (tripledUnit body)).map (fun reading =>
        ((reading.text, reading.size), (reading.draft.replacement? "M", reading.draft.replacement? "A"),
          Constant.evaluate reading.draft.enumerator? (reading.draft.replaceText id foldDepth reading.text))) =
      [((['M'], enclosed), (some "A * 3".toList, some body.toList), bare)]) :
    ∃ reading, TripledReading body reading ∧ reading.draft.fold reading.text = enclosed ∧
      Constant.evaluate reading.draft.enumerator? (reading.draft.replaceText id foldDepth reading.text) = bare := by
  obtain ⟨reading, single, facts⟩ := List.map_eq_singleton_iff.mp read
  simp only [Prod.mk.injEq] at facts
  obtain ⟨⟨text, size⟩, replacements, bare⟩ := facts
  exact ⟨reading, ⟨single ▸ List.mem_singleton_self reading, text, replacements⟩, size, bare⟩

theorem TripledReading.fits {reading : SizeReading} (read : TripledReading "(1 + 2)" reading) :
    reading.draft.Fits foldDepth 0 (tokenize reading.text) := by
  have digit : ∀ text start level, level ≤ 11 → Derives level [⟨.number, text, start⟩] (.number text) :=
    fun text start level inside => (Derives.number rfl).loosen (Nat.le_refl 11) inside
  have name : ∀ text start level, level ≤ 11 → text ≠ "sizeof" →
      Derives level [⟨.identifier, text, start⟩] (.name text) :=
    fun text start level inside operand => (Derives.name rfl operand).loosen (Nat.le_refl 11) inside
  have sum : Derives 0 [⟨.number, "1", 1⟩, ⟨.punct, "+", 3⟩, ⟨.number, "2", 5⟩]
      (.binary .add (.number "1") (.number "2")) :=
    (Derives.binary (digit "1" 1 9 (by decide)) rfl (by decide) (digit "2" 5 10 (by decide))).loosen
      (by decide) (by decide)
  have inner : Derives 10 (tokenize "(1 + 2)".toList) (.group (.binary .add (.number "1") (.number "2"))) :=
    have opening : Token.IsPunct ⟨.punct, "(", 0⟩ "(" := ⟨rfl, rfl⟩
    have closing : Token.IsPunct ⟨.punct, ")", 6⟩ ")" := ⟨rfl, rfl⟩
    (Derives.group opening sum closing).loosen (by decide) (by decide)
  have product : Derives 0 (tokenize "A * 3".toList) (.binary .multiply (.name "A") (.number "3")) :=
    (Derives.binary (name "A" 0 10 (by decide) (by decide)) rfl (by decide) (digit "3" 4 11 (by decide))).loosen
      (by decide) (by decide)
  rw [read.text]
  refine ⟨.name "M", name "M" 0 0 (by decide) (by decide), ?_⟩
  refine List.forall_mem_singleton.mpr (.inr ⟨_, read.replacements.1, _, product, ?_⟩)
  refine List.forall_mem_singleton.mpr (.inr ⟨_, read.replacements.2, _, inner, ?_⟩)
  simp [Expr.places]

set_option maxRecDepth 10000 in
theorem fold_eq_evaluate_tripled :
    ∃ reading, TripledReading "(1 + 2)" reading ∧ reading.draft.fold reading.text = some 9 ∧
    Constant.evaluate reading.draft.enumerator?
      (reading.draft.replaceText Token.parenthesize 20 reading.text) = some 9 ∧
    reading.draft.Fits foldDepth 0 (tokenize reading.text) ∧
    Constant.evaluate reading.draft.enumerator? (reading.draft.replaceText id 20 reading.text) = some 9 := by
  obtain ⟨reading, read, folds, -⟩ : ∃ reading, TripledReading "(1 + 2)" reading ∧
      reading.draft.fold reading.text = some 9 ∧
      Constant.evaluate reading.draft.enumerator? (reading.draft.replaceText id foldDepth reading.text) = some 9 :=
    exists_tripledReading (by decide +kernel)
  obtain ⟨enclosed, bare⟩ := fold_eq_evaluate_replaced reading.draft reading.text (show foldDepth ≤ 20 by decide)
  exact ⟨reading, read, folds, enclosed 9 folds, read.fits, (bare read.fits).trans folds⟩

set_option maxRecDepth 10000 in
/-- A bare sum is tripled as a whole by folding, and in its last part by replacement. -/
theorem fold_ne_evaluate_tripled : ∃ reading, TripledReading "1 + 2" reading ∧
    reading.draft.fold reading.text = some 9 ∧
      Constant.evaluate reading.draft.enumerator? (reading.draft.replaceText id foldDepth reading.text) = some 7 :=
  exists_tripledReading (by decide +kernel)

end Draft

end Excerpt
