import Excerpt.Proofs.Constant.Evaluation
import Excerpt.Proofs.Text.Tokens

namespace Excerpt.Constant

namespace Expr

def value (resolve : String → Option Int64) (expr : Expr) : Option Int64 :=
  ((expr.evaluate (.ofFunction resolve)).run.run ()).run.1

/-- The names of an expression, each with the loosest level that its place takes, when the whole stands at a level. -/
def places : Nat → Expr → List (Nat × String)
  | _, number _ => []
  | _, char _ => []
  | level, name word => [(level, word)]
  | _, group inner => inner.places 0
  | _, unary _ operand => operand.places 11
  | _, binary op left right => left.places op.precedence ++ right.places (op.precedence + 1)
  | _, conditional condition positive negative => condition.places 1 ++ positive.places 0 ++ negative.places 0

section Value

variable (resolve : String → Option Int64)

theorem run_bind {α β : Type} (action : Evaluation Unit α) (next : α → Evaluation Unit β) :
    ((action >>= next).run.run ()).run.1 = (action.run.run ()).run.1.bind fun first =>
      ((next first).run.run ()).run.1 := by
  rw [OptionT.run_bind, Option.elimM, StateT.run_bind, Id.run_bind]
  obtain ⟨result, after⟩ := (action.run.run ()).run
  cases result <;> rfl

theorem run_getM {α : Type} (result : Option α) : ((result.getM : Evaluation Unit α).run.run ()).run.1 = result := by
  cases result <;> rfl

theorem value_number (text : String) : (number text).value resolve = intLiteral? text.toList :=
  run_getM _

theorem value_char (text : String) : (char text).value resolve = charLiteral? text.toList :=
  run_getM _

theorem value_unary (op : UnaryOp) (operand : Expr) :
    (unary op operand).value resolve = (operand.value resolve).bind fun value => some (op.result value) :=
  run_bind _ _

theorem value_binary (op : BinaryOp) (left right : Expr) : (binary op left right).value resolve =
    (left.value resolve).bind fun first => (right.value resolve).bind fun second => op.result first second := by
  simp only [value, evaluate, run_bind, run_getM]

theorem value_conditional (condition positive negative : Expr) :
    (conditional condition positive negative).value resolve =
    (condition.value resolve).bind fun decision => (positive.value resolve).bind fun first =>
      (negative.value resolve).bind fun second => some (if decision ≠ 0 then first else second) := by
  simp only [value, evaluate, run_bind]
  rfl

end Value

end Expr

/-- The tokens are an expression of a level, and `answer` is its value. -/
def Denotes (resolve : String → Option Int64) (level : Nat) (tokens : List Token) (answer : Option Int64) : Prop :=
  ∃ expr, Derives level tokens expr ∧ expr.value resolve = answer

variable {resolve inner : String → Option Int64} {level : Nat} {tokens : List Token} {expr : Expr} {value : Int64}
  {answer : Option Int64}

theorem exists_derives_of_evaluate {text : List Char} (evaluates : evaluate resolve text = some value) :
    ∃ expr, Derives 0 (tokenize text) expr := by
  have yields : Yields (evaluateWith (.ofFunction resolve) text) () value () := Prod.ext evaluates rfl
  exact derives_of_yields yields

theorem Derives.level_le (derived : Derives level tokens expr) : level ≤ 11 := by
  induction derived with
  | binary _ _ listed =>
    rw [← (mem_binaryLevel.mp listed).2]
    exact (BinaryOp.precedence_bounds _).2.trans (by decide)
  | conditional => decide
  | tighter => omega
  | _ => exact Nat.le_refl 11

theorem Denotes.loosen {lower : Nat} (denotes : Denotes resolve level tokens answer) (below : lower ≤ level) :
    Denotes resolve lower tokens answer := by
  obtain ⟨expr, derived, valued⟩ := denotes
  exact ⟨expr, derived.loosen derived.level_le below, valued⟩

theorem Derives.evaluate_eq {text : List Char} (derived : Derives level (tokenize text) expr) :
    evaluate resolve text = expr.value resolve := by
  have whole : evaluateWith (.ofFunction resolve) text = expr.evaluate (.ofFunction resolve) :=
    evaluateWith_of_derives (derived.loosen derived.level_le (Nat.zero_le level))
  rw [evaluate, whole, Expr.value]

theorem places_le (inside : level ≤ 11) : ∀ place ∈ expr.places level, place.1 ≤ 11 := by
  induction expr generalizing level with
  | number | char => simp [Expr.places]
  | name => simpa [Expr.places] using inside
  | group _ ih => exact ih (by decide)
  | unary _ _ ih => exact ih (by decide)
  | binary op left right first second =>
    have bound := op.precedence_bounds.2
    exact List.forall_mem_append.mpr ⟨first (by omega), second (by omega)⟩
  | conditional condition positive negative test first second =>
    exact List.forall_mem_append.mpr
      ⟨List.forall_mem_append.mpr ⟨test (by decide), first (by decide)⟩, second (by decide)⟩

/-- Evaluation is strict: an expression has a value only if each of its names has one, in the branch not taken too. -/
theorem resolve_of_value (valued : expr.value resolve = some value) :
    ∀ place ∈ expr.places level, ∃ value, resolve place.2 = some value := by
  induction expr generalizing level value with
  | number | char => simp [Expr.places]
  | name word =>
    intro place placed
    rw [List.mem_singleton.mp placed]
    exact ⟨value, valued⟩
  | group _ ih => exact ih valued
  | unary _ _ ih =>
    rw [Expr.value_unary] at valued
    obtain ⟨operand, valued, -⟩ := Option.bind_eq_some_iff.mp valued
    exact ih valued
  | binary op left right first second =>
    rw [Expr.value_binary] at valued
    obtain ⟨one, leftValued, valued⟩ := Option.bind_eq_some_iff.mp valued
    obtain ⟨two, rightValued, -⟩ := Option.bind_eq_some_iff.mp valued
    exact List.forall_mem_append.mpr ⟨first leftValued, second rightValued⟩
  | conditional condition positive negative test first second =>
    rw [Expr.value_conditional] at valued
    obtain ⟨decision, testValued, valued⟩ := Option.bind_eq_some_iff.mp valued
    obtain ⟨one, firstValued, valued⟩ := Option.bind_eq_some_iff.mp valued
    obtain ⟨two, secondValued, -⟩ := Option.bind_eq_some_iff.mp valued
    exact List.forall_mem_append.mpr
      ⟨List.forall_mem_append.mpr ⟨test testValued, first firstValued⟩, second secondValued⟩

/-- A derivation does not depend on where the tokens stand. -/
theorem Derives.of_view {others : List Token} (derived : Derives level tokens expr)
    (same : others.map Token.view = tokens.map Token.view) : Derives level others expr := by
  have punct : ∀ {other token : Token} {text : String}, other.view = token.view → token.IsPunct text →
      other.IsPunct text := by
    intro other token text same isPunct
    obtain ⟨kind, written⟩ := Prod.mk.inj same
    exact ⟨kind.trans isPunct.1, written.trans isPunct.2⟩
  induction derived generalizing others with
  | number kind =>
    obtain ⟨other, rfl, viewed⟩ := List.map_eq_singleton_iff.mp same
    obtain ⟨sameKind, written⟩ := Prod.mk.inj viewed
    exact written ▸ .number (sameKind.trans kind)
  | char kind =>
    obtain ⟨other, rfl, viewed⟩ := List.map_eq_singleton_iff.mp same
    obtain ⟨sameKind, written⟩ := Prod.mk.inj viewed
    exact written ▸ .char (sameKind.trans kind)
  | name kind operand =>
    obtain ⟨other, rfl, viewed⟩ := List.map_eq_singleton_iff.mp same
    obtain ⟨sameKind, written⟩ := Prod.mk.inj viewed
    exact written ▸ .name (sameKind.trans kind) (written ▸ operand)
  | group opens derived closes ih =>
    obtain ⟨opening, rest, rfl, first, same⟩ := List.map_eq_cons_iff.mp same
    rw [List.map_append, List.map_singleton] at same
    obtain ⟨tokens, closed, rfl, inside, last⟩ := List.map_eq_append_iff.mp same
    obtain ⟨closing, rfl, viewed⟩ := List.map_eq_singleton_iff.mp last
    exact .group (punct first opens) (ih inside) (punct viewed closes)
  | unary kind listed derived ih =>
    obtain ⟨sign, rest, rfl, first, same⟩ := List.map_eq_cons_iff.mp same
    obtain ⟨sameKind, written⟩ := Prod.mk.inj first
    exact .unary (sameKind.trans kind) (written ▸ listed) (ih same)
  | binary first kind listed second left right =>
    rw [List.map_append, List.map_cons] at same
    obtain ⟨front, rest, rfl, sameFront, same⟩ := List.map_eq_append_iff.mp same
    obtain ⟨sign, back, rfl, middle, sameBack⟩ := List.map_eq_cons_iff.mp same
    obtain ⟨sameKind, written⟩ := Prod.mk.inj middle
    exact .binary (left sameFront) (sameKind.trans kind) (written ▸ listed) (right sameBack)
  | conditional decides marks first divides second condition positive negative =>
    rw [List.map_append, List.map_cons, List.map_append, List.map_cons] at same
    obtain ⟨test, rest, rfl, sameTest, same⟩ := List.map_eq_append_iff.mp same
    obtain ⟨mark, rest, rfl, sameMark, same⟩ := List.map_eq_cons_iff.mp same
    obtain ⟨front, rest, rfl, sameFront, same⟩ := List.map_eq_append_iff.mp same
    obtain ⟨colon, back, rfl, sameColon, sameBack⟩ := List.map_eq_cons_iff.mp same
    exact .conditional (condition sameTest) (punct sameMark marks) (positive sameFront) (punct sameColon divides)
      (negative sameBack)
  | tighter inside derived ih => exact .tighter inside (ih same)

theorem Derives.eq_of_name {word : String} (derived : Derives level tokens (.name word)) :
    ∃ token, tokens = [token] ∧ token.text = word ∧ token.kind = .identifier ∧ token.text ≠ "sizeof" := by
  generalize named : Expr.name word = expr at derived
  induction derived with
  | name kind operand =>
    cases named
    exact ⟨_, rfl, rfl, kind, operand⟩
  | tighter _ _ ih => exact ih named
  | _ => cases named

theorem places_of_ne_name (other : ∀ word, expr ≠ .name word) (level lower : Nat) :
    expr.places level = expr.places lower := by
  cases expr with
  | name word => exact absurd rfl (other word)
  | _ => rfl

/-- Replacing the names of an expression by tokens that denote the same, each at the level of its place, keeps the
value. -/
theorem Derives.denotes_flatMap {swap : Token → List Token}
    (kept : ∀ token, token.kind ≠ .identifier → swap token = [token]) (derived : Derives level tokens expr)
    (names : ∀ place ∈ expr.places level, ∀ token, token.kind = .identifier → token.text ≠ "sizeof" →
      token.text = place.2 → Denotes inner place.1 (swap token) (resolve token.text)) :
    Denotes inner level (tokens.flatMap swap) (expr.value resolve) := by
  have punct : ∀ {token : Token} (rest : List Token), token.kind = .punct →
      (token :: rest).flatMap swap = token :: rest.flatMap swap := by
    intro token rest kind
    rw [List.flatMap_cons, kept token (by simp [kind]), List.singleton_append]
  induction derived with
  | number kind =>
    rw [List.flatMap_singleton, kept _ (by simp [kind]), Expr.value_number]
    exact ⟨_, .number kind, Expr.value_number ..⟩
  | char kind =>
    rw [List.flatMap_singleton, kept _ (by simp [kind]), Expr.value_char]
    exact ⟨_, .char kind, Expr.value_char ..⟩
  | name kind operand =>
    rw [List.flatMap_singleton]
    exact names _ (List.mem_singleton_self _) _ kind operand rfl
  | group opens derived closes ih =>
    obtain ⟨whole, inside, valued⟩ := ih names
    rw [punct _ opens.1, List.flatMap_append, punct _ closes.1]
    exact ⟨.group whole, .group opens inside closes, valued⟩
  | unary kind listed derived ih =>
    obtain ⟨whole, inside, valued⟩ := ih names
    rw [punct _ kind, Expr.value_unary, ← valued, ← Expr.value_unary]
    exact ⟨.unary _ whole, .unary kind listed inside, rfl⟩
  | binary first kind listed second left right =>
    obtain ⟨-, rfl⟩ := mem_binaryLevel.mp listed
    obtain ⟨leftWhole, leftDerived, leftValued⟩ := left fun place placed =>
      names place (List.mem_append_left _ placed)
    obtain ⟨rightWhole, rightDerived, rightValued⟩ := right fun place placed =>
      names place (List.mem_append_right _ placed)
    rw [List.flatMap_append, punct _ kind, Expr.value_binary, ← leftValued, ← rightValued, ← Expr.value_binary]
    exact ⟨.binary _ leftWhole rightWhole, .binary leftDerived kind listed rightDerived, rfl⟩
  | conditional decides marks first divides second condition positive negative =>
    obtain ⟨test, testDerived, testValued⟩ := condition fun place placed =>
      names place (List.mem_append_left _ (List.mem_append_left _ placed))
    obtain ⟨front, frontDerived, frontValued⟩ := positive fun place placed =>
      names place (List.mem_append_left _ (List.mem_append_right _ placed))
    obtain ⟨back, backDerived, backValued⟩ := negative fun place placed =>
      names place (List.mem_append_right _ placed)
    rw [List.flatMap_append, punct _ marks.1, List.flatMap_append, punct _ divides.1, Expr.value_conditional,
      ← testValued, ← frontValued, ← backValued, ← Expr.value_conditional]
    exact ⟨.conditional test front back, .conditional testDerived marks frontDerived divides backDerived, rfl⟩
  | @tighter level tokens expr inside derived ih =>
    by_cases isName : ∃ word, expr = .name word
    · obtain ⟨word, rfl⟩ := isName
      obtain ⟨token, rfl, rfl, kind, operand⟩ := derived.eq_of_name
      rw [List.flatMap_singleton]
      exact names _ (List.mem_singleton_self _) token kind operand rfl
    · rw [places_of_ne_name (not_exists.mp isName) level (level + 1)] at names
      exact (ih names).loosen (Nat.le_succ level)

theorem Denotes.group {opening closing : Token} (denotes : Denotes resolve 0 tokens answer)
    (opens : opening.IsPunct "(")
    (closes : closing.IsPunct ")") : Denotes resolve 11 (opening :: (tokens ++ [closing])) answer := by
  obtain ⟨expr, derived, valued⟩ := denotes
  exact ⟨.group expr, .group opens derived closes, valued⟩

theorem Denotes.evaluate_spell (denotes : Denotes resolve level tokens answer)
    (stable : ∀ token ∈ tokens, token.Stable) : evaluate resolve (Token.spell tokens) = answer := by
  obtain ⟨expr, derived, valued⟩ := denotes
  have spelled : Derives level (tokenize (Token.spell tokens)) expr := derived.of_view (Token.scanFrom_spell stable 0)
  rw [spelled.evaluate_eq, valued]

end Excerpt.Constant
