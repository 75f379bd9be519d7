import Excerpt.Proofs.Constant.Grammar

/-!
Reading by precedence against the grammar. Whatever derives from the grammar is read as its derivation is evaluated, and
what is read to a value derives from the grammar.
-/

namespace Excerpt.Constant

variable {σ : Type}

/-- Evaluation from the state `before` ends with a value in the state `after`. -/
def Yields {α : Type} (action : Evaluation σ α) (before : σ) (value : α) (after : σ) : Prop :=
  (action.run.run before).run = (some value, after)

section Yields

variable {α β : Type} {before after : σ} {value : α}

theorem yields_pure {result : α} : Yields (pure result) before value after ↔ result = value ∧ before = after := by
  change (some result, before) = (some value, after) ↔ _
  simp

theorem not_yields_failure : ¬Yields (failure : Evaluation σ α) before value after := by
  change ¬(none, before) = (some value, after)
  simp

theorem yields_getM {result : Option α} :
    Yields result.getM before value after ↔ result = some value ∧ before = after := by
  cases result with
  | none => simpa using not_yields_failure
  | some result => simpa using yields_pure

theorem yields_bind {action : Evaluation σ β} {next : β → Evaluation σ α} :
    Yields (action >>= next) before value after ↔
      ∃ first middle, Yields action before first middle ∧ Yields (next first) middle value after := by
  unfold Yields
  rw [OptionT.run_bind, Option.elimM, StateT.run_bind]
  rw [Id.run_bind]
  obtain ⟨result, middle⟩ := (action.run.run before).run
  cases result with
  | none => simp
  | some first => simp [and_assoc]

end Yields

section Heads

variable {least most : Nat} {text : String} {tokens rest : List Token}

theorem eat_eq_some : eat? text tokens = some rest ↔ ∃ token, tokens = token :: rest ∧ token.IsPunct text := by
  cases tokens with
  | nil => simp [eat?]
  | cons token others =>
    simp only [eat?, Token.IsPunct]
    grind

theorem binaryOp_eq_some {op : BinaryOp} :
    binaryOp? least tokens = some (op, rest) ↔
      ∃ token, tokens = token :: rest ∧ token.kind = .punct ∧ (token.text, op) ∈ binaryLevel op.precedence ∧
        least ≤ op.precedence := by
  cases tokens with
  | nil => simp [binaryOp?]
  | cons token others =>
    simp only [binaryOp?, mem_binaryLevel]
    grind

theorem binaryOp_eq_none_of_le (ends : binaryOp? least tokens = none) (le : least ≤ most) :
    binaryOp? most tokens = none := by
  by_contra found
  obtain ⟨⟨op, rest⟩, found⟩ := Option.ne_none_iff_exists'.mp found
  obtain ⟨token, same, kind, listed, inside⟩ := binaryOp_eq_some.mp found
  rw [binaryOp_eq_some.mpr ⟨token, same, kind, listed, le.trans inside⟩] at ends
  cases ends

theorem binaryOp_punct {token : Token} (punct : token.IsPunct text) (plain : BinaryOp.ofText? text = none) :
    binaryOp? least (token :: rest) = none := by
  simp [binaryOp?, punct.1, punct.2, plain]

end Heads

/-- The tokens behind a whole expression do not continue it. -/
def Stops (rest : List Token) : Prop :=
  binaryOp? 1 rest = none ∧ eat? "?" rest = none

theorem stops_of_punct {token : Token} {text : String} {rest : List Token} (punct : token.IsPunct text)
    (plain : BinaryOp.ofText? text = none) (noMark : text ≠ "?") : Stops (token :: rest) :=
  ⟨binaryOp_punct punct plain, by simp [eat?, punct.2, noMark]⟩

section Reading

variable (resolve : Resolver σ) (tokens : List Token) (expr : Expr)

/-- Reading an operand from the tokens is evaluating the expression. -/
def ReadAsOperand : Prop :=
  ∀ fuel rest, 4 * tokens.length ≤ fuel + 3 →
    unary resolve fuel (tokens ++ rest) = do return (← expr.evaluate resolve, rest)

/-- Reading a side of a binary operator from the tokens is evaluating the expression and going on with the operators
behind it. -/
def ReadAsSide (level : Nat) : Prop :=
  ∀ fuel least rest, 4 * tokens.length ≤ fuel + 2 → least ≤ level → binaryOp? (level + 1) rest = none →
    ∃ left, fuel + 1 ≤ left + 2 * tokens.length ∧
      binary resolve fuel least (tokens ++ rest) = do operators resolve left least (← expr.evaluate resolve) rest

def ReadAsWhole : Prop :=
  ∀ fuel rest, 4 * tokens.length ≤ fuel + 1 → Stops rest →
    conditional resolve fuel (tokens ++ rest) = do return (← expr.evaluate resolve, rest)

end Reading

section Complete

variable {resolve : Resolver σ} {tokens rest : List Token} {expr : Expr} {level : Nat}

theorem operators_of_none {least fuel : Nat} (ends : binaryOp? least rest = none) (positive : 0 < fuel)
    (value : Int64) : operators resolve fuel least value rest = pure (value, rest) := by
  obtain ⟨fuel, rfl⟩ := Nat.exists_eq_add_of_lt positive
  rw [Nat.zero_add, operators, ends]

/-- An operand is a side of every operator, with the operators behind it still to be read. -/
theorem ReadAsOperand.side (reads : ReadAsOperand resolve tokens expr) (some : 0 < tokens.length) :
    ReadAsSide resolve tokens expr 11 := by
  intro fuel least rest enough below ends
  obtain ⟨fuel, rfl⟩ : ∃ next, fuel = next + 1 := ⟨fuel - 1, by omega⟩
  refine ⟨fuel, by omega, ?_⟩
  rw [binary, reads fuel rest (by omega)]
  simp

theorem ReadAsSide.whole (reads : ReadAsSide resolve tokens expr level) (some : 0 < tokens.length)
    (inside : 1 ≤ level) : ReadAsWhole resolve tokens expr := by
  intro fuel rest enough stops
  obtain ⟨fuel, rfl⟩ : ∃ next, fuel = next + 1 := ⟨fuel - 1, by omega⟩
  obtain ⟨left, far, side⟩ := reads fuel 1 rest (by omega) inside (binaryOp_eq_none_of_le stops.1 (by omega))
  rw [conditional, side]
  simp [operators_of_none stops.1 (show 0 < left by omega), stops.2]

theorem Derives.length_pos (derived : Derives level tokens expr) : 0 < tokens.length := by
  induction derived with
  | tighter _ _ ih => exact ih
  | _ => simp only [List.length_append, List.length_cons, List.length_nil]; omega

/-- Reading follows every derivation. The fuel covers the calls that the tokens can nest. -/
theorem reads_of_derives (derived : Derives level tokens expr) :
    (level = 11 → ReadAsOperand resolve tokens expr) ∧ (1 ≤ level → ReadAsSide resolve tokens expr level) ∧
      ReadAsWhole resolve tokens expr := by
  have ofOperand : ∀ {tokens expr}, Derives 11 tokens expr → ReadAsOperand resolve tokens expr →
      (11 = 11 → ReadAsOperand resolve tokens expr) ∧ (1 ≤ 11 → ReadAsSide resolve tokens expr 11) ∧
        ReadAsWhole resolve tokens expr := by
    intro tokens expr derived reads
    have side := reads.side derived.length_pos
    exact ⟨fun _ => reads, fun _ => side, side.whole derived.length_pos (by omega)⟩
  induction derived with
  | @number token kind =>
    refine ofOperand (.number kind) fun fuel rest enough => ?_
    obtain ⟨fuel, rfl⟩ : ∃ next, fuel = next + 1 := ⟨fuel - 1, by simp at enough; omega⟩
    simp [unary, kind, Expr.evaluate]
  | @char token kind =>
    refine ofOperand (.char kind) fun fuel rest enough => ?_
    obtain ⟨fuel, rfl⟩ : ∃ next, fuel = next + 1 := ⟨fuel - 1, by simp at enough; omega⟩
    simp [unary, kind, Expr.evaluate]
  | @name token kind operand =>
    refine ofOperand (.name kind operand) fun fuel rest enough => ?_
    obtain ⟨fuel, rfl⟩ : ∃ next, fuel = next + 1 := ⟨fuel - 1, by simp at enough; omega⟩
    simp [unary, kind, operand, Expr.evaluate]
  | @group opening closing tokens inner opens derived closes ih =>
    refine ofOperand (.group opens derived closes) fun fuel rest enough => ?_
    simp only [List.length_cons, List.length_append, List.length_nil] at enough
    obtain ⟨fuel, rfl⟩ : ∃ next, fuel = next + 1 := ⟨fuel - 1, by omega⟩
    have stops : Stops (closing :: rest) := stops_of_punct closes rfl (by decide)
    have whole := ih.2.2 fuel (closing :: rest) (by omega) stops
    simp [unary, opens.1, opens.2, whole, eat?, closes.1, closes.2, Expr.evaluate]
  | @unary token op tokens operand kind listed derived ih =>
    refine ofOperand (.unary kind listed derived) fun fuel rest enough => ?_
    simp only [List.length_cons] at enough
    obtain ⟨fuel, rfl⟩ : ∃ next, fuel = next + 1 := ⟨fuel - 1, by omega⟩
    have reads := ih.1 rfl fuel rest (by omega)
    have plain : token.text ≠ "(" := by
      intro same
      rw [same] at listed
      revert listed
      cases op <;> decide
    simp [unary, kind, plain, mem_signs.mp listed, reads, UnaryOp.apply_eq_result, Expr.evaluate]
  | @binary level token op front back left right first kind listed second leftIH rightIH =>
    obtain ⟨spelled, rfl⟩ := mem_binaryLevel.mp listed
    have bounds := op.precedence_bounds
    have side : ReadAsSide resolve (front ++ token :: back) (.binary op left right) op.precedence := by
      intro fuel least rest enough below ends
      simp only [List.length_append, List.length_cons] at enough ⊢
      have operator : ∀ least ≤ op.precedence, binaryOp? least (token :: (back ++ rest)) = some (op, back ++ rest) :=
        fun least below => binaryOp_eq_some.mpr ⟨token, rfl, kind, listed, below⟩
      have loose : binaryOp? (op.precedence + 1) (token :: (back ++ rest)) = none := by
        simp [binaryOp?, kind, spelled]
      obtain ⟨left, far, first⟩ := leftIH.2.1 bounds.1 fuel least (token :: (back ++ rest)) (by omega) below loose
      obtain ⟨left, rfl⟩ : ∃ next, left = next + 1 := ⟨left - 1, by omega⟩
      obtain ⟨last, farther, second⟩ := rightIH.2.1 (by omega) left (op.precedence + 1) rest (by omega) (Nat.le_refl _)
        (binaryOp_eq_none_of_le ends (by omega))
      refine ⟨left, by omega, ?_⟩
      rw [List.append_assoc, List.cons_append, first]
      simp [operators, operator least below, second, operators_of_none ends (show 0 < last by omega),
        BinaryOp.apply_eq_result, Expr.evaluate]
    exact ⟨fun same => by omega, fun _ => side,
      side.whole (Derives.binary first kind listed second).length_pos bounds.1⟩
  | @conditional mark colon test front back condition positive negative decides marks first divides second
      testIH frontIH backIH =>
      refine ⟨fun same => by omega, fun least => by omega, fun fuel rest enough stops => ?_⟩
      simp only [List.length_append, List.length_cons] at enough
      obtain ⟨fuel, rfl⟩ : ∃ next, fuel = next + 1 := ⟨fuel - 1, by omega⟩
      have operator : ∀ least, binaryOp? least (mark :: (front ++ colon :: (back ++ rest))) = none :=
        fun least => binaryOp_punct marks rfl
      obtain ⟨left, far, test⟩ :=
        testIH.2.1 (Nat.le_refl 1) fuel 1 (mark :: (front ++ colon :: (back ++ rest))) (by omega)
        (Nat.le_refl 1) (operator 2)
      have positive := frontIH.2.2 fuel (colon :: (back ++ rest)) (by omega) (stops_of_punct divides rfl (by decide))
      have negative := backIH.2.2 fuel rest (by omega) stops
      have far : 0 < left := by omega
      simp [conditional, test, operators_of_none (operator 1) far, positive, negative, eat?, marks.1, marks.2,
        divides.1, divides.2, Expr.evaluate]
  | tighter inside derived ih =>
    refine ⟨fun same => by omega, fun least => ?_, ih.2.2⟩
    intro fuel lower rest enough below ends
    exact ih.2.1 (by omega) fuel lower rest enough (by omega) (binaryOp_eq_none_of_le ends (by omega))

end Complete

section Sound

variable {resolve : Resolver σ} {before after : σ} {value : Int64} {rest : List Token}

mutual

theorem conditional_derives :
    ∀ (fuel : Nat) (tokens : List Token) {before after : σ} {value : Int64} {rest : List Token},
    Yields (conditional resolve fuel tokens) before (value, rest) after →
    ∃ used expr, tokens = used ++ rest ∧ Derives 0 used expr
  | 0, _, _, _, _, _, yields => by
    rw [conditional] at yields
    exact absurd yields not_yields_failure
  | fuel + 1, tokens, before, after, value, rest, yields => by
    rw [conditional, yields_bind] at yields
    obtain ⟨⟨condition, behind⟩, middle, test, yields⟩ := yields
    obtain ⟨used, expr, rfl, derived, -⟩ := binary_derives fuel 1 tokens (Nat.le_refl 1) (by omega) test
    dsimp only at yields
    split at yields
    · obtain ⟨same, -⟩ := yields_pure.mp yields
      cases same
      exact ⟨used, expr, rfl, .tighter (by omega) derived⟩
    · next found =>
      obtain ⟨mark, rfl, marks⟩ := eat_eq_some.mp found
      simp only [yields_bind, yields_getM, yields_pure] at yields
      obtain ⟨⟨positive, colons⟩, middle, first, others, _, ⟨found, rfl⟩, ⟨negative, last⟩, _, second, same, -⟩ :=
        yields
      obtain ⟨colon, rfl, divides⟩ := eat_eq_some.mp found
      cases same
      obtain ⟨front, positiveExpr, rfl, positiveDerived⟩ := conditional_derives fuel _ first
      obtain ⟨back, negativeExpr, rfl, negativeDerived⟩ := conditional_derives fuel _ second
      exact ⟨used ++ mark :: (front ++ colon :: back), .conditional expr positiveExpr negativeExpr, by simp,
        .conditional derived marks positiveDerived divides negativeDerived⟩

theorem binary_derives :
    ∀ (fuel least : Nat) (tokens : List Token) {before after : σ} {value : Int64} {rest : List Token},
    1 ≤ least → least ≤ 11 → Yields (binary resolve fuel least tokens) before (value, rest) after →
    ∃ used expr, tokens = used ++ rest ∧ Derives least used expr ∧ binaryOp? least rest = none
  | 0, _, _, _, _, _, _, _, _, yields => by
    rw [binary] at yields
    exact absurd yields not_yields_failure
  | fuel + 1, least, tokens, before, after, value, rest, positive, inside, yields => by
    rw [binary, yields_bind] at yields
    obtain ⟨⟨left, behind⟩, middle, operand, yields⟩ := yields
    obtain ⟨front, expr, rfl, derived⟩ := unary_derives fuel tokens operand
    have ends : binaryOp? 12 behind = none := by
      by_contra found
      obtain ⟨⟨op, _⟩, found⟩ := Option.ne_none_iff_exists'.mp found
      obtain ⟨_, _, _, _, above⟩ := binaryOp_eq_some.mp found
      have bounds := op.precedence_bounds
      omega
    obtain ⟨used, whole, rfl, wholeDerived, stops⟩ :=
      operators_derives fuel least left behind inside (Nat.le_refl 11) derived ends yields
    exact ⟨front ++ used, whole, by simp, wholeDerived, stops⟩

/-- An operator that follows never binds tighter than those already applied, so what stands on its left is an expression
of the operator's own level. -/
theorem operators_derives : ∀ (fuel least : Nat) (left : Int64) (tokens : List Token) {before after : σ} {value : Int64}
    {rest : List Token} {level : Nat} {front : List Token} {expr : Expr}, least ≤ level → level ≤ 11 →
    Derives level front expr → binaryOp? (level + 1) tokens = none →
    Yields (operators resolve fuel least left tokens) before (value, rest) after →
    ∃ used whole, tokens = used ++ rest ∧ Derives least (front ++ used) whole ∧ binaryOp? least rest = none
  | 0, _, _, _, _, _, _, _, _, _, _, _, _, _, _, yields => by
    rw [operators] at yields
    exact absurd yields not_yields_failure
  | fuel + 1, least, left, tokens, before, after, value, rest, level, front, expr, below, inside, derived, ends,
    yields => by
    rw [operators] at yields
    split at yields
    · next stops =>
      obtain ⟨same, -⟩ := yields_pure.mp yields
      cases same
      exact ⟨[], expr, rfl, by simpa using derived.loosen inside below, stops⟩
    · next op behind found =>
      obtain ⟨token, rfl, kind, listed, least⟩ := binaryOp_eq_some.mp found
      have bounds := op.precedence_bounds
      -- The operator binds no tighter than what stands on its left.
      have loose : op.precedence ≤ level := by
        by_contra tighter
        rw [binaryOp_eq_some.mpr ⟨token, rfl, kind, listed, Nat.lt_of_not_le tighter⟩] at ends
        cases ends
      simp only [yields_bind, yields_getM] at yields
      obtain ⟨⟨right, others⟩, middle, side, result, _, ⟨-, rfl⟩, yields⟩ := yields
      obtain ⟨back, rightExpr, rfl, rightDerived, ends⟩ :=
        binary_derives fuel (op.precedence + 1) behind (by omega) (by omega) side
      obtain ⟨used, whole, rfl, wholeDerived, stops⟩ := operators_derives fuel _ result others least (by omega)
        (.binary (derived.loosen inside loose) kind listed rightDerived) ends yields
      exact ⟨token :: back ++ used, whole, by simp, by simpa using wholeDerived, stops⟩

theorem unary_derives : ∀ (fuel : Nat) (tokens : List Token) {before after : σ} {value : Int64} {rest : List Token},
    Yields (unary resolve fuel tokens) before (value, rest) after →
    ∃ used expr, tokens = used ++ rest ∧ Derives 11 used expr
  | 0, _, _, _, _, _, yields => by
    rw [unary] at yields
    exact absurd yields not_yields_failure
  | fuel + 1, [], _, _, _, _, yields => by
    rw [unary] at yields
    exact absurd yields not_yields_failure
  | fuel + 1, token :: tokens, before, after, value, rest, yields => by
    rw [unary] at yields
    split at yields
    · next kind =>
      simp only [yields_bind, yields_pure, Prod.mk.injEq] at yields
      obtain ⟨_, _, -, ⟨-, rfl⟩, -⟩ := yields
      exact ⟨[token], .number token.text, rfl, .number kind⟩
    · next kind =>
      simp only [yields_bind, yields_pure, Prod.mk.injEq] at yields
      obtain ⟨_, _, -, ⟨-, rfl⟩, -⟩ := yields
      exact ⟨[token], .char token.text, rfl, .char kind⟩
    · exact absurd yields not_yields_failure
    · next kind =>
      split at yields
      · exact absurd yields not_yields_failure
      · next operand =>
        simp only [yields_bind, yields_pure, Prod.mk.injEq] at yields
        obtain ⟨_, _, -, ⟨-, rfl⟩, -⟩ := yields
        exact ⟨[token], .name token.text, rfl, .name kind operand⟩
    · next kind =>
      split at yields
      · next opens =>
        simp only [yields_bind, yields_getM, yields_pure] at yields
        obtain ⟨⟨inner, behind⟩, middle, whole, others, _, ⟨found, -⟩, same, -⟩ := yields
        cases same
        obtain ⟨closing, rfl, closes⟩ := eat_eq_some.mp found
        obtain ⟨used, expr, rfl, derived⟩ := conditional_derives fuel _ whole
        exact ⟨token :: (used ++ [closing]), .group expr, by simp, .group ⟨kind, opens⟩ derived closes⟩
      · simp only [yields_bind, yields_getM, yields_pure] at yields
        obtain ⟨op, _, ⟨found, rfl⟩, ⟨operand, behind⟩, middle, inner, same, -⟩ := yields
        cases same
        obtain ⟨used, expr, rfl, derived⟩ := unary_derives fuel _ inner
        exact ⟨token :: used, .unary op expr, rfl, .unary kind (mem_signs.mpr found) derived⟩

end

end Sound

section Text

variable {resolve : Resolver σ} {text : List Char} {before after : σ} {value : Int64} {expr : Expr}

/-- A text is evaluated as any derivation of its tokens is, with the same questions and the same end. -/
theorem evaluateWith_of_derives (derived : Derives 0 (tokenize text) expr) :
    evaluateWith resolve text = expr.evaluate resolve := by
  have reads : ReadAsWhole resolve (tokenize text) expr := (reads_of_derives derived).2.2
  have whole := reads (4 * ((tokenize text).length + 1)) [] (by omega) ⟨rfl, rfl⟩
  rw [List.append_nil] at whole
  simp [evaluateWith, whole]

theorem derives_of_yields (yields : Yields (evaluateWith resolve text) before value after) :
    ∃ expr, Derives 0 (tokenize text) expr := by
  simp only [evaluateWith, yields_bind] at yields
  obtain ⟨⟨value, rest⟩, middle, whole, yields⟩ := yields
  obtain ⟨used, expr, split, derived⟩ := conditional_derives _ _ whole
  cases rest with
  | nil => exact ⟨expr, by rwa [split, List.append_nil]⟩
  | cons token rest => exact absurd yields not_yields_failure

theorem evaluateWith_yields_iff : Yields (evaluateWith resolve text) before value after ↔
    ∃ expr, Derives 0 (tokenize text) expr ∧ Yields (expr.evaluate resolve) before value after := by
  constructor
  · intro yields
    obtain ⟨expr, derived⟩ := derives_of_yields yields
    rw [evaluateWith_of_derives derived] at yields
    exact ⟨expr, derived, yields⟩
  · rintro ⟨expr, derived, yields⟩
    rwa [evaluateWith_of_derives derived]

/-- Evaluation that ends with a value has asked for each name of the expression, from left to right. -/
theorem Expr.yields_recording (yields : Yields (expr.evaluate resolve) before value after) (asked : List String) :
    Yields (expr.evaluate resolve.recording) (before, asked) value (after, asked ++ expr.names) := by
  induction expr generalizing before value after asked with
  | number text | char text =>
    obtain ⟨found, rfl⟩ := yields_getM.mp yields
    exact yields_getM.mpr ⟨found, by rw [Expr.names, List.append_nil]⟩
  | name word =>
    have answered : (resolve word).run before = (some value, after) := yields
    change ((resolve.recording word).run (before, asked)).run = (some value, after, asked ++ [word])
    simp [Resolver.recording, answered]
  | group inner ih => exact ih yields asked
  | unary op operand ih =>
    simp only [Expr.evaluate, yields_bind, yields_pure] at yields ⊢
    obtain ⟨first, middle, yields, same, rfl⟩ := yields
    exact ⟨first, _, ih yields asked, same, rfl⟩
  | binary op left right leftIH rightIH =>
    simp only [Expr.evaluate, yields_bind, yields_getM] at yields ⊢
    obtain ⟨first, middle, left, second, _, right, result, rfl⟩ := yields
    exact ⟨first, _, leftIH left asked, second, _, rightIH right _, result, by rw [Expr.names, List.append_assoc]⟩
  | conditional condition positive negative testIH positiveIH negativeIH =>
    simp only [Expr.evaluate, yields_bind, yields_pure] at yields ⊢
    obtain ⟨decision, _, test, first, _, positive, second, _, negative, result, rfl⟩ := yields
    exact ⟨decision, _, testIH test asked, first, _, positiveIH positive _, second, _, negativeIH negative _, result,
      by simp [Expr.names]⟩

/-- Evaluation implements the grammar: it does what any derivation of the tokens does, it gives a value exactly when
there is a derivation and all its parts have values, and it has then asked for every name of the text in order. -/
theorem evaluateWith_exact (resolve : Resolver σ) (text : List Char) :
    (∀ expr, Derives 0 (tokenize text) expr → evaluateWith resolve text = expr.evaluate resolve) ∧
      ∀ before value after,
        (Yields (evaluateWith resolve text) before value after ↔
          ∃ expr, Derives 0 (tokenize text) expr ∧ Yields (expr.evaluate resolve) before value after) ∧
        (Yields (evaluateWith resolve text) before value after →
          Yields (evaluateWith resolve.recording text) (before, []) value (after, operandNames (tokenize text))) := by
  refine ⟨fun expr => evaluateWith_of_derives, fun before value after => ⟨evaluateWith_yields_iff, fun yields => ?_⟩⟩
  obtain ⟨expr, derived, yields⟩ := evaluateWith_yields_iff.mp yields
  have recorded := Expr.yields_recording yields []
  rw [derived.names_eq, List.nil_append] at recorded
  rwa [evaluateWith_of_derives derived]

end Text

end Excerpt.Constant
