import Excerpt.Constant.Expression
import Excerpt.Proofs.Constant.Arithmetic

/-!
The grammar of constant expressions and their strict evaluation. Level 0 holds the conditionals, levels 1 to 10 the
binary operators from the loosest to the tightest, and level 11 the operands.
-/

namespace Excerpt

def Token.IsPunct (token : Token) (text : String) : Prop :=
  token.kind = .punct ∧ token.text = text

namespace Constant

inductive Expr where
  | number (text : String)
  | char (text : String)
  | name (word : String)
  | group (inner : Expr)
  | unary (op : UnaryOp) (operand : Expr)
  | binary (op : BinaryOp) (left right : Expr)
  | conditional (condition positive negative : Expr)
deriving DecidableEq, Repr

def signs : List (String × UnaryOp) :=
  [("+", .plus), ("-", .negate), ("~", .complement), ("!", .not)]

def binaryLevel : Nat → List (String × BinaryOp)
  | 1 => [("||", .logicalOr)]
  | 2 => [("&&", .logicalAnd)]
  | 3 => [("|", .bitOr)]
  | 4 => [("^", .bitXor)]
  | 5 => [("&", .bitAnd)]
  | 6 => [("==", .equal), ("!=", .notEqual)]
  | 7 => [("<", .less), (">", .greater), ("<=", .lessEqual), (">=", .greaterEqual)]
  | 8 => [("<<", .shiftLeft), (">>", .shiftRight)]
  | 9 => [("+", .add), ("-", .subtract)]
  | 10 => [("*", .multiply), ("/", .divide), ("%", .remainder)]
  | _ => []

inductive Derives : Nat → List Token → Expr → Prop
  | number {token : Token} (kind : token.kind = .number) : Derives 11 [token] (.number token.text)
  | char {token : Token} (kind : token.kind = .char) : Derives 11 [token] (.char token.text)
  | name {token : Token} (kind : token.kind = .identifier) (operand : token.text ≠ "sizeof") :
      Derives 11 [token] (.name token.text)
  | group {opening closing : Token} {tokens : List Token} {inner : Expr} (opens : opening.IsPunct "(")
      (derived : Derives 0 tokens inner) (closes : closing.IsPunct ")") :
      Derives 11 (opening :: (tokens ++ [closing])) (.group inner)
  | unary {token : Token} {op : UnaryOp} {tokens : List Token} {operand : Expr} (kind : token.kind = .punct)
      (listed : (token.text, op) ∈ signs) (derived : Derives 11 tokens operand) :
      Derives 11 (token :: tokens) (.unary op operand)
  /-- An operator takes a left side of its own level and a tighter right side. -/
  | binary {level : Nat} {token : Token} {op : BinaryOp} {front back : List Token} {left right : Expr}
      (first : Derives level front left) (kind : token.kind = .punct) (listed : (token.text, op) ∈ binaryLevel level)
      (second : Derives (level + 1) back right) : Derives level (front ++ token :: back) (.binary op left right)
  | conditional {mark colon : Token} {test front back : List Token} {condition positive negative : Expr}
      (decides : Derives 1 test condition) (marks : mark.IsPunct "?") (first : Derives 0 front positive)
      (divides : colon.IsPunct ":") (second : Derives 0 back negative) :
      Derives 0 (test ++ mark :: (front ++ colon :: back)) (.conditional condition positive negative)
  | tighter {level : Nat} {tokens : List Token} {expr : Expr} (inside : level ≤ 10)
      (derived : Derives (level + 1) tokens expr) : Derives level tokens expr

namespace Expr

/-- Strict evaluation: every part is evaluated from left to right, and each needs a value. -/
def evaluate {σ : Type} (resolve : Resolver σ) : Expr → Evaluation σ Int64
  | number text => (intLiteral? text.toList).getM
  | char text => (charLiteral? text.toList).getM
  | name word => OptionT.mk (resolve word)
  | group inner => inner.evaluate resolve
  | unary op operand => do
    let value ← operand.evaluate resolve
    return op.result value
  | binary op left right => do
    let first ← left.evaluate resolve
    let second ← right.evaluate resolve
    (op.result first second).getM
  | conditional condition positive negative => do
    let decision ← condition.evaluate resolve
    let first ← positive.evaluate resolve
    let second ← negative.evaluate resolve
    return if decision ≠ 0 then first else second

def names : Expr → List String
  | number _ => []
  | char _ => []
  | name word => [word]
  | group inner => inner.names
  | unary _ operand => operand.names
  | binary _ left right => left.names ++ right.names
  | conditional condition positive negative => condition.names ++ positive.names ++ negative.names

end Expr

theorem mem_signs {text : String} {op : UnaryOp} : (text, op) ∈ signs ↔ UnaryOp.ofText? text = some op := by
  constructor
  · intro listed
    simp only [signs, List.mem_cons, Prod.mk.injEq, List.not_mem_nil, or_false] at listed
    rcases listed with ⟨rfl, rfl⟩ | ⟨rfl, rfl⟩ | ⟨rfl, rfl⟩ | ⟨rfl, rfl⟩ <;> rfl
  · intro found
    unfold UnaryOp.ofText? at found
    split at found <;> cases found <;> decide

theorem mem_binaryLevel {level : Nat} {text : String} {op : BinaryOp} :
    (text, op) ∈ binaryLevel level ↔ BinaryOp.ofText? text = some op ∧ op.precedence = level := by
  have table : ∀ level < 11, ∀ entry ∈ binaryLevel level,
      BinaryOp.ofText? entry.1 = some entry.2 ∧ entry.2.precedence = level := by decide
  constructor
  · intro listed
    by_cases inside : level < 11
    · exact table level inside (text, op) listed
    · unfold binaryLevel at listed
      split at listed
      case h_11 => cases listed
      all_goals omega
  · rintro ⟨found, rfl⟩
    unfold BinaryOp.ofText? at found
    split at found <;> cases found <;> decide

theorem BinaryOp.precedence_bounds (op : BinaryOp) : 1 ≤ op.precedence ∧ op.precedence ≤ 10 := by
  cases op <;> decide

def operandNames (tokens : List Token) : List String :=
  (tokens.filter fun token => token.kind = .identifier ∧ token.text ≠ "sizeof").map (·.text)

@[simp] theorem operandNames_append (front back : List Token) :
    operandNames (front ++ back) = operandNames front ++ operandNames back := by
  simp [operandNames]

theorem operandNames_punct {token : Token} (kind : token.kind = .punct) (rest : List Token) :
    operandNames (token :: rest) = operandNames rest := by
  simp [operandNames, kind]

/-- A derivation has its names in the order of the text. The word `sizeof` is no name. -/
theorem Derives.names_eq {level : Nat} {tokens : List Token} {expr : Expr} (derived : Derives level tokens expr) :
    expr.names = operandNames tokens := by
  induction derived with
  | number kind => simp [Expr.names, operandNames, kind]
  | char kind => simp [Expr.names, operandNames, kind]
  | name kind operand => simp [Expr.names, operandNames, kind, operand]
  | group opens _ closes ih =>
    rw [operandNames_punct opens.1, operandNames_append, operandNames_punct closes.1, Expr.names, ih]
    simp [operandNames]
  | unary kind _ _ ih => rw [operandNames_punct kind, Expr.names, ih]
  | binary _ kind _ _ left right => rw [operandNames_append, operandNames_punct kind, Expr.names, left, right]
  | conditional _ marks _ divides _ condition positive negative =>
    rw [operandNames_append, operandNames_punct marks.1, operandNames_append, operandNames_punct divides.1, Expr.names,
      condition, positive, negative, List.append_assoc]
  | tighter _ _ ih => exact ih

theorem Derives.loosen {level lower : Nat} {tokens : List Token} {expr : Expr} (derived : Derives level tokens expr)
    (inside : level ≤ 11) (below : lower ≤ level) : Derives lower tokens expr := by
  induction level with
  | zero => rwa [Nat.le_zero.mp below]
  | succ level ih =>
    rcases Nat.le_succ_iff.mp below with below | rfl
    · exact ih (.tighter (by omega) derived) (by omega) below
    · exact derived

end Constant

end Excerpt
