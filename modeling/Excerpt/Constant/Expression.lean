import Excerpt.Token
import Excerpt.Constant.Literal
import Excerpt.Constant.Operator

/-!
Integer constant expressions, evaluated as they are read from tokens. Every part of an expression is evaluated, the
branch not taken included, so each part needs a value. A `sizeof` has none.
-/

namespace Excerpt.Constant

/-- Answers what names stand for. It has a state, so an answer may depend on what was asked before. -/
abbrev Resolver (σ : Type) := String → StateM σ (Option Int64)

/-- Evaluation with a resolver. It may end without a value; what was asked until then stays asked. -/
abbrev Evaluation (σ : Type) := OptionT (StateM σ)

def eat? (text : String) : List Token → Option (List Token)
  | token :: rest => if token.kind = .punct ∧ token.text = text then some rest else none
  | [] => none

/-- The binary operator at the head, if it binds at least as tight as `least`. -/
def binaryOp? (least : Nat) : List Token → Option (BinaryOp × List Token)
  | token :: rest =>
    if token.kind = .punct then
      match BinaryOp.ofText? token.text with
      | some op => if least ≤ op.precedence then some (op, rest) else none
      | none => none
    else none
  | [] => none

section

variable {σ : Type} (resolve : Resolver σ)

mutual

/-- A binary expression, alone or as the condition of a `? :`. The result is the value and the tokens behind. -/
def conditional : Nat → List Token → Evaluation σ (Int64 × List Token)
  | 0, _ => failure
  | fuel + 1, tokens => do
    let (condition, rest) ← binary fuel 1 tokens
    match eat? "?" rest with
    | none => return (condition, rest)
    | some rest =>
      let (positive, rest) ← conditional fuel rest
      let rest ← (eat? ":" rest).getM
      let (negative, rest) ← conditional fuel rest
      return (if condition ≠ 0 then positive else negative, rest)

/-- An operand and the operators behind it that bind at least as tight as `least`. -/
def binary : Nat → Nat → List Token → Evaluation σ (Int64 × List Token)
  | 0, _, _ => failure
  | fuel + 1, least, tokens => do
    let (left, rest) ← unary fuel tokens
    operators fuel least left rest

/-- Applies the operators behind `left` from left to right. -/
def operators : Nat → Nat → Int64 → List Token → Evaluation σ (Int64 × List Token)
  | 0, _, _, _ => failure
  | fuel + 1, least, left, tokens =>
    match binaryOp? least tokens with
    | none => return (left, tokens)
    | some (op, rest) => do
      let (right, rest) ← binary fuel (op.precedence + 1) rest
      let value ← (op.apply left right).getM
      operators fuel least value rest

/-- A literal, a name, a parenthesis, or a unary operator before one of these. -/
def unary : Nat → List Token → Evaluation σ (Int64 × List Token)
  | 0, _ => failure
  | _ + 1, [] => failure
  | fuel + 1, token :: rest =>
    match token.kind with
    | .number => do return (← (intLiteral? token.text.toList).getM, rest)
    | .char => do return (← (charLiteral? token.text.toList).getM, rest)
    | .str => failure
    | .identifier =>
      if token.text = "sizeof" then failure else do return (← OptionT.mk (resolve token.text), rest)
    | .punct =>
      if token.text = "(" then do
        let (value, rest) ← conditional fuel rest
        return (value, ← (eat? ")" rest).getM)
      else do
        let op ← (UnaryOp.ofText? token.text).getM
        let (value, rest) ← unary fuel rest
        return (op.apply value, rest)

end

/-- Evaluates a text that is one constant expression. Each token is reached by at most four nested calls. -/
def evaluateWith (text : List Char) : Evaluation σ Int64 := do
  let tokens := tokenize text
  let (value, rest) ← conditional resolve (4 * (tokens.length + 1)) tokens
  if rest.isEmpty then return value else failure

end

namespace Resolver

/-- Answers that depend on the name alone. -/
def ofFunction (resolve : String → Option Int64) : Resolver Unit :=
  fun name => pure (resolve name)

/-- Answers as `resolve` does and keeps a record of the names, in order. -/
def recording {σ : Type} (resolve : Resolver σ) : Resolver (σ × List String) :=
  fun name => do
    let (state, asked) ← get
    let (answer, later) := (resolve name).run state
    set (later, asked ++ [name])
    return answer

end Resolver

def evaluate (resolve : String → Option Int64) (text : List Char) : Option Int64 :=
  ((evaluateWith (.ofFunction resolve) text).run.run ()).run.1

def lookups (resolve : String → Option Int64) (text : List Char) : List String :=
  ((evaluateWith (Resolver.ofFunction resolve).recording text).run.run ((), [])).run.2.2

end Excerpt.Constant
