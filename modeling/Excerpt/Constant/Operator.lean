/-!
Operators of constant expressions on 64-bit words. Sums, differences, products and negations wrap. Both sides of a
logical operator count.
-/

namespace Excerpt.Constant

inductive BinaryOp where
  | logicalOr
  | logicalAnd
  | bitOr
  | bitXor
  | bitAnd
  | equal
  | notEqual
  | less
  | greater
  | lessEqual
  | greaterEqual
  | shiftLeft
  | shiftRight
  | add
  | subtract
  | multiply
  | divide
  | remainder
deriving DecidableEq, Repr

def truth (holds : Bool) : Int64 :=
  if holds then 1 else 0

namespace BinaryOp

def ofText? (text : String) : Option BinaryOp :=
  match text with
  | "||" => some .logicalOr
  | "&&" => some .logicalAnd
  | "|" => some .bitOr
  | "^" => some .bitXor
  | "&" => some .bitAnd
  | "==" => some .equal
  | "!=" => some .notEqual
  | "<" => some .less
  | ">" => some .greater
  | "<=" => some .lessEqual
  | ">=" => some .greaterEqual
  | "<<" => some .shiftLeft
  | ">>" => some .shiftRight
  | "+" => some .add
  | "-" => some .subtract
  | "*" => some .multiply
  | "/" => some .divide
  | "%" => some .remainder
  | _ => none

def precedence : BinaryOp → Nat
  | logicalOr => 1
  | logicalAnd => 2
  | bitOr => 3
  | bitXor => 4
  | bitAnd => 5
  | equal | notEqual => 6
  | less | greater | lessEqual | greaterEqual => 7
  | shiftLeft | shiftRight => 8
  | add | subtract => 9
  | multiply | divide | remainder => 10

/-- A shift by `places` is defined. -/
def isShift (places : Int64) : Bool :=
  0 ≤ places && places < 64

/-- The quotient of two words is defined. -/
def isDivisible (left right : Int64) : Bool :=
  right ≠ 0 && !(left == Int64.minValue && right == -1)

def apply (op : BinaryOp) (left right : Int64) : Option Int64 :=
  match op with
  | logicalOr => some (truth (left ≠ 0 || right ≠ 0))
  | logicalAnd => some (truth (left ≠ 0 && right ≠ 0))
  | bitOr => some (left ||| right)
  | bitXor => some (left ^^^ right)
  | bitAnd => some (left &&& right)
  | equal => some (truth (left == right))
  | notEqual => some (truth (left != right))
  | less => some (truth (left < right))
  | greater => some (truth (left > right))
  | lessEqual => some (truth (left ≤ right))
  | greaterEqual => some (truth (left ≥ right))
  | shiftLeft => if isShift right then some (left <<< right) else none
  | shiftRight => if isShift right then some (left >>> right) else none
  | add => some (left + right)
  | subtract => some (left - right)
  | multiply => some (left * right)
  | divide => if isDivisible left right then some (left / right) else none
  | remainder => if isDivisible left right then some (left % right) else none

end BinaryOp

inductive UnaryOp where
  | negate
  | plus
  | complement
  | not
deriving DecidableEq, Repr

namespace UnaryOp

def ofText? (text : String) : Option UnaryOp :=
  match text with
  | "-" => some .negate
  | "+" => some .plus
  | "~" => some .complement
  | "!" => some .not
  | _ => none

def apply (op : UnaryOp) (value : Int64) : Int64 :=
  match op with
  | negate => -value
  | plus => value
  | complement => ~~~value
  | not => truth (value == 0)

end UnaryOp

end Excerpt.Constant
