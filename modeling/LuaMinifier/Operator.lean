import LuaMinifier.Token

/-!
The operators of expressions. Reading uses binding powers, as the language defines them. Writing uses precedence
levels, which are coarser: all bitwise operators share one level, and so do all unary operators.
-/

namespace LuaMinifier

inductive BinaryOp
  | or | and
  | lessThan | greaterThan | lessEqual | greaterEqual | notEqual | equal
  | bitOr | bitXor | bitAnd | shiftLeft | shiftRight
  | concat | add | subtract | multiply | divide | floorDivide | modulo | power
deriving DecidableEq, Repr

inductive UnaryOp
  | not | length | negate | bitNot
deriving DecidableEq, Repr

/-- The operand of a binary operator that an expression is. -/
inductive Side
  | left | right
deriving DecidableEq, Repr

/-- A binary operator groups equal operators on one of its sides. -/
inductive Associativity
  | left | right
deriving DecidableEq, Repr

def Associativity.side : Associativity → Side
  | .left => .left
  | .right => .right

namespace BinaryOp

def all : List BinaryOp :=
  [.or, .and, .lessThan, .greaterThan, .lessEqual, .greaterEqual, .notEqual, .equal, .bitOr, .bitXor,
    .bitAnd, .shiftLeft, .shiftRight, .concat, .add, .subtract, .multiply, .divide, .floorDivide, .modulo, .power]

def text : BinaryOp → String
  | .or => "or" | .and => "and" | .lessThan => "<" | .greaterThan => ">" | .lessEqual => "<="
  | .greaterEqual => ">=" | .notEqual => "~=" | .equal => "==" | .bitOr => "|" | .bitXor => "~"
  | .bitAnd => "&" | .shiftLeft => "<<" | .shiftRight => ">>" | .concat => ".." | .add => "+"
  | .subtract => "-" | .multiply => "*" | .divide => "/" | .floorDivide => "//" | .modulo => "%"
  | .power => "^"

/-- The operator that a token stands for between two operands. -/
def ofToken? : Token.Kind → Option BinaryOp
  | .keyword .kOr => some .or
  | .keyword .kAnd => some .and
  | .symbol .lt => some .lessThan
  | .symbol .gt => some .greaterThan
  | .symbol .ltEq => some .lessEqual
  | .symbol .gtEq => some .greaterEqual
  | .symbol .notEq => some .notEqual
  | .symbol .eq => some .equal
  | .symbol .pipe => some .bitOr
  | .symbol .tilde => some .bitXor
  | .symbol .ampersand => some .bitAnd
  | .symbol .shiftLeft => some .shiftLeft
  | .symbol .shiftRight => some .shiftRight
  | .symbol .dotDot => some .concat
  | .symbol .plus => some .add
  | .symbol .minus => some .subtract
  | .symbol .star => some .multiply
  | .symbol .slash => some .divide
  | .symbol .slashSlash => some .floorDivide
  | .symbol .percent => some .modulo
  | .symbol .caret => some .power
  | _ => none

def isLogical : BinaryOp → Bool
  | .or | .and => true
  | _ => false

/-- How strongly the operator holds its left operand when an expression is read. -/
def leftPower : BinaryOp → Nat
  | .or => 1
  | .and => 2
  | .lessThan | .greaterThan | .lessEqual | .greaterEqual | .notEqual | .equal => 3
  | .bitOr => 4
  | .bitXor => 5
  | .bitAnd => 6
  | .shiftLeft | .shiftRight => 7
  | .concat => 9
  | .add | .subtract => 10
  | .multiply | .divide | .floorDivide | .modulo => 11
  | .power => 14

/-- How strongly the operator holds its right operand. Only concatenation and power hold it less strongly
than the left one, which makes them group to the right. -/
def rightPower : BinaryOp → Nat
  | .concat => 8
  | .power => 13
  | operator => operator.leftPower

/-- The level of the operator when an expression is written. -/
def precedence : BinaryOp → Nat
  | .or => 1
  | .and => 2
  | .lessThan | .greaterThan | .lessEqual | .greaterEqual | .notEqual | .equal => 3
  | .bitOr | .bitXor | .bitAnd | .shiftLeft | .shiftRight => 4
  | .concat => 5
  | .add | .subtract => 6
  | .multiply | .divide | .floorDivide | .modulo => 7
  | .power => 10

def associativity : BinaryOp → Associativity
  | .concat | .power => .right
  | _ => .left

def isBitwise : BinaryOp → Bool
  | .bitOr | .bitXor | .bitAnd | .shiftLeft | .shiftRight => true
  | _ => false

end BinaryOp

namespace UnaryOp

def all : List UnaryOp := [.not, .length, .negate, .bitNot]

def text : UnaryOp → String
  | .not => "not" | .length => "#" | .negate => "-" | .bitNot => "~"

/-- The operator that a token stands for in front of an operand. -/
def ofToken? : Token.Kind → Option UnaryOp
  | .keyword .kNot => some .not
  | .symbol .hash => some .length
  | .symbol .minus => some .negate
  | .symbol .tilde => some .bitNot
  | _ => none

/-- How strongly every unary operator holds its operand when an expression is read. -/
def power : Nat := 12

/-- The level of every unary operator when an expression is written. -/
def precedence : Nat := 8

end UnaryOp

inductive Operator
  | binary (operator : BinaryOp)
  | unary (operator : UnaryOp)
deriving DecidableEq, Repr

namespace Operator

def text : Operator → String
  | .binary operator => operator.text
  | .unary operator => operator.text

def precedence : Operator → Nat
  | .binary operator => operator.precedence
  | .unary _ => UnaryOp.precedence

def associativity : Operator → Associativity
  | .binary operator => operator.associativity
  | .unary _ => .left

/-- Binary bitwise operators share a level when written although the language orders them. -/
def isBitwise : Operator → Bool
  | .binary operator => operator.isBitwise
  | .unary _ => false

end Operator
end LuaMinifier
