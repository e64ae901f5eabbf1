import LuaMinifier.Ast

/-!
When an expression has to be written in parentheses.
-/

namespace LuaMinifier

/-- What surrounds an operand: the level it must at least have, the side it is on, and the operator it belongs to. -/
structure Context where
  precedence : Nat
  side : Option Side
  parent : Option Operator
deriving DecidableEq, Repr

namespace Context

/-- Not an operand. -/
def top : Context := ⟨0, none, none⟩

def ofBinary (operator : BinaryOp) (side : Side) : Context :=
  ⟨operator.precedence, some side, some (.binary operator)⟩

def ofUnary (operator : UnaryOp) : Context := ⟨UnaryOp.precedence, none, some (.unary operator)⟩

end Context

/-- Sums, and products of products or quotients, may be regrouped. -/
def regroups (operator : Operator) (parent : Option Operator) : Bool :=
  parent = some (.binary .add) ||
    (parent = some (.binary .multiply) && (operator = .binary .divide || operator = .binary .multiply))

/-- Whether a binary operation needs parentheses: it binds less than its context, it stands on the side where its
level does not group, or it mixes bitwise operators. -/
def needsParentheses (operator : Operator) (context : Context) : Bool :=
  operator.precedence < context.precedence ||
    (operator.precedence = context.precedence && some operator.associativity.side ≠ context.side &&
      !regroups operator context.parent) ||
    context.parent.any fun parent => parent.isBitwise && operator.isBitwise && parent ≠ operator

/-- Whether a unary operation needs parentheses. To the right of a power it never does. -/
def needsUnaryParentheses (context : Context) : Bool :=
  UnaryOp.precedence < context.precedence &&
    !(context.parent = some (.binary .power) && context.side = some .right)

namespace Expr

variable {ι : Type}

/-- Whether parentheses around the expression are kept because they cut its values down to one. -/
def isTruncated (expression : Expr ι) : Bool := expression.site.parenthesized && expression.isMultiValue

/-- Whether the expression is put in parentheses when something is applied to it. -/
def needsBaseParentheses (expression : Expr ι) : Bool :=
  !expression.isTruncated &&
    match expression with
    | .binary .. | .unary .. | .call .. | .callTable .. | .callString .. | .function .. | .table .. => true
    | .literal _ kind _ => kind ≠ .vararg
    | _ => false

/-- Whether the last token is a numeral, parentheses apart. -/
def endsWithNumeral : Expr ι → Bool
  | .literal _ kind _ => kind = .number
  | .binary _ _ _ right => right.endsWithNumeral
  | .unary _ _ operand => operand.endsWithNumeral
  | _ => false

end Expr
end LuaMinifier
