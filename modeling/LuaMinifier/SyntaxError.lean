import LuaMinifier.Token

/-!
What can be wrong with a source text, where, and how it is reported.
-/

namespace LuaMinifier
namespace SyntaxError

/-- What the grammar asks for at a token. -/
inductive Expectation
  | keyword (reserved : Keyword)
  | symbol (sign : Symbol)
  | name
  | expression
  | arguments
  | eof
deriving DecidableEq, Repr

def Expectation.text : Expectation → String
  | .keyword reserved => s!"'{reserved.text}'"
  | .symbol sign => s!"'{sign.text}'"
  | .name => "<name>"
  | .expression => "expression"
  | .arguments => "function arguments"
  | .eof => "'<eof>'"

inductive Cause
  | unfinishedString
  | unfinishedLongString
  | unfinishedLongComment
  | malformedNumber
  | unexpectedSymbol (byte : UInt8)
  | expected (expectation : Expectation) (found : Token.Kind)
  | cannotAssign
  | expectedStatement
  | nestedTooDeeply
deriving DecidableEq, Repr

def hexDigit (value : Nat) : Char :=
  if value < 10 then Char.ofNat ('0'.toNat + value) else Char.ofNat ('a'.toNat + (value - 10))

/-- Printable ASCII stands for itself, except quotes and the backslash, which are escaped;
tab, carriage return and line feed have escapes of their own, and any other byte is shown in hexadecimal. -/
def showByte (byte : UInt8) : String :=
  let value := byte.toNat
  if value = 9 then "\\t"
  else if value = 10 then "\\n"
  else if value = 13 then "\\r"
  else if value = 34 then "\\\""
  else if value = 39 then "\\'"
  else if value = 92 then "\\\\"
  else if 32 ≤ value ∧ value < 127 then (Char.ofNat value).toString
  else "\\x" ++ String.ofList [hexDigit (value / 16), hexDigit (value % 16)]

def Cause.text : Cause → String
  | .unfinishedString => "unfinished string"
  | .unfinishedLongString => "unfinished long string"
  | .unfinishedLongComment => "unfinished long comment"
  | .malformedNumber => "malformed number"
  | .unexpectedSymbol byte => s!"unexpected symbol '{showByte byte}'"
  | .expected expectation found => s!"{expectation.text} expected near {found.describe}"
  | .cannotAssign => "syntax error: cannot assign"
  | .expectedStatement => "syntax error: expected statement"
  | .nestedTooDeeply => "nested too deeply"

end SyntaxError

structure SyntaxError where
  cause : SyntaxError.Cause
  position : Position
deriving DecidableEq, Repr

def SyntaxError.message (error : SyntaxError) : String :=
  s!"{error.cause.text} at {error.position.toText}"

end LuaMinifier
