import LuaMinifier.Token.Stream

/-!
Reading tokens one after another. Behind the last token the end of the text is seen for ever.
-/

namespace LuaMinifier

/-- The tokens still to be read, and the position of the end of the text. -/
structure Input where
  tokens : List Token
  finish : Position
deriving DecidableEq, Repr

def Input.current (input : Input) : Token := input.tokens.headD ⟨.eof, input.finish⟩

def Input.rest (input : Input) : Input := { input with tokens := input.tokens.tail }

/-- Something read from tokens, or the first fault. -/
abbrev Parser := StateT Input (Except SyntaxError)

namespace Parser

def current : Parser Token := return (← get).current

def advance : Parser Unit := modify Input.rest

def fail {α : Type} (cause : SyntaxError.Cause) (position : Position) : Parser α :=
  throw ⟨cause, position⟩

/-- Reports that something else was asked for than the next token. -/
def unexpected {α : Type} (expectation : SyntaxError.Expectation) : Parser α := do
  let token ← current
  fail (.expected expectation token.kind) token.position

def sees (kind : Token.Kind) : Parser Bool := return (← current).kind = kind

def accept (kind : Token.Kind) : Parser Bool := do
  if ← sees kind then
    advance
    return true
  else return false

def keyword (reserved : Keyword) : Parser Unit := do
  unless ← accept (.keyword reserved) do unexpected (.keyword reserved)

def symbol (sign : Symbol) : Parser Unit := do
  unless ← accept (.symbol sign) do unexpected (.symbol sign)

def skip (kind : Token.Kind) : Parser Unit :=
  modify fun input => { input with tokens := input.tokens.dropWhile (·.kind = kind) }

end Parser
end LuaMinifier
