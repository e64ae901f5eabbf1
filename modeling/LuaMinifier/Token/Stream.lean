import LuaMinifier.Token.Lexeme

/-!
Cutting a whole source text into tokens and comments, each with its position.
-/

namespace LuaMinifier

/-- The tokens and comments of a text, in order, and the position of its end. -/
structure Lexed where
  tokens : List Token
  comments : List Comment
  finish : Position
deriving DecidableEq, Repr

namespace Lexed

def listing (lexed : Lexed) : List Token := lexed.tokens ++ [⟨.eof, lexed.finish⟩]

def cons (kind : Lexeme.Kind) (position : Position) (rest : Lexed) : Lexed :=
  match kind with
  | .blank => rest
  | .comment raw value => { rest with comments := ⟨raw, value, position⟩ :: rest.comments }
  | .token kind => { rest with tokens := ⟨kind, position⟩ :: rest.tokens }

/-- Cuts the text that starts at a position, up to its end. -/
def ofText (position : Position) : List Char → Except SyntaxError Lexed
  | [] => .ok ⟨[], [], position⟩
  | first :: rest =>
    match Lexeme.read first rest with
    | .error fault => .error ⟨fault.cause, position.after ((first :: rest).take fault.offset)⟩
    | .ok lexeme =>
      match ofText (position.after (first :: rest.take lexeme.tail)) (rest.drop lexeme.tail) with
      | .error error => .error error
      | .ok lexed => .ok (lexed.cons lexeme.kind position)
termination_by text => text.length

end Lexed

/-- The first line of a text if it starts with a number sign, without its line break; such a line is no Lua. -/
def interpreterLine (text : List Char) : List Char :=
  if text.head? = some '#' then text.takeWhile (· ≠ '\n') else []

def tokenize (source : String) : Except SyntaxError Lexed :=
  let text := source.toList
  let skipped := interpreterLine text
  Lexed.ofText (Position.start.after skipped) (text.drop skipped.length)

end LuaMinifier
