import LuaMinifier.Token.Input
import LuaMinifier.Ast

/-!
Reading syntax trees from tokens by recursive descent. Every reader takes fuel, which bounds how deep the readers
call each other; a fixed multiple of the number of tokens is enough.
-/

namespace LuaMinifier
namespace Parser

def tooDeep {α : Type} : Parser α := do fail .nestedTooDeeply (← current).position

def name : Parser Name := do
  let token ← current
  match token.kind with
  | .name text =>
    advance
    return ⟨text, token.position⟩
  | _ => unexpected .name

def moreNames : Nat → Parser (List Name)
  | 0 => tooDeep
  | fuel + 1 => do
    if ← accept (.symbol .comma) then
      let first ← name
      return first :: (← moreNames fuel)
    else return []

def moreFields : Nat → Parser (List Name)
  | 0 => tooDeep
  | fuel + 1 => do
    if ← accept (.symbol .dot) then
      let first ← name
      return first :: (← moreFields fuel)
    else return []

def functionName (fuel : Nat) : Parser (FunctionName Name) := do
  let root ← name
  let fields ← moreFields fuel
  let method ← if ← accept (.symbol .colon) then some <$> name else pure none
  return ⟨root, fields, method⟩

def someParameters : Nat → Parser (Parameters Name)
  | 0 => tooDeep
  | fuel + 1 => do
    let position := (← current).position
    if ← accept (.symbol .dotDotDot) then return ⟨[], some position⟩
    let first ← name
    if ← accept (.symbol .comma) then
      let further ← someParameters fuel
      return { further with names := first :: further.names }
    else return ⟨[first], none⟩

def parameters (fuel : Nat) : Parser (Parameters Name) := do
  symbol .leftParen
  let read ← if ← sees (.symbol .rightParen) then pure ⟨[], none⟩ else someParameters fuel
  symbol .rightParen
  return read

def literalOf? : Token.Kind → Option (LiteralKind × String)
  | .number raw => some (.number, raw)
  | .string raw => some (.string, raw)
  | .keyword .kNil => some (.nil, "nil")
  | .keyword .kTrue => some (.boolean, "true")
  | .keyword .kFalse => some (.boolean, "false")
  | .symbol .dotDotDot => some (.vararg, "...")
  | _ => none

/-- Reads the comma or semicolon between two fields of a table, if one stands here. -/
def fieldSeparator : Parser Bool := do
  if ← accept (.symbol .comma) then return true
  accept (.symbol .semicolon)

/-- Tokens that can only follow the last statement of a block. -/
def endsBlock : Token.Kind → Bool
  | .eof | .keyword .kEnd | .keyword .kElse | .keyword .kElseif | .keyword .kUntil => true
  | _ => false

mutual

/-- An expression whose binary operators all hold their left operand more strongly than a limit. -/
def expression : Nat → Nat → Parser (Expr Name)
  | 0, _ => tooDeep
  | fuel + 1, limit => do
    let token ← current
    match UnaryOp.ofToken? token.kind with
    | some operator =>
      advance
      let operand ← expression fuel UnaryOp.power
      operations fuel limit token.position (.unary (.plain token.position) operator operand)
    | none =>
      let left ← operand fuel
      operations fuel limit token.position left

/-- The binary operators that follow a left operand, and their right operands. -/
def operations : Nat → Nat → Position → Expr Name → Parser (Expr Name)
  | 0, _, _, _ => tooDeep
  | fuel + 1, limit, position, left => do
    match BinaryOp.ofToken? (← current).kind with
    | none => return left
    | some operator =>
      if operator.leftPower ≤ limit then return left
      advance
      let right ← expression fuel operator.rightPower
      operations fuel limit position (.binary (.plain position) operator left right)

/-- An expression without operators. -/
def operand : Nat → Parser (Expr Name)
  | 0 => tooDeep
  | fuel + 1 => do
    let token ← current
    match literalOf? token.kind with
    | some (kind, raw) =>
      advance
      return .literal (.plain token.position) kind raw
    | none =>
      match token.kind with
      | .symbol .leftBrace =>
        advance
        return .table (.plain token.position) (← fields fuel)
      | .keyword .kFunction =>
        advance
        let (parameters, body) ← functionBody fuel
        return .function (.plain token.position) parameters body
      | _ => suffixed fuel

/-- A variable or an expression in parentheses, with all that is applied to it. -/
def suffixed : Nat → Parser (Expr Name)
  | 0 => tooDeep
  | fuel + 1 => do
    let token ← current
    match token.kind with
    | .name text =>
      advance
      suffixes fuel (.identifier (.plain token.position) ⟨text, token.position⟩)
    | .symbol .leftParen =>
      advance
      let inner ← expression fuel 0
      symbol .rightParen
      suffixes fuel inner.parenthesize
    | _ => unexpected .expression

/-- The fields, elements, methods and arguments that follow an expression. Each result stands where the
expression does. -/
def suffixes : Nat → Expr Name → Parser (Expr Name)
  | 0, _ => tooDeep
  | fuel + 1, base => do
    let site := Site.plain base.position
    match (← current).kind with
    | .symbol .dot =>
      advance
      let field ← name
      suffixes fuel (.member site base .dot field)
    | .symbol .leftBracket =>
      advance
      let key ← expression fuel 0
      symbol .rightBracket
      suffixes fuel (.index site base key)
    | .symbol .colon =>
      advance
      let method ← name
      suffixes fuel (← arguments fuel (.member site base .colon method))
    | .symbol .leftParen | .symbol .leftBrace | .string _ => suffixes fuel (← arguments fuel base)
    | _ => return base

/-- The arguments of a call: a list in parentheses, a table or a string. -/
def arguments : Nat → Expr Name → Parser (Expr Name)
  | 0, _ => tooDeep
  | fuel + 1, callee => do
    let site := Site.plain callee.position
    let token ← current
    match token.kind with
    | .symbol .leftParen =>
      advance
      let given ← if ← sees (.symbol .rightParen) then pure [] else expressions fuel
      symbol .rightParen
      return .call site callee given
    | .symbol .leftBrace =>
      advance
      return .callTable site callee token.position (← fields fuel)
    | .string raw =>
      advance
      return .callString site callee token.position raw
    | _ => unexpected .arguments

def expressions : Nat → Parser (List (Expr Name))
  | 0 => tooDeep
  | fuel + 1 => do
    let first ← expression fuel 0
    if ← accept (.symbol .comma) then return first :: (← expressions fuel)
    else return [first]

/-- The fields of a table behind its opening brace, up to the closing one. -/
def fields : Nat → Parser (List (Field Name))
  | 0 => tooDeep
  | fuel + 1 => do
    if ← accept (.symbol .rightBrace) then return []
    let first ← field fuel
    if ← fieldSeparator then return first :: (← fields fuel)
    symbol .rightBrace
    return [first]

def field : Nat → Parser (Field Name)
  | 0 => tooDeep
  | fuel + 1 => do
    match (← get).tokens with
    | ⟨.symbol .leftBracket, _⟩ :: _ =>
      advance
      let key ← expression fuel 0
      symbol .rightBracket
      symbol .assign
      return .keyed key (← expression fuel 0)
    | ⟨.name text, position⟩ :: ⟨.symbol .assign, _⟩ :: _ =>
      advance
      advance
      return .named ⟨text, position⟩ (← expression fuel 0)
    | _ => return .item (← expression fuel 0)

def functionBody : Nat → Parser (Parameters Name × Block Name)
  | 0 => tooDeep
  | fuel + 1 => do
    let read ← parameters fuel
    let body ← block fuel
    keyword .kEnd
    return (read, body)

/-- The statements up to the end of a block, which is left to be read. -/
def block : Nat → Parser (Block Name)
  | 0 => tooDeep
  | fuel + 1 => do
    skip (.symbol .semicolon)
    let token ← current
    if token.kind = .keyword .kReturn then
      advance
      let next := (← current).kind
      let values ← if endsBlock next || next = .symbol .semicolon then pure [] else expressions fuel
      let _ ← accept (.symbol .semicolon)
      unless endsBlock (← current).kind do unexpected (.keyword .kEnd)
      return .ret token.position values
    else if endsBlock token.kind then return .nil
    else
      let head ← statement fuel
      return .cons head (← block fuel)

def statement : Nat → Parser (Stat Name)
  | 0 => tooDeep
  | fuel + 1 => do
    let token ← current
    let position := token.position
    match token.kind with
    | .keyword .kIf =>
      advance
      let condition ← expression fuel 0
      keyword .kThen
      let body ← block fuel
      return .cond position condition body (← branches fuel)
    | .keyword .kWhile =>
      advance
      let condition ← expression fuel 0
      keyword .kDo
      let body ← block fuel
      keyword .kEnd
      return .whileLoop position condition body
    | .keyword .kDo =>
      advance
      let body ← block fuel
      keyword .kEnd
      return .doBlock position body
    | .keyword .kFor =>
      advance
      loop fuel position
    | .keyword .kRepeat =>
      advance
      let body ← block fuel
      keyword .kUntil
      return .repeatLoop position body (← expression fuel 0)
    | .keyword .kFunction =>
      advance
      let called ← functionName fuel
      let (parameters, body) ← functionBody fuel
      return .function position called parameters body
    | .keyword .kLocal =>
      advance
      if ← accept (.keyword .kFunction) then
        let called ← name
        let (parameters, body) ← functionBody fuel
        return .localFunction position called parameters body
      else
        let first ← name
        let further ← moreNames fuel
        let values ← if ← accept (.symbol .assign) then expressions fuel else pure []
        return .localVars position (first :: further) values
    | .symbol .colonColon =>
      advance
      let label ← name
      symbol .colonColon
      return .label position label
    | .keyword .kGoto =>
      advance
      return .goto position (← name)
    | .keyword .kBreak =>
      advance
      return .breakLoop position
    | _ => assignmentOrCall fuel position

/-- What follows a branch of a conditional, up to its `end`. -/
def branches : Nat → Parser (Else Name)
  | 0 => tooDeep
  | fuel + 1 => do
    let token ← current
    match token.kind with
    | .keyword .kElseif =>
      advance
      let condition ← expression fuel 0
      keyword .kThen
      let body ← block fuel
      return .elseif token.position condition body (← branches fuel)
    | .keyword .kElse =>
      advance
      let body ← block fuel
      keyword .kEnd
      return .otherwise token.position body
    | _ =>
      keyword .kEnd
      return .none

/-- A loop over numbers or iterators, behind its `for`. -/
def loop : Nat → Position → Parser (Stat Name)
  | 0, _ => tooDeep
  | fuel + 1, position => do
    let counter ← name
    if ← accept (.symbol .assign) then
      let first ← expression fuel 0
      symbol .comma
      let limit ← expression fuel 0
      let step ← if ← accept (.symbol .comma) then some <$> expression fuel 0 else pure none
      keyword .kDo
      let body ← block fuel
      keyword .kEnd
      return .numericFor position counter first limit step body
    else
      let further ← moreNames fuel
      keyword .kIn
      let iterators ← expressions fuel
      keyword .kDo
      let body ← block fuel
      keyword .kEnd
      return .genericFor position (counter :: further) iterators body

/-- An assignment or a call. Targets are checked once the whole assignment has been read. -/
def assignmentOrCall : Nat → Position → Parser (Stat Name)
  | 0, _ => tooDeep
  | fuel + 1, position => do
    let first ← suffixed fuel
    let next := (← current).kind
    if next = .symbol .assign || next = .symbol .comma then
      let targets ← moreTargets fuel
      symbol .assign
      let values ← expressions fuel
      match (first :: targets).find? (!·.isAssignable) with
      | some target => fail .cannotAssign target.position
      | none => return .assign position (first :: targets) values
    else if first.isCall && !first.site.parenthesized then return .call position first
    else fail .expectedStatement position

def moreTargets : Nat → Parser (List (Expr Name))
  | 0 => tooDeep
  | fuel + 1 => do
    if ← accept (.symbol .comma) then
      let target ← suffixed fuel
      return target :: (← moreTargets fuel)
    else return []

end

/-- A whole text: one block and nothing behind it. -/
def chunk (fuel : Nat) : Parser (Block Name) := do
  let body ← block fuel
  unless (← current).kind = .eof do unexpected .eof
  return body

end Parser

/-- The tree that the tokens of a text form. Between two tokens the readers call each other at most eight deep. -/
def Block.ofTokens (lexed : Lexed) : Except SyntaxError (Block Name) := do
  let (body, _) ← (Parser.chunk (8 * lexed.tokens.length + 8)).run ⟨lexed.tokens, lexed.finish⟩
  return body

/-- A text that is read is a block up to its end. -/
theorem Block.run_of_ofTokens {lexed : Lexed} {body : Block Name} (read : Block.ofTokens lexed = .ok body) :
    ∃ rest, (Parser.block (8 * lexed.tokens.length + 8)).run ⟨lexed.tokens, lexed.finish⟩ = .ok (body, rest) ∧
      rest.current.kind = .eof := by
  unfold Block.ofTokens Parser.chunk at read
  rw [StateT.run_bind] at read
  cases ran : (Parser.block (8 * lexed.tokens.length + 8)).run ⟨lexed.tokens, lexed.finish⟩ with
  | error failure =>
      rw [ran] at read
      cases read
  | ok pair =>
      rw [ran] at read
      change ((if pair.2.current.kind = .eof then pure pair.1 else Parser.unexpected .eof >>= fun _ => pure pair.1 :
        Parser (Block Name)).run pair.2 >>= fun result => pure result.1) = .ok body at read
      split at read
      next finished =>
        cases read
        exact ⟨_, rfl, finished⟩
      next => cases read

end LuaMinifier
