import LuaMinifier.Ast
import LuaMinifier.Proofs.Spacing

/-!
The tokens of a tree, with parentheses where the tree is marked with them. Statements that start with a parenthesis
are kept from those before them by a semicolon, and a table ends with a comma when its last field has a brace in it.
-/

namespace LuaMinifier

open Token

variable {ι : Type}

def BinaryOp.token : BinaryOp → Kind
  | .or => .keyword .kOr
  | .and => .keyword .kAnd
  | .lessThan => .symbol .lt
  | .greaterThan => .symbol .gt
  | .lessEqual => .symbol .ltEq
  | .greaterEqual => .symbol .gtEq
  | .notEqual => .symbol .notEq
  | .equal => .symbol .eq
  | .bitOr => .symbol .pipe
  | .bitXor => .symbol .tilde
  | .bitAnd => .symbol .ampersand
  | .shiftLeft => .symbol .shiftLeft
  | .shiftRight => .symbol .shiftRight
  | .concat => .symbol .dotDot
  | .add => .symbol .plus
  | .subtract => .symbol .minus
  | .multiply => .symbol .star
  | .divide => .symbol .slash
  | .floorDivide => .symbol .slashSlash
  | .modulo => .symbol .percent
  | .power => .symbol .caret

def UnaryOp.token : UnaryOp → Kind
  | .not => .keyword .kNot
  | .length => .symbol .hash
  | .negate => .symbol .minus
  | .bitNot => .symbol .tilde

def Access.token : Access → Kind
  | .dot => .symbol .dot
  | .colon => .symbol .colon

def LiteralKind.token : LiteralKind → String → Kind
  | .string, raw => .string raw
  | .number, raw => .number raw
  | .boolean, raw => .keyword (if raw = "true" then .kTrue else .kFalse)
  | .nil, _ => .keyword .kNil
  | .vararg, _ => .symbol .dotDotDot

/-- Tokens in parentheses if an expression is marked with them. -/
def Site.enclose (site : Site) (kinds : List Kind) : List Kind :=
  if site.parenthesized then .symbol .leftParen :: kinds ++ [.symbol .rightParen] else kinds

/-- Items with commas between them, behind others if they are not the first. -/
def listed : Bool → List (List Kind) → List Kind
  | _, [] => []
  | true, item :: rest => item ++ listed false rest
  | false, item :: rest => .symbol .comma :: item ++ listed false rest

def nameItems (text : ι → String) (names : List ι) : List (List Kind) := names.map fun name => [.name (text name)]

/-- The parameters of a function as the items of a list. -/
def Parameters.items (text : ι → String) (parameters : Parameters ι) : List (List Kind) :=
  nameItems text parameters.names ++ (parameters.vararg.map fun _ => [.symbol .dotDotDot]).toList

def FunctionName.kinds (text : ι → String) (name : FunctionName ι) : List Kind :=
  .name (text name.root) :: (name.fields.flatMap fun field => [.symbol .dot, .name field.text])
    ++ (name.method.map fun method => [.symbol .colon, .name method.text]).getD []

/-- The comma behind a last field that has a brace in it. -/
def closingComma (lastField : Option (List Kind)) : List Kind :=
  if lastField.any fun field => field.any fun kind => kind.chars.contains '}' then [.symbol .comma] else []

def braces (fields : List (List Kind)) : List Kind :=
  .symbol .leftBrace :: listed true fields ++ closingComma fields.getLast? ++ [.symbol .rightBrace]

def functionKinds (parameters : List (List Kind)) (body : List Kind) : List Kind :=
  .symbol .leftParen :: listed true parameters ++ .symbol .rightParen :: body ++ [.keyword .kEnd]

/-- A statement, behind others if it is not the first. -/
def separated (isFirst : Bool) (statement : List Kind) : List Kind :=
  if statement.head? = some (.symbol .leftParen) && !isFirst then .symbol .semicolon :: statement else statement

mutual

def Expr.kinds (text : ι → String) : Expr ι → List Kind
  | .identifier site occurrence => site.enclose [.name (text occurrence)]
  | .literal site kind raw => site.enclose [kind.token raw]
  | .binary site operator left right => site.enclose (left.kinds text ++ operator.token :: right.kinds text)
  | .unary site operator operand => site.enclose (operator.token :: operand.kinds text)
  | .call site callee arguments =>
    site.enclose (callee.kinds text ++ .symbol .leftParen :: listed true (Expr.kindsAll text arguments)
      ++ [.symbol .rightParen])
  | .callTable site callee _ fields => site.enclose (callee.kinds text ++ braces (Field.kindsAll text fields))
  | .callString site callee _ raw => site.enclose (callee.kinds text ++ [.string raw])
  | .index site base key =>
    site.enclose (base.kinds text ++ .symbol .leftBracket :: key.kinds text ++ [.symbol .rightBracket])
  | .member site base access name => site.enclose (base.kinds text ++ [access.token, .name name.text])
  | .function site parameters body =>
    site.enclose (.keyword .kFunction :: functionKinds (parameters.items text) (body.kinds text true))
  | .table site fields => site.enclose (braces (Field.kindsAll text fields))

def Expr.kindsAll (text : ι → String) : List (Expr ι) → List (List Kind)
  | [] => []
  | expression :: rest => expression.kinds text :: Expr.kindsAll text rest

def Field.kinds (text : ι → String) : Field ι → List Kind
  | .keyed key value =>
    .symbol .leftBracket :: key.kinds text ++ .symbol .rightBracket :: .symbol .assign :: value.kinds text
  | .named name value => .name name.text :: .symbol .assign :: value.kinds text
  | .item value => value.kinds text

def Field.kindsAll (text : ι → String) : List (Field ι) → List (List Kind)
  | [] => []
  | field :: rest => field.kinds text :: Field.kindsAll text rest

def Stat.kinds (text : ι → String) : Stat ι → List Kind
  | .assign _ targets values =>
    listed true (Expr.kindsAll text targets) ++ .symbol .assign :: listed true (Expr.kindsAll text values)
  | .localVars _ names values =>
    .keyword .kLocal :: listed true (nameItems text names)
      ++ if values.isEmpty then [] else .symbol .assign :: listed true (Expr.kindsAll text values)
  | .call _ call => call.kinds text
  | .cond _ condition body rest =>
    .keyword .kIf :: condition.kinds text ++ .keyword .kThen :: body.kinds text true ++ rest.kinds text
  | .whileLoop _ condition body =>
    .keyword .kWhile :: condition.kinds text ++ .keyword .kDo :: body.kinds text true ++ [.keyword .kEnd]
  | .doBlock _ body => .keyword .kDo :: body.kinds text true ++ [.keyword .kEnd]
  | .breakLoop _ => [.keyword .kBreak]
  | .repeatLoop _ body condition =>
    .keyword .kRepeat :: body.kinds text true ++ .keyword .kUntil :: condition.kinds text
  | .function _ name parameters body =>
    .keyword .kFunction :: name.kinds text ++ functionKinds (parameters.items text) (body.kinds text true)
  | .localFunction _ name parameters body =>
    .keyword .kLocal :: .keyword .kFunction :: .name (text name)
      :: functionKinds (parameters.items text) (body.kinds text true)
  | .numericFor _ counter first limit none body =>
    .keyword .kFor :: .name (text counter) :: .symbol .assign :: first.kinds text ++ .symbol .comma :: limit.kinds text
      ++ .keyword .kDo :: body.kinds text true ++ [.keyword .kEnd]
  | .numericFor _ counter first limit (some step) body =>
    .keyword .kFor :: .name (text counter) :: .symbol .assign :: first.kinds text ++ .symbol .comma :: limit.kinds text
      ++ .symbol .comma :: step.kinds text ++ .keyword .kDo :: body.kinds text true ++ [.keyword .kEnd]
  | .genericFor _ names iterators body =>
    .keyword .kFor :: listed true (nameItems text names) ++ .keyword .kIn :: listed true (Expr.kindsAll text iterators)
      ++ .keyword .kDo :: body.kinds text true ++ [.keyword .kEnd]
  | .label _ name => [.symbol .colonColon, .name name.text, .symbol .colonColon]
  | .goto _ name => [.keyword .kGoto, .name name.text]

/-- What follows the first branch of a conditional, with the end of the conditional. -/
def Else.kinds (text : ι → String) : Else ι → List Kind
  | .none => [.keyword .kEnd]
  | .otherwise _ body => .keyword .kElse :: body.kinds text true ++ [.keyword .kEnd]
  | .elseif _ condition body rest =>
    .keyword .kElseif :: condition.kinds text ++ .keyword .kThen :: body.kinds text true ++ rest.kinds text

/-- The statements of a block, behind others if they are not the first. -/
def Block.kinds (text : ι → String) (isFirst : Bool) : Block ι → List Kind
  | .nil => []
  | .ret _ values => .keyword .kReturn :: listed true (Expr.kindsAll text values)
  | .cons head tail => separated isFirst (head.kinds text) ++ tail.kinds text false

end

@[simp] theorem endsClosed_concat (kinds : List Kind) (last : Kind) : endsClosed (kinds ++ [last]) = last.closes := by
  simp [endsClosed]

theorem endsClosed_cons (first : Kind) {kinds : List Kind} (some : kinds ≠ []) :
    endsClosed (first :: kinds) = endsClosed kinds := by
  cases kinds with
  | nil => exact absurd rfl some
  | cons second rest => simp [endsClosed]

theorem endsClosed_append_of_ne_nil (first : List Kind) {second : List Kind} (some : second ≠ []) :
    endsClosed (first ++ second) = endsClosed second := by
  induction first with
  | nil => rfl
  | cons kind rest ih => rw [List.cons_append, endsClosed_cons _ (by simp [some]), ih]

theorem UnaryOp.token_opens (operator : UnaryOp) : operator.token.opens = true := by cases operator <;> rfl

theorem LiteralKind.token_opens (kind : LiteralKind) (raw : String) : (kind.token raw).opens = true := by
  cases kind <;> simp only [LiteralKind.token] <;> first | rfl | (split <;> rfl)

theorem LiteralKind.token_closes (kind : LiteralKind) (raw : String) : (kind.token raw).closes = true := by
  cases kind <;> rfl

/-- There is a first token, and it satisfies a condition. -/
def HeadIs (condition : Kind → Bool) (kinds : List Kind) : Prop :=
  ∃ first rest, kinds = first :: rest ∧ condition first = true

theorem HeadIs.append {condition : Kind → Bool} {kinds : List Kind} (head : HeadIs condition kinds)
    (more : List Kind) : HeadIs condition (kinds ++ more) := by
  obtain ⟨first, rest, rfl, holds⟩ := head
  exact ⟨first, rest ++ more, rfl, holds⟩

theorem HeadIs.ne_nil {condition : Kind → Bool} {kinds : List Kind} (head : HeadIs condition kinds) :
    kinds ≠ [] := by
  obtain ⟨first, rest, rfl, _⟩ := head
  simp

theorem HeadIs.imp {condition weaker : Kind → Bool} {kinds : List Kind} (head : HeadIs condition kinds)
    (weaken : ∀ kind, condition kind = true → weaker kind = true) : HeadIs weaker kinds := by
  obtain ⟨first, rest, same, holds⟩ := head
  exact ⟨first, rest, same, weaken first holds⟩

theorem HeadIs.startsOpening {kinds : List Kind} (head : HeadIs Kind.opens kinds) : startsOpening kinds = true := by
  obtain ⟨first, rest, rfl, opens⟩ := head
  simpa [LuaMinifier.startsOpening] using opens

theorem Site.enclose_head {condition : Kind → Bool} {site : Site} {kinds : List Kind}
    (paren : condition (.symbol .leftParen) = true) (head : HeadIs condition kinds) :
    HeadIs condition (site.enclose kinds) := by
  unfold Site.enclose
  split
  · exact ⟨_, _, rfl, paren⟩
  · exact head

theorem Site.enclose_closed {site : Site} {kinds : List Kind} (closed : endsClosed kinds = true) :
    endsClosed (site.enclose kinds) = true := by
  unfold Site.enclose
  split
  · exact endsClosed_concat ..
  · exact closed

namespace Expr

theorem kinds_head (text : ι → String) (expression : Expr ι) : HeadIs Kind.opens (expression.kinds text) := by
  cases expression with
  | identifier => exact Site.enclose_head rfl ⟨_, _, rfl, rfl⟩
  | literal _ kind raw => exact Site.enclose_head rfl ⟨_, _, rfl, kind.token_opens raw⟩
  | binary _ _ left _ => exact Site.enclose_head rfl ((kinds_head text left).append _)
  | unary _ operator _ => exact Site.enclose_head rfl ⟨_, _, rfl, operator.token_opens⟩
  | call _ callee _ => exact Site.enclose_head rfl (((kinds_head text callee).append _).append _)
  | callTable _ callee _ _ => exact Site.enclose_head rfl ((kinds_head text callee).append _)
  | callString _ callee _ _ => exact Site.enclose_head rfl ((kinds_head text callee).append _)
  | index _ base _ => exact Site.enclose_head rfl (((kinds_head text base).append _).append _)
  | member _ base _ _ => exact Site.enclose_head rfl ((kinds_head text base).append _)
  | function => exact Site.enclose_head rfl ⟨_, _, rfl, rfl⟩
  | table => exact Site.enclose_head rfl ⟨_, _, rfl, rfl⟩

theorem kinds_ne_nil (text : ι → String) (expression : Expr ι) : expression.kinds text ≠ [] :=
  (expression.kinds_head text).ne_nil

theorem kinds_closed (text : ι → String) (expression : Expr ι) : endsClosed (expression.kinds text) = true := by
  cases expression with
  | identifier => exact Site.enclose_closed rfl
  | literal _ kind raw => exact Site.enclose_closed (kind.token_closes raw)
  | binary _ _ _ right =>
      refine Site.enclose_closed ?_
      rw [endsClosed_append_of_ne_nil _ (by simp), endsClosed_cons _ (right.kinds_ne_nil text)]
      exact kinds_closed text right
  | unary _ _ operand =>
      refine Site.enclose_closed ?_
      rw [endsClosed_cons _ (operand.kinds_ne_nil text)]
      exact kinds_closed text operand
  | callTable =>
      refine Site.enclose_closed ?_
      rw [endsClosed_append_of_ne_nil _ (by simp [braces])]
      exact endsClosed_concat ..
  | member =>
      refine Site.enclose_closed ?_
      rw [endsClosed_append_of_ne_nil _ (by simp)]
      rfl
  | function =>
      refine Site.enclose_closed ?_
      rw [endsClosed_cons _ (by simp [functionKinds])]
      exact endsClosed_concat ..
  | call => exact Site.enclose_closed (endsClosed_concat ..)
  | callString => exact Site.enclose_closed (endsClosed_concat ..)
  | index => exact Site.enclose_closed (endsClosed_concat ..)
  | table => exact Site.enclose_closed (endsClosed_concat ..)

end Expr
end LuaMinifier
