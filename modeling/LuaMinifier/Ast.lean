import LuaMinifier.Operator

/-!
Syntax trees of Lua 5.3. A tree is built over a type of occurrences: what stands for each variable, at the places
where it is bound and where it is used. Names as read, resolved identifiers and printed spellings are such types.
-/

namespace LuaMinifier

/-- A name as it stands in the source. -/
structure Name where
  text : String
  position : Position
deriving DecidableEq, Repr

/-- Where an expression stands, and whether it was written in parentheses. -/
structure Site where
  position : Position
  parenthesized : Bool
deriving DecidableEq, Repr

def Site.plain (position : Position) : Site := ⟨position, false⟩

inductive LiteralKind
  | string | number | boolean | nil | vararg
deriving DecidableEq, Repr

/-- How a field or a method is named. -/
inductive Access
  | dot | colon
deriving DecidableEq, Repr

def Access.text : Access → String
  | .dot => "."
  | .colon => ":"

/-- The parameters of a function; only the last one can stand for all further arguments. -/
structure Parameters (ι : Type) where
  names : List ι
  vararg : Option Position
deriving DecidableEq, Repr

/-- The name in a function statement: a variable, fields below it, and a method at the end. -/
structure FunctionName (ι : Type) where
  root : ι
  fields : List Name
  method : Option Name
deriving DecidableEq, Repr

mutual

inductive Expr (ι : Type)
  | identifier (site : Site) (occurrence : ι)
  | literal (site : Site) (kind : LiteralKind) (raw : String)
  | binary (site : Site) (operator : BinaryOp) (left right : Expr ι)
  | unary (site : Site) (operator : UnaryOp) (operand : Expr ι)
  | call (site : Site) (callee : Expr ι) (arguments : List (Expr ι))
  | callTable (site : Site) (callee : Expr ι) (position : Position) (fields : List (Field ι))
  | callString (site : Site) (callee : Expr ι) (position : Position) (raw : String)
  | index (site : Site) (base key : Expr ι)
  | member (site : Site) (base : Expr ι) (access : Access) (name : Name)
  | function (site : Site) (parameters : Parameters ι) (body : Block ι)
  | table (site : Site) (fields : List (Field ι))

inductive Field (ι : Type)
  | keyed (key value : Expr ι)
  | named (name : Name) (value : Expr ι)
  | item (value : Expr ι)

inductive Stat (ι : Type)
  | assign (position : Position) (targets values : List (Expr ι))
  | localVars (position : Position) (names : List ι) (values : List (Expr ι))
  | call (position : Position) (call : Expr ι)
  | cond (position : Position) (condition : Expr ι) (body : Block ι) (rest : Else ι)
  | whileLoop (position : Position) (condition : Expr ι) (body : Block ι)
  | doBlock (position : Position) (body : Block ι)
  | breakLoop (position : Position)
  | repeatLoop (position : Position) (body : Block ι) (condition : Expr ι)
  | function (position : Position) (name : FunctionName ι) (parameters : Parameters ι) (body : Block ι)
  | localFunction (position : Position) (name : ι) (parameters : Parameters ι) (body : Block ι)
  | numericFor (position : Position) (counter : ι) (first limit : Expr ι) (step : Option (Expr ι)) (body : Block ι)
  | genericFor (position : Position) (names : List ι) (iterators : List (Expr ι)) (body : Block ι)
  | label (position : Position) (name : Name)
  | goto (position : Position) (name : Name)

/-- What follows the first branch of a conditional. -/
inductive Else (ι : Type)
  | none
  | otherwise (position : Position) (body : Block ι)
  | elseif (position : Position) (condition : Expr ι) (body : Block ι) (rest : Else ι)

/-- Statements in order; a return can only be the last one. -/
inductive Block (ι : Type)
  | nil
  | ret (position : Position) (values : List (Expr ι))
  | cons (head : Stat ι) (tail : Block ι)

end

namespace Expr

variable {ι : Type}

def site : Expr ι → Site
  | .identifier site .. | .literal site .. | .binary site .. | .unary site .. | .call site ..
  | .callTable site .. | .callString site .. | .index site .. | .member site .. | .function site ..
  | .table site .. => site

def position (expression : Expr ι) : Position := expression.site.position

def parenthesize : Expr ι → Expr ι
  | .identifier site occurrence => .identifier { site with parenthesized := true } occurrence
  | .literal site kind raw => .literal { site with parenthesized := true } kind raw
  | .binary site operator left right => .binary { site with parenthesized := true } operator left right
  | .unary site operator operand => .unary { site with parenthesized := true } operator operand
  | .call site callee arguments => .call { site with parenthesized := true } callee arguments
  | .callTable site callee position fields =>
    .callTable { site with parenthesized := true } callee position fields
  | .callString site callee position raw => .callString { site with parenthesized := true } callee position raw
  | .index site base key => .index { site with parenthesized := true } base key
  | .member site base access name => .member { site with parenthesized := true } base access name
  | .function site parameters body => .function { site with parenthesized := true } parameters body
  | .table site fields => .table { site with parenthesized := true } fields

def isCall : Expr ι → Bool
  | .call .. | .callTable .. | .callString .. => true
  | _ => false

/-- A call or `...`: parentheses around it change the number of its values. -/
def isMultiValue : Expr ι → Bool
  | .literal _ .vararg _ => true
  | expression => expression.isCall

/-- A variable, an element or a field, without parentheses. -/
def isAssignable (expression : Expr ι) : Bool :=
  !expression.site.parenthesized &&
    match expression with
    | .identifier .. | .index .. | .member _ _ .dot _ => true
    | _ => false

end Expr
end LuaMinifier
