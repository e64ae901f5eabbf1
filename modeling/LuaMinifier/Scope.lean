import LuaMinifier.Ast.Occurrences

/-!
Scopes: which names are local where. A tree of names is walked in the order in which Lua makes names visible, with
the scopes that are open kept on a stack, and every occurrence is marked as local or global.
-/

namespace LuaMinifier

/-- A name and whether it means a local variable. -/
structure Identifier where
  name : String
  isLocal : Bool
  position : Position
deriving DecidableEq, Repr

/-- The names declared in each open scope, the innermost scope first. -/
structure Scope where
  frames : List (List String)
deriving DecidableEq, Repr

namespace Scope

/-- A text starts with one open scope and nothing in it. -/
def empty : Scope := ⟨[[]]⟩

def enter (scope : Scope) : Scope := ⟨[] :: scope.frames⟩

def leave (scope : Scope) : Scope := ⟨scope.frames.tail⟩

def declare (name : String) (scope : Scope) : Scope :=
  match scope.frames with
  | [] => ⟨[[name]]⟩
  | frame :: outer => ⟨frame.insert name :: outer⟩

def declares (scope : Scope) (name : String) : Bool := scope.frames.any (·.contains name)

end Scope

/-- Work done while scopes open and close. -/
abbrev Resolver := StateM Scope

namespace Resolver

/-- A place where a name is bound: always local. It is not visible yet. -/
def binding (name : Name) : Identifier := ⟨name.text, true, name.position⟩

def reference (name : Name) : Resolver Identifier :=
  return ⟨name.text, (← get).declares name.text, name.position⟩

def declareAll (names : List Name) : Resolver Unit :=
  modify fun scope => names.foldl (fun scope name => scope.declare name.text) scope

def inScope {α : Type} (work : Resolver α) : Resolver α := do
  modify Scope.enter
  let result ← work
  modify Scope.leave
  return result

/-- The parameters of a function as binding places. -/
def boundParameters (parameters : Parameters Name) : Parameters Identifier :=
  ⟨parameters.names.map binding, parameters.vararg⟩

/-- A method has a parameter of its own that is not written. -/
def declareSelf (name : FunctionName Name) : Resolver Unit :=
  if name.method.isSome then modify (Scope.declare "self") else pure ()

end Resolver

open Resolver

mutual

def Expr.resolve : Expr Name → Resolver (Expr Identifier)
  | .identifier site name => return .identifier site (← reference name)
  | .literal site kind raw => return .literal site kind raw
  | .binary site operator left right => return .binary site operator (← left.resolve) (← right.resolve)
  | .unary site operator operand => return .unary site operator (← operand.resolve)
  | .call site callee arguments => return .call site (← callee.resolve) (← Expr.resolveAll arguments)
  | .callTable site callee position fields =>
    return .callTable site (← callee.resolve) position (← Field.resolveAll fields)
  | .callString site callee position raw => return .callString site (← callee.resolve) position raw
  | .index site base key => return .index site (← base.resolve) (← key.resolve)
  | .member site base access name => return .member site (← base.resolve) access name
  | .function site parameters body => do
    let resolved ← inScope do
      declareAll parameters.names
      body.resolve
    return .function site (boundParameters parameters) resolved
  | .table site fields => return .table site (← Field.resolveAll fields)

def Expr.resolveAll : List (Expr Name) → Resolver (List (Expr Identifier))
  | [] => return []
  | expression :: rest => return (← expression.resolve) :: (← Expr.resolveAll rest)

def Field.resolve : Field Name → Resolver (Field Identifier)
  | .keyed key value => return .keyed (← key.resolve) (← value.resolve)
  | .named name value => return .named name (← value.resolve)
  | .item value => return .item (← value.resolve)

def Field.resolveAll : List (Field Name) → Resolver (List (Field Identifier))
  | [] => return []
  | field :: rest => return (← field.resolve) :: (← Field.resolveAll rest)

def Stat.resolve : Stat Name → Resolver (Stat Identifier)
  | .assign position targets values =>
    return .assign position (← Expr.resolveAll targets) (← Expr.resolveAll values)
  -- The values do not see the new names.
  | .localVars position names values => do
    let resolved ← Expr.resolveAll values
    declareAll names
    return .localVars position (names.map binding) resolved
  | .call position call => return .call position (← call.resolve)
  | .cond position condition body rest =>
    return .cond position (← condition.resolve) (← inScope body.resolve) (← rest.resolve)
  | .whileLoop position condition body =>
    return .whileLoop position (← condition.resolve) (← inScope body.resolve)
  | .doBlock position body => return .doBlock position (← inScope body.resolve)
  | .breakLoop position => return .breakLoop position
  -- The condition sees the locals of the body.
  | .repeatLoop position body condition =>
    inScope do return .repeatLoop position (← body.resolve) (← condition.resolve)
  | .function position name parameters body => do
    let root ← reference name.root
    let resolved ← inScope do
      declareSelf name
      declareAll parameters.names
      body.resolve
    return .function position ⟨root, name.fields, name.method⟩ (boundParameters parameters) resolved
  -- The function sees itself.
  | .localFunction position name parameters body => do
    declareAll [name]
    let resolved ← inScope do
      declareAll parameters.names
      body.resolve
    return .localFunction position (binding name) (boundParameters parameters) resolved
  | .numericFor position counter first limit none body => do
    let first ← first.resolve
    let limit ← limit.resolve
    let resolved ← inScope do
      declareAll [counter]
      body.resolve
    return .numericFor position (binding counter) first limit none resolved
  | .numericFor position counter first limit (some step) body => do
    let first ← first.resolve
    let limit ← limit.resolve
    let step ← step.resolve
    let resolved ← inScope do
      declareAll [counter]
      body.resolve
    return .numericFor position (binding counter) first limit (some step) resolved
  | .genericFor position names iterators body => do
    let iterators ← Expr.resolveAll iterators
    let resolved ← inScope do
      declareAll names
      body.resolve
    return .genericFor position (names.map binding) iterators resolved
  | .label position name => return .label position name
  | .goto position name => return .goto position name

def Else.resolve : Else Name → Resolver (Else Identifier)
  | .none => return .none
  | .otherwise position body => return .otherwise position (← inScope body.resolve)
  | .elseif position condition body rest =>
    return .elseif position (← condition.resolve) (← inScope body.resolve) (← rest.resolve)

def Block.resolve : Block Name → Resolver (Block Identifier)
  | .nil => return .nil
  | .ret position values => return .ret position (← Expr.resolveAll values)
  | .cons head tail => return .cons (← head.resolve) (← tail.resolve)

end

end LuaMinifier
