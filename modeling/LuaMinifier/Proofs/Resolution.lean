import LuaMinifier.Proofs.ScopeWalk

/-!
Resolving names is a walk whose state is the stack of open scopes. Scopes that are left are as they were before, so
the walk can go on with the state from which it entered.
-/

namespace LuaMinifier

/-- The walk that resolves names. -/
def Scope.resolving : Scoping Name Identifier String Scope where
  bind name scope := (Resolver.binding name, name.text, scope)
  use name scope := ⟨name.text, scope.declares name.text, name.position⟩
  declare := Scope.declare
  declareSelf := Scope.declare "self"
  enter := Scope.enter
  leave outer _ := outer

namespace Scope

theorem tail_declare (name : String) (scope : Scope) : (scope.declare name).frames.tail = scope.frames.tail := by
  obtain ⟨frames⟩ := scope
  cases frames <;> rfl

theorem bindAll_resolving (names : List Name) (scope : Scope) :
    resolving.bindAll names scope = (names.map Resolver.binding, names.map Name.text, scope) := by
  induction names with
  | nil => rfl
  | cons name rest ih =>
      rw [Scoping.bindAll]
      dsimp only [resolving] at ih ⊢
      rw [ih]
      rfl

theorem tail_declareAll (names : List String) (scope : Scope) :
    (resolving.declareAll names scope).frames.tail = scope.frames.tail := by
  induction names generalizing scope with
  | nil => rfl
  | cons name rest ih => exact (ih _).trans (tail_declare name scope)

end Scope

section Resolution

variable {α β : Type}

theorem Resolver.bind_apply (work : Resolver α) (next : α → Resolver β) (scope : Scope) :
    (work >>= next) scope = next (work scope).1 (work scope).2 := rfl

theorem Resolver.pure_apply (value : α) (scope : Scope) : (pure value : Resolver α) scope = (value, scope) := rfl

theorem Resolver.reference_apply (name : Name) (scope : Scope) :
    Resolver.reference name scope = (Scope.resolving.use name scope, scope) := rfl

theorem Resolver.inScope_apply (work : Resolver α) (scope : Scope) :
    Resolver.inScope work scope = ((work scope.enter).1, (work scope.enter).2.leave) := rfl

theorem Resolver.declareAll_apply (names : List Name) (scope : Scope) :
    Resolver.declareAll names scope = ((), Scope.resolving.declareAll (names.map Name.text) scope) := by
  simp only [Scoping.declareAll, List.foldl_map]
  rfl

theorem Resolver.declareSelf_apply (name : FunctionName Name) (scope : Scope) :
    Resolver.declareSelf name scope =
      ((), if name.method.isSome then Scope.resolving.declareSelf scope else scope) := by
  unfold Resolver.declareSelf
  split <;> rfl

theorem Scope.leave_of_tail {scope inner : Scope} (tail : inner.frames.tail = scope.frames) :
    inner.leave = scope := by simp [Scope.leave, tail]

theorem Scope.inScope_resolving {work : Resolver α} {walked : Scope → α × Scope}
    (inner : ∀ scope, work scope = walked scope ∧ (walked scope).2.frames.tail = scope.frames.tail) (scope : Scope) :
    Resolver.inScope work scope = resolving.inScope walked scope ∧ (resolving.inScope walked scope).2 = scope := by
  obtain ⟨same, tail⟩ := inner scope.enter
  refine ⟨?_, rfl⟩
  rw [Resolver.inScope_apply, same, leave_of_tail tail]
  rfl

theorem Scope.declaring_resolving (names : List Name) {body : Block Name}
    (inner : ∀ scope, body.resolve scope = body.walk resolving scope ∧
      (body.walk resolving scope).2.frames.tail = scope.frames.tail) (scope : Scope) :
    (do Resolver.declareAll names; body.resolve) scope =
        body.walk resolving (resolving.declareAll (names.map Name.text) scope) ∧
      (body.walk resolving (resolving.declareAll (names.map Name.text) scope)).2.frames.tail = scope.frames.tail := by
  obtain ⟨same, tail⟩ := inner (resolving.declareAll (names.map Name.text) scope)
  rw [tail_declareAll] at tail
  exact ⟨by rw [Resolver.bind_apply, Resolver.declareAll_apply]; exact same, tail⟩

/-- The parameters and the body of a function, whose scope was opened with or without a parameter of its own. -/
theorem Scope.function_resolving (method : Bool) (parameters : Parameters Name) {body : Block Name}
    (inner : ∀ scope, body.resolve scope = body.walk resolving scope ∧
      (body.walk resolving scope).2.frames.tail = scope.frames.tail) (scope : Scope) :
    let opened := if method then resolving.declareSelf scope.enter else scope.enter
    let resolved := body.resolve (resolving.declareAll (parameters.names.map Name.text) opened)
    resolving.function method parameters (body.walk resolving) scope =
        ((Resolver.boundParameters parameters, resolved.1), scope) ∧ resolved.2.leave = scope := by
  intro opened resolved
  obtain ⟨same, tail⟩ := inner (resolving.declareAll (parameters.names.map Name.text) opened)
  have outer : opened.frames.tail = scope.frames := by
    cases method with
    | true => exact tail_declare "self" scope.enter
    | false => rfl
  rw [← same, tail_declareAll, outer] at tail
  refine ⟨?_, leave_of_tail tail⟩
  simp only [Scoping.function, Scoping.inScope, bindAll_resolving, Resolver.boundParameters, resolved, same]
  rfl

mutual

theorem Expr.resolve_eq : ∀ (expression : Expr Name) (scope : Scope),
    expression.resolve scope = expression.walk Scope.resolving scope ∧
      (expression.walk Scope.resolving scope).2 = scope
  | .identifier .., _ => ⟨rfl, rfl⟩
  | .literal .., _ => ⟨rfl, rfl⟩
  | .binary _ _ left right, scope => by
    obtain ⟨first, same⟩ := Expr.resolve_eq left scope
    obtain ⟨second, behind⟩ := Expr.resolve_eq right scope
    simp only [Expr.resolve, Expr.walk, Resolver.bind_apply, Resolver.pure_apply, first, same, second, behind, and_self]
  | .unary _ _ operand, scope => by
    obtain ⟨first, same⟩ := Expr.resolve_eq operand scope
    simp only [Expr.resolve, Expr.walk, Resolver.bind_apply, Resolver.pure_apply, first, same, and_self]
  | .call _ callee arguments, scope => by
    obtain ⟨first, same⟩ := Expr.resolve_eq callee scope
    obtain ⟨second, behind⟩ := Expr.resolveAll_eq arguments scope
    simp only [Expr.resolve, Expr.walk, Resolver.bind_apply, Resolver.pure_apply, first, same, second, behind, and_self]
  | .callTable _ callee _ fields, scope => by
    obtain ⟨first, same⟩ := Expr.resolve_eq callee scope
    obtain ⟨second, behind⟩ := Field.resolveAll_eq fields scope
    simp only [Expr.resolve, Expr.walk, Resolver.bind_apply, Resolver.pure_apply, first, same, second, behind, and_self]
  | .callString _ callee _ _, scope => by
    obtain ⟨first, same⟩ := Expr.resolve_eq callee scope
    simp only [Expr.resolve, Expr.walk, Resolver.bind_apply, Resolver.pure_apply, first, same, and_self]
  | .index _ base key, scope => by
    obtain ⟨first, same⟩ := Expr.resolve_eq base scope
    obtain ⟨second, behind⟩ := Expr.resolve_eq key scope
    simp only [Expr.resolve, Expr.walk, Resolver.bind_apply, Resolver.pure_apply, first, same, second, behind, and_self]
  | .member _ base _ _, scope => by
    obtain ⟨first, same⟩ := Expr.resolve_eq base scope
    simp only [Expr.resolve, Expr.walk, Resolver.bind_apply, Resolver.pure_apply, first, same, and_self]
  | .function _ parameters body, scope => by
    obtain ⟨walked, left⟩ := Scope.function_resolving false parameters (Block.resolve_eq body) scope
    simp only [Bool.false_eq_true, ↓reduceIte] at walked left
    simp only [Expr.resolve, Expr.walk, Resolver.bind_apply, Resolver.pure_apply, Resolver.inScope_apply,
      Resolver.declareAll_apply, walked, left, and_self]
  | .table _ fields, scope => by
    obtain ⟨first, same⟩ := Field.resolveAll_eq fields scope
    simp only [Expr.resolve, Expr.walk, Resolver.bind_apply, Resolver.pure_apply, first, same, and_self]

theorem Expr.resolveAll_eq : ∀ (expressions : List (Expr Name)) (scope : Scope),
    Expr.resolveAll expressions scope = Expr.walkAll Scope.resolving expressions scope ∧
      (Expr.walkAll Scope.resolving expressions scope).2 = scope
  | [], _ => ⟨rfl, rfl⟩
  | expression :: rest, scope => by
    obtain ⟨first, same⟩ := Expr.resolve_eq expression scope
    obtain ⟨second, behind⟩ := Expr.resolveAll_eq rest scope
    simp only [Expr.resolveAll, Expr.walkAll, Resolver.bind_apply, Resolver.pure_apply, first, same, second, behind, and_self]

theorem Field.resolve_eq : ∀ (field : Field Name) (scope : Scope),
    field.resolve scope = field.walk Scope.resolving scope ∧ (field.walk Scope.resolving scope).2 = scope
  | .keyed key value, scope => by
    obtain ⟨first, same⟩ := Expr.resolve_eq key scope
    obtain ⟨second, behind⟩ := Expr.resolve_eq value scope
    simp only [Field.resolve, Field.walk, Resolver.bind_apply, Resolver.pure_apply, first, same, second, behind, and_self]
  | .named _ value, scope => by
    obtain ⟨first, same⟩ := Expr.resolve_eq value scope
    simp only [Field.resolve, Field.walk, Resolver.bind_apply, Resolver.pure_apply, first, same, and_self]
  | .item value, scope => by
    obtain ⟨first, same⟩ := Expr.resolve_eq value scope
    simp only [Field.resolve, Field.walk, Resolver.bind_apply, Resolver.pure_apply, first, same, and_self]

theorem Field.resolveAll_eq : ∀ (fields : List (Field Name)) (scope : Scope),
    Field.resolveAll fields scope = Field.walkAll Scope.resolving fields scope ∧
      (Field.walkAll Scope.resolving fields scope).2 = scope
  | [], _ => ⟨rfl, rfl⟩
  | field :: rest, scope => by
    obtain ⟨first, same⟩ := Field.resolve_eq field scope
    obtain ⟨second, behind⟩ := Field.resolveAll_eq rest scope
    simp only [Field.resolveAll, Field.walkAll, Resolver.bind_apply, Resolver.pure_apply, first, same, second, behind, and_self]

theorem Stat.resolve_eq : ∀ (statement : Stat Name) (scope : Scope),
    statement.resolve scope = statement.walk Scope.resolving scope ∧
      (statement.walk Scope.resolving scope).2.frames.tail = scope.frames.tail
  | .assign _ targets values, scope => by
    obtain ⟨first, same⟩ := Expr.resolveAll_eq targets scope
    obtain ⟨second, behind⟩ := Expr.resolveAll_eq values scope
    simp only [Stat.resolve, Stat.walk, Resolver.bind_apply, Resolver.pure_apply, first, same, second, behind, and_self]
  | .localVars _ names values, scope => by
    obtain ⟨first, same⟩ := Expr.resolveAll_eq values scope
    simp only [Stat.resolve, Stat.walk, Resolver.bind_apply, Resolver.pure_apply, Resolver.declareAll_apply,
      Scope.bindAll_resolving, first, same, Scope.tail_declareAll, and_self]
  | .call _ call, scope => by
    obtain ⟨first, same⟩ := Expr.resolve_eq call scope
    simp only [Stat.resolve, Stat.walk, Resolver.bind_apply, Resolver.pure_apply, first, same, and_self]
  | .cond _ condition body rest, scope => by
    obtain ⟨first, same⟩ := Expr.resolve_eq condition scope
    obtain ⟨second, left⟩ := Scope.inScope_resolving (Block.resolve_eq body) scope
    obtain ⟨third, behind⟩ := Else.resolve_eq rest scope
    simp only [Stat.resolve, Stat.walk, Resolver.bind_apply, Resolver.pure_apply, first, same, second, left, third,
      behind, and_self]
  | .whileLoop _ condition body, scope => by
    obtain ⟨first, same⟩ := Expr.resolve_eq condition scope
    obtain ⟨second, left⟩ := Scope.inScope_resolving (Block.resolve_eq body) scope
    simp only [Stat.resolve, Stat.walk, Resolver.bind_apply, Resolver.pure_apply, first, same, second, left, and_self]
  | .doBlock _ body, scope => by
    obtain ⟨first, left⟩ := Scope.inScope_resolving (Block.resolve_eq body) scope
    simp only [Stat.resolve, Stat.walk, Resolver.bind_apply, Resolver.pure_apply, first, left, and_self]
  | .breakLoop _, _ => ⟨rfl, rfl⟩
  | .repeatLoop _ body condition, scope => by
    obtain ⟨first, tail⟩ := Block.resolve_eq body scope.enter
    obtain ⟨second, same⟩ := Expr.resolve_eq condition (body.walk Scope.resolving scope.enter).2
    have left : (body.walk Scope.resolving scope.enter).2.leave = scope := Scope.leave_of_tail tail
    simp only [Stat.resolve, Stat.walk, Resolver.bind_apply, Resolver.pure_apply, Resolver.inScope_apply, first, second,
      same, left, Scoping.inScope]
    exact ⟨rfl, rfl⟩
  | .function _ name parameters body, scope => by
    obtain ⟨walked, left⟩ := Scope.function_resolving name.method.isSome parameters (Block.resolve_eq body) scope
    simp only [Stat.resolve, Stat.walk, Resolver.bind_apply, Resolver.pure_apply, Resolver.reference_apply,
      Resolver.inScope_apply, Resolver.declareSelf_apply, Resolver.declareAll_apply, walked, left, and_self]
  | .localFunction _ name parameters body, scope => by
    obtain ⟨walked, left⟩ := Scope.function_resolving false parameters (Block.resolve_eq body) (scope.declare name.text)
    simp only [Bool.false_eq_true, ↓reduceIte] at walked left
    have declared : Scope.resolving.declareAll [name.text] scope = scope.declare name.text := rfl
    have bound : Scope.resolving.bind name scope = (Resolver.binding name, name.text, scope) := rfl
    have again : Scope.resolving.declare name.text scope = scope.declare name.text := rfl
    simp only [Stat.resolve, Stat.walk, Resolver.bind_apply, Resolver.pure_apply, Resolver.inScope_apply,
      Resolver.declareAll_apply, List.map_cons, List.map_nil, declared, bound, again, walked, left,
      Scope.tail_declare, and_self]
  | .numericFor _ counter start limit none body, scope => by
    obtain ⟨first, same⟩ := Expr.resolve_eq start scope
    obtain ⟨second, further⟩ := Expr.resolve_eq limit scope
    obtain ⟨inner, left⟩ := Scope.inScope_resolving (Scope.declaring_resolving [counter] (Block.resolve_eq body)) scope
    have bound : Scope.resolving.bind counter scope = (Resolver.binding counter, counter.text, scope) := rfl
    simp only [Stat.resolve, Stat.walk, bound, first, same, second, further, Resolver.bind_apply, Resolver.pure_apply]
    exact ⟨by rw [inner]; rfl, by rfl⟩
  | .numericFor _ counter start limit (some step) body, scope => by
    obtain ⟨first, same⟩ := Expr.resolve_eq start scope
    obtain ⟨second, further⟩ := Expr.resolve_eq limit scope
    obtain ⟨third, behind⟩ := Expr.resolve_eq step scope
    obtain ⟨inner, left⟩ := Scope.inScope_resolving (Scope.declaring_resolving [counter] (Block.resolve_eq body)) scope
    have bound : Scope.resolving.bind counter scope = (Resolver.binding counter, counter.text, scope) := rfl
    simp only [Stat.resolve, Stat.walk, bound, first, same, second, further, third, behind, Resolver.bind_apply,
      Resolver.pure_apply]
    exact ⟨by rw [inner]; rfl, by rfl⟩
  | .genericFor _ names iterators body, scope => by
    obtain ⟨first, same⟩ := Expr.resolveAll_eq iterators scope
    obtain ⟨inner, left⟩ := Scope.inScope_resolving (Scope.declaring_resolving names (Block.resolve_eq body)) scope
    simp only [Stat.resolve, Stat.walk, Resolver.bind_apply, Resolver.pure_apply, Scope.bindAll_resolving, first, same,
      inner, left, and_self]
  | .label .., _ => ⟨rfl, rfl⟩
  | .goto .., _ => ⟨rfl, rfl⟩

theorem Else.resolve_eq : ∀ (rest : Else Name) (scope : Scope),
    rest.resolve scope = rest.walk Scope.resolving scope ∧ (rest.walk Scope.resolving scope).2 = scope
  | .none, _ => ⟨rfl, rfl⟩
  | .otherwise _ body, scope => by
    obtain ⟨first, left⟩ := Scope.inScope_resolving (Block.resolve_eq body) scope
    simp only [Else.resolve, Else.walk, Resolver.bind_apply, Resolver.pure_apply, first, left, and_self]
  | .elseif _ condition body rest, scope => by
    obtain ⟨first, same⟩ := Expr.resolve_eq condition scope
    obtain ⟨second, left⟩ := Scope.inScope_resolving (Block.resolve_eq body) scope
    obtain ⟨third, behind⟩ := Else.resolve_eq rest scope
    simp only [Else.resolve, Else.walk, Resolver.bind_apply, Resolver.pure_apply, first, same, second, left, third,
      behind, and_self]

theorem Block.resolve_eq : ∀ (body : Block Name) (scope : Scope),
    body.resolve scope = body.walk Scope.resolving scope ∧
      (body.walk Scope.resolving scope).2.frames.tail = scope.frames.tail
  | .nil, _ => ⟨rfl, rfl⟩
  | .ret _ values, scope => by
    obtain ⟨first, same⟩ := Expr.resolveAll_eq values scope
    simp only [Block.resolve, Block.walk, Resolver.bind_apply, Resolver.pure_apply, first, same, and_self]
  | .cons head tail, scope => by
    obtain ⟨first, outer⟩ := Stat.resolve_eq head scope
    obtain ⟨second, inner⟩ := Block.resolve_eq tail (head.walk Scope.resolving scope).2
    simp only [Block.resolve, Block.walk, Resolver.bind_apply, Resolver.pure_apply, first, second, inner, outer, and_self]

end
end Resolution

end LuaMinifier
