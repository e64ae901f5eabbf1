import LuaMinifier.Proofs.Reread
import LuaMinifier.Proofs.Respelling

/-!
Regrouping operands leaves names alone: a walk over the tree that printed text stands for meets the same occurrences
in the same scopes as a walk over the tree that was printed.
-/

namespace LuaMinifier

variable {ι κ δ σ : Type} (walk : Scoping ι κ δ σ)

namespace Expr

theorem walk_parenthesize (expression : Expr ι) (state : σ) :
    (expression.parenthesize.walk walk state).1.occurrences = (expression.walk walk state).1.occurrences ∧
      (expression.parenthesize.walk walk state).2 = (expression.walk walk state).2 := by
  cases expression <;> exact ⟨rfl, rfl⟩

theorem walk_graft (operator : BinaryOp) (left : Expr ι) : ∀ (right : Expr ι) (state : σ),
    ((graft operator left right).walk walk state).1.occurrences =
        (left.walk walk state).1.occurrences ++ (right.walk walk (left.walk walk state).2).1.occurrences ∧
      ((graft operator left right).walk walk state).2 = (right.walk walk (left.walk walk state).2).2
  | .binary site other nearest farthest, state => by
    simp only [graft]
    split
    · obtain ⟨names, behind⟩ := walk_graft operator left nearest state
      simp [Expr.walk, Expr.occurrences, names, behind]
    · simp [Expr.walk, Expr.occurrences]
  | .identifier .., _ | .literal .., _ | .unary .., _ | .call .., _ | .callTable .., _ | .callString .., _
  | .index .., _ | .member .., _ | .function .., _ | .table .., _ => by simp [graft, Expr.walk, Expr.occurrences]

theorem walk_asBase {printed original : Expr ι} {state : σ}
    (same : (printed.walk walk state).1.occurrences = (original.walk walk state).1.occurrences ∧
      (printed.walk walk state).2 = (original.walk walk state).2) :
    ((printed.asBase original).walk walk state).1.occurrences = (original.walk walk state).1.occurrences ∧
      ((printed.asBase original).walk walk state).2 = (original.walk walk state).2 := by
  unfold asBase
  split
  · obtain ⟨names, behind⟩ := printed.walk_parenthesize walk state
    exact ⟨names.trans same.1, behind.trans same.2⟩
  · exact same

end Expr

theorem Scoping.function_congr (method : Bool) (parameters : Parameters ι) {first second : σ → Block κ × σ}
    (same : ∀ state, (first state).1.occurrences = (second state).1.occurrences ∧ (first state).2 = (second state).2)
    (state : σ) :
    (walk.function method parameters first state).1.1 = (walk.function method parameters second state).1.1 ∧
      (walk.function method parameters first state).1.2.occurrences =
        (walk.function method parameters second state).1.2.occurrences ∧
      (walk.function method parameters first state).2 = (walk.function method parameters second state).2 := by
  simp [function, inScope, same]

mutual

theorem Expr.walk_reread : ∀ (expression : Expr ι) (context : Context) (state : σ),
    ((expression.reread context).walk walk state).1.occurrences = (expression.walk walk state).1.occurrences ∧
      ((expression.reread context).walk walk state).2 = (expression.walk walk state).2
  | .identifier .., _, _ => ⟨rfl, rfl⟩
  | .literal .., _, _ => ⟨rfl, rfl⟩
  | .binary site operator left right, context, state => by
    obtain ⟨names, behind⟩ := Expr.walk_graft walk operator (left.reread (.ofBinary operator .left))
      (right.reread (.ofBinary operator .right)) state
    obtain ⟨first, middle⟩ := Expr.walk_reread left (.ofBinary operator .left) state
    obtain ⟨second, last⟩ := Expr.walk_reread right (.ofBinary operator .right) (left.walk walk state).2
    rw [middle] at names behind
    rw [first, second] at names
    rw [last] at behind
    obtain ⟨_, rfl, ⟨_, same⟩ | ⟨_, same⟩⟩ := Expr.reread_binary_cases context site operator left right <;> rw [same]
    · obtain ⟨names', behind'⟩ := Expr.walk_parenthesize walk (Expr.graft operator _ _) state
      exact ⟨names'.trans names, behind'.trans behind⟩
    · exact ⟨names, behind⟩
  | .unary _ operator operand, _, state => Expr.walk_reread operand (.ofUnary operator) state
  | .call _ callee arguments, _, state => by
    obtain ⟨names, middle⟩ := Expr.walk_asBase walk (Expr.walk_reread callee .top state)
    obtain ⟨others, behind⟩ := Expr.walk_rereadAll arguments (callee.walk walk state).2
    simp [Expr.reread, Expr.walk, Expr.occurrences, names, middle, others, behind]
  | .callTable _ callee _ fields, _, state => by
    obtain ⟨names, middle⟩ := Expr.walk_asBase walk (Expr.walk_reread callee .top state)
    obtain ⟨others, behind⟩ := Field.walk_rereadAll fields (callee.walk walk state).2
    simp [Expr.reread, Expr.walk, Expr.occurrences, names, middle, others, behind]
  | .callString _ callee _ _, _, state => Expr.walk_asBase walk (Expr.walk_reread callee .top state)
  | .index _ base key, _, state => by
    obtain ⟨names, middle⟩ := Expr.walk_asBase walk (Expr.walk_reread base .top state)
    obtain ⟨others, behind⟩ := Expr.walk_reread key .top (base.walk walk state).2
    simp [Expr.reread, Expr.walk, Expr.occurrences, names, middle, others, behind]
  | .member _ base _ _, _, state => Expr.walk_asBase walk (Expr.walk_reread base .top state)
  | .function _ parameters body, _, state => by
    obtain ⟨bound, names, behind⟩ := walk.function_congr false parameters (Block.walk_reread body) state
    simp [Expr.reread, Expr.walk, Expr.occurrences, bound, names, behind]
  | .table _ fields, _, state => Field.walk_rereadAll fields state

theorem Expr.walk_rereadAll : ∀ (expressions : List (Expr ι)) (state : σ),
    Expr.occurrencesAll (Expr.walkAll walk (Expr.rereadAll expressions) state).1 =
        Expr.occurrencesAll (Expr.walkAll walk expressions state).1 ∧
      (Expr.walkAll walk (Expr.rereadAll expressions) state).2 = (Expr.walkAll walk expressions state).2
  | [], _ => ⟨rfl, rfl⟩
  | expression :: rest, state => by
    obtain ⟨names, middle⟩ := Expr.walk_reread expression .top state
    obtain ⟨others, behind⟩ := Expr.walk_rereadAll rest (expression.walk walk state).2
    simp [Expr.rereadAll, Expr.walkAll, Expr.occurrencesAll, names, middle, others, behind]

theorem Field.walk_reread : ∀ (field : Field ι) (state : σ),
    (field.reread.walk walk state).1.occurrences = (field.walk walk state).1.occurrences ∧
      (field.reread.walk walk state).2 = (field.walk walk state).2
  | .keyed key value, state => by
    obtain ⟨names, middle⟩ := Expr.walk_reread key .top state
    obtain ⟨others, behind⟩ := Expr.walk_reread value .top (key.walk walk state).2
    simp [Field.reread, Field.walk, Field.occurrences, names, middle, others, behind]
  | .named _ value, state => Expr.walk_reread value .top state
  | .item value, state => Expr.walk_reread value .top state

theorem Field.walk_rereadAll : ∀ (fields : List (Field ι)) (state : σ),
    Field.occurrencesAll (Field.walkAll walk (Field.rereadAll fields) state).1 =
        Field.occurrencesAll (Field.walkAll walk fields state).1 ∧
      (Field.walkAll walk (Field.rereadAll fields) state).2 = (Field.walkAll walk fields state).2
  | [], _ => ⟨rfl, rfl⟩
  | field :: rest, state => by
    obtain ⟨names, middle⟩ := Field.walk_reread field state
    obtain ⟨others, behind⟩ := Field.walk_rereadAll rest (field.walk walk state).2
    simp [Field.rereadAll, Field.walkAll, Field.occurrencesAll, names, middle, others, behind]

theorem Stat.walk_reread : ∀ (statement : Stat ι) (state : σ),
    (statement.reread.walk walk state).1.occurrences = (statement.walk walk state).1.occurrences ∧
      (statement.reread.walk walk state).2 = (statement.walk walk state).2
  | .assign _ targets values, state => by
    obtain ⟨names, middle⟩ := Expr.walk_rereadAll targets state
    obtain ⟨others, behind⟩ := Expr.walk_rereadAll values (Expr.walkAll walk targets state).2
    simp [Stat.reread, Stat.walk, Stat.occurrences, names, middle, others, behind]
  | .localVars _ names values, state => by
    obtain ⟨others, behind⟩ := Expr.walk_rereadAll values (walk.bindAll names state).2.2
    simp [Stat.reread, Stat.walk, Stat.occurrences, others, behind]
  | .call _ call, state => Expr.walk_reread call .top state
  | .cond _ condition body rest, state => by
    obtain ⟨names, middle⟩ := Expr.walk_reread condition .top state
    obtain ⟨inner, within⟩ := Block.walk_reread body (walk.enter (condition.walk walk state).2)
    obtain ⟨others, behind⟩ := Else.walk_reread rest (walk.inScope (body.walk walk) (condition.walk walk state).2).2
    simp only [Scoping.inScope] at others behind
    simp [Stat.reread, Stat.walk, Stat.occurrences, Scoping.inScope, names, middle, inner, within, others, behind]
  | .whileLoop _ condition body, state => by
    obtain ⟨names, middle⟩ := Expr.walk_reread condition .top state
    obtain ⟨inner, within⟩ := Block.walk_reread body (walk.enter (condition.walk walk state).2)
    simp [Stat.reread, Stat.walk, Stat.occurrences, Scoping.inScope, names, middle, inner, within]
  | .doBlock _ body, state => by
    obtain ⟨inner, within⟩ := Block.walk_reread body (walk.enter state)
    simp [Stat.reread, Stat.walk, Stat.occurrences, Scoping.inScope, inner, within]
  | .breakLoop _, _ => ⟨rfl, rfl⟩
  | .repeatLoop _ body condition, state => by
    obtain ⟨inner, within⟩ := Block.walk_reread body (walk.enter state)
    obtain ⟨names, middle⟩ := Expr.walk_reread condition .top (body.walk walk (walk.enter state)).2
    simp [Stat.reread, Stat.walk, Stat.occurrences, Scoping.inScope, inner, within, names, middle]
  | .function _ name parameters body, state => by
    obtain ⟨bound, names, behind⟩ :=
      walk.function_congr name.method.isSome parameters (Block.walk_reread body) state
    simp [Stat.reread, Stat.walk, Stat.occurrences, bound, names, behind]
  | .localFunction _ name parameters body, state => by
    obtain ⟨bound, names, behind⟩ := walk.function_congr false parameters (Block.walk_reread body)
      (walk.declare (walk.bind name state).2.1 (walk.bind name state).2.2)
    simp [Stat.reread, Stat.walk, Stat.occurrences, bound, names, behind]
  | .numericFor _ counter first limit none body, state => by
    obtain ⟨start, middle⟩ := Expr.walk_reread first .top (walk.bind counter state).2.2
    obtain ⟨stop, later⟩ := Expr.walk_reread limit .top (first.walk walk (walk.bind counter state).2.2).2
    simp [Stat.reread, Stat.walk, Stat.occurrences, Scoping.inScope, start, middle, stop, later,
      Block.walk_reread body]
  | .numericFor _ counter first limit (some step) body, state => by
    obtain ⟨start, middle⟩ := Expr.walk_reread first .top (walk.bind counter state).2.2
    obtain ⟨stop, later⟩ := Expr.walk_reread limit .top (first.walk walk (walk.bind counter state).2.2).2
    obtain ⟨stride, last⟩ := Expr.walk_reread step .top
      (limit.walk walk (first.walk walk (walk.bind counter state).2.2).2).2
    simp [Stat.reread, Stat.walk, Stat.occurrences, Scoping.inScope, start, middle, stop, later, stride, last,
      Block.walk_reread body]
  | .genericFor _ names iterators body, state => by
    obtain ⟨given, middle⟩ := Expr.walk_rereadAll iterators (walk.bindAll names state).2.2
    simp [Stat.reread, Stat.walk, Stat.occurrences, Scoping.inScope, given, middle, Block.walk_reread body]
  | .label .., _ => ⟨rfl, rfl⟩
  | .goto .., _ => ⟨rfl, rfl⟩

theorem Else.walk_reread : ∀ (rest : Else ι) (state : σ),
    (rest.reread.walk walk state).1.occurrences = (rest.walk walk state).1.occurrences ∧
      (rest.reread.walk walk state).2 = (rest.walk walk state).2
  | .none, _ => ⟨rfl, rfl⟩
  | .otherwise _ body, state => by
    obtain ⟨inner, within⟩ := Block.walk_reread body (walk.enter state)
    simp [Else.reread, Else.walk, Else.occurrences, Scoping.inScope, inner, within]
  | .elseif _ condition body rest, state => by
    obtain ⟨names, middle⟩ := Expr.walk_reread condition .top state
    obtain ⟨inner, within⟩ := Block.walk_reread body (walk.enter (condition.walk walk state).2)
    obtain ⟨others, behind⟩ := Else.walk_reread rest (walk.inScope (body.walk walk) (condition.walk walk state).2).2
    simp only [Scoping.inScope] at others behind
    simp [Else.reread, Else.walk, Else.occurrences, Scoping.inScope, names, middle, inner, within, others, behind]

theorem Block.walk_reread : ∀ (body : Block ι) (state : σ),
    (body.reread.walk walk state).1.occurrences = (body.walk walk state).1.occurrences ∧
      (body.reread.walk walk state).2 = (body.walk walk state).2
  | .nil, _ => ⟨rfl, rfl⟩
  | .ret _ values, state => Expr.walk_rereadAll values state
  | .cons head tail, state => by
    obtain ⟨names, middle⟩ := Stat.walk_reread head state
    obtain ⟨others, behind⟩ := Block.walk_reread tail (head.walk walk state).2
    simp [Block.reread, Block.walk, Block.occurrences, names, middle, others, behind]

end

/-- A walk over trees of other occurrences, each of which stands for one that the walk knows. -/
def Scoping.comap {ι' : Type} (text : ι' → ι) (walk : Scoping ι κ δ σ) : Scoping ι' κ δ σ :=
  { walk with
    bind := fun occurrence => walk.bind (text occurrence)
    use := fun occurrence => walk.use (text occurrence) }

namespace Block

theorem occurrences_reread (body : Block ι) : body.reread.occurrences = body.occurrences := by
  let silent : Scoping ι ι Unit Unit := ⟨fun name _ => (name, (), ()), fun name _ => name, fun _ _ => (), fun _ => (),
    fun _ => (), fun _ _ => ()⟩
  have marks : silent.Marks id id := ⟨fun _ _ => rfl, fun _ _ => rfl⟩
  have met (body : Block ι) : (body.walk silent ()).1.occurrences = body.occurrences := by
    have listed := congrArg Block.occurrences (body.view_walk .exact marks ())
    rw [Block.occurrences_view, Block.occurrences_view, List.map_id, List.map_id] at listed
    exact listed
  rw [← met body.reread, ← met body]
  exact (body.walk_reread silent ()).1

theorem occurrences_bound_view (text : ι → String) (body : Block ι) :
    (body.view .exact text).bound.occurrences =
      (body.walk (Declarations.numbering.comap text) Declarations.empty).1.occurrences := by
  have follows : (Declarations.numbering.comap text).Follows Declarations.numbering Prod.fst id id Eq Eq :=
    ⟨by rintro _ _ _ rfl; exact ⟨rfl, rfl, rfl⟩, by rintro _ _ _ rfl; rfl, by rintro _ _ _ _ rfl rfl; rfl,
      by rintro _ _ rfl; rfl, by rintro _ _ rfl; rfl, by rintro _ _ _ _ rfl rfl; rfl⟩
  have marks : (Declarations.numbering.comap text).Marks Prod.fst text := ⟨fun _ _ => rfl, fun _ _ => rfl⟩
  have followed := (body.follow follows .exact (rfl : Declarations.empty = _)).1
  rw [body.view_walk .exact marks] at followed
  have listed := congrArg Block.occurrences followed
  rw [Block.occurrences_view, Block.occurrences_view, List.map_id, List.map_id] at listed
  exact listed

theorem freeNames_reread (text : ι → String) (body : Block ι) :
    body.reread.freeNames text = body.freeNames text := by
  unfold freeNames
  rw [occurrences_bound_view, occurrences_bound_view, (body.walk_reread _ _).1]

end Block

end LuaMinifier
