import LuaMinifier.Proofs.Items
import LuaMinifier.Proofs.Resolution

/-!
What becomes of the items of a tree. A view forgets the positions of literals; resolving names and spelling them anew
replaces each occurrence where it stands; reading a printed tree again moves nothing but parentheses.
-/

namespace LuaMinifier

variable {ι κ μ σ δ : Type}

section Views

variable (detail : Detail) (see : ι → κ)

theorem Parameters.leaves_view (parameters : Parameters ι) :
    (parameters.view see).leaves = parameters.leaves.map (Item.view see) := by
  cases vararg : parameters.vararg <;>
    simp [Parameters.leaves, Parameters.view, vararg, Item.view, Function.comp_def]

theorem FunctionName.leaves_view (name : FunctionName ι) :
    (name.view see).leaves = name.leaves.map (Item.view see) := by
  have fields : (name.fields.map Name.view).flatMap
      (fun field => [Item.fixed (.symbol .dot), .fixed (.name field.text)]) = (name.fields.flatMap fun field =>
        [Item.fixed (.symbol .dot), .fixed (.name field.text)]).map (Item.view see) := by
    induction name.fields with
    | nil => rfl
    | cons field rest ih => simp [ih, Item.view]
  cases method : name.method <;>
    simp [FunctionName.leaves, FunctionName.view, fields, method, Item.view]

attribute [local simp] Expr.view Expr.viewAll Field.view Field.viewAll Stat.view Else.view Block.view Expr.items
  Expr.itemsAll Field.items Field.itemsAll Stat.items Else.items Block.items Item.view braced Parameters.leaves_view
  FunctionName.leaves_view Site.view

mutual

theorem Expr.items_view : ∀ (expression : Expr ι) (asBase : Bool),
    (expression.view detail see asBase).items = expression.items.map (Item.view see)
  | .identifier .., _ => by simp
  | .literal .., _ => by simp
  | .binary _ _ left right, _ => by simp [left.items_view, right.items_view]
  | .unary _ _ operand, _ => by simp [operand.items_view]
  | .call _ callee arguments, _ => by simp [callee.items_view, Expr.itemsAll_view arguments]
  | .callTable _ callee _ fields, _ => by simp [callee.items_view, Field.itemsAll_view fields]
  | .callString _ callee _ _, _ => by simp [callee.items_view]
  | .index _ base key, _ => by simp [base.items_view, key.items_view]
  | .member _ base _ _, _ => by simp [base.items_view]
  | .function _ _ body, _ => by simp [body.items_view]
  | .table _ fields, _ => by simp [Field.itemsAll_view fields]

theorem Expr.itemsAll_view : ∀ expressions : List (Expr ι),
    Expr.itemsAll (Expr.viewAll detail see expressions) = (Expr.itemsAll expressions).map (Item.view see)
  | [] => rfl
  | expression :: rest => by simp [expression.items_view, Expr.itemsAll_view rest]

theorem Field.items_view : ∀ field : Field ι, (field.view detail see).items = field.items.map (Item.view see)
  | .keyed key value => by simp [key.items_view, value.items_view]
  | .named _ value => by simp [value.items_view]
  | .item value => by simp [value.items_view]

theorem Field.itemsAll_view : ∀ fields : List (Field ι),
    Field.itemsAll (Field.viewAll detail see fields) = (Field.itemsAll fields).map (Item.view see)
  | [] => rfl
  | field :: rest => by simp [field.items_view, Field.itemsAll_view rest]

theorem Stat.items_view : ∀ statement : Stat ι,
    (statement.view detail see).items = statement.items.map (Item.view see)
  | .assign _ targets values => by simp [Expr.itemsAll_view targets, Expr.itemsAll_view values]
  | .localVars _ _ [] => by simp [Function.comp_def]
  | .localVars _ _ (value :: values) => by simp [Function.comp_def, value.items_view, Expr.itemsAll_view values]
  | .call _ call => by simp [call.items_view]
  | .cond _ condition body rest => by simp [condition.items_view, body.items_view, rest.items_view]
  | .whileLoop _ condition body => by simp [condition.items_view, body.items_view]
  | .doBlock _ body => by simp [body.items_view]
  | .breakLoop _ => by simp
  | .repeatLoop _ body condition => by simp [condition.items_view, body.items_view]
  | .function _ _ _ body => by simp [body.items_view]
  | .localFunction _ _ _ body => by simp [body.items_view]
  | .numericFor _ _ first limit none body => by simp [first.items_view, limit.items_view, body.items_view]
  | .numericFor _ _ first limit (some step) body => by
    simp [first.items_view, limit.items_view, step.items_view, body.items_view]
  | .genericFor _ _ iterators body => by simp [Function.comp_def, Expr.itemsAll_view iterators, body.items_view]
  | .label .. => by simp [Name.view]
  | .goto .. => by simp [Name.view]

theorem Else.items_view : ∀ rest : Else ι, (rest.view detail see).items = rest.items.map (Item.view see)
  | .none => by simp
  | .otherwise _ body => by simp [body.items_view]
  | .elseif _ condition body rest => by simp [condition.items_view, body.items_view, rest.items_view]

theorem Block.items_view : ∀ body : Block ι, (body.view detail see).items = body.items.map (Item.view see)
  | .nil => by simp
  | .ret _ values => by simp [Expr.itemsAll_view values]
  | .cons head tail => by simp [head.items_view, tail.items_view]

end
end Views

section Walks

variable {walk : Scoping ι κ δ σ} {see : κ → μ} {mark : ι → μ}

theorem Parameters.leaves_map (parameters : Parameters ι) (mark : ι → μ) : parameters.leaves.map (Item.map mark) =
    (parameters.names.map mark).map .occurrence
      ++ (parameters.vararg.map fun position => .literal (.symbol .dotDotDot) position).toList := by
  cases vararg : parameters.vararg <;> simp [Parameters.leaves, vararg, Item.map, Function.comp_def]

theorem FunctionName.leaves_map (name : FunctionName ι) (mark : ι → μ) :
    name.leaves.map (Item.map mark) = FunctionName.leaves ⟨mark name.root, name.fields, name.method⟩ := by
  have fields : (name.fields.flatMap fun field => [Item.fixed (.symbol .dot), .fixed (.name field.text)]).map
      (Item.map mark) = name.fields.flatMap fun field => [Item.fixed (.symbol .dot), .fixed (.name field.text)] := by
    induction name.fields with
    | nil => rfl
    | cons field rest ih => simp [ih, Item.map]
  cases method : name.method <;> simp [FunctionName.leaves, fields, method, Item.map]

theorem map_occurrence (names : List ι) (mark : ι → μ) :
    (names.map Item.occurrence).map (Item.map mark) = (names.map mark).map .occurrence := by
  simp [Item.map, Function.comp_def]

theorem Scoping.Marks.items_function (marks : walk.Marks see mark) (method : Bool) (parameters : Parameters ι)
    {body : Block ι}
    (inner : ∀ state, (body.walk walk state).1.items.map (Item.map see) = body.items.map (Item.map mark)) (state : σ) :
    (walk.function method parameters (body.walk walk) state).1.1.leaves.map (Item.map see) =
        parameters.leaves.map (Item.map mark) ∧
      (walk.function method parameters (body.walk walk) state).1.2.items.map (Item.map see) =
        body.items.map (Item.map mark) := by
  simp [function, inScope, Parameters.leaves_map, marks.map_bindAll, inner]

attribute [local simp] Expr.walk Expr.walkAll Field.walk Field.walkAll Stat.walk Else.walk Block.walk Expr.items
  Expr.itemsAll Field.items Field.itemsAll Stat.items Else.items Block.items Item.map braced FunctionName.leaves_map
  Scoping.inScope

mutual

theorem Expr.items_walk (marks : walk.Marks see mark) : ∀ (expression : Expr ι) (state : σ),
    (expression.walk walk state).1.items.map (Item.map see) = expression.items.map (Item.map mark)
  | .identifier .., _ => by simp [marks.used]
  | .literal .., _ => by simp
  | .binary _ _ left right, _ => by simp [Expr.items_walk marks left, Expr.items_walk marks right]
  | .unary _ _ operand, _ => by simp [Expr.items_walk marks operand]
  | .call _ callee arguments, _ => by simp [Expr.items_walk marks callee, Expr.itemsAll_walk marks arguments]
  | .callTable _ callee _ fields, _ => by simp [Expr.items_walk marks callee, Field.itemsAll_walk marks fields]
  | .callString _ callee _ _, _ => by simp [Expr.items_walk marks callee]
  | .index _ base key, _ => by simp [Expr.items_walk marks base, Expr.items_walk marks key]
  | .member _ base _ _, _ => by simp [Expr.items_walk marks base]
  | .function _ parameters body, state => by
    have inner := marks.items_function false parameters (Block.items_walk marks body) state
    simp [inner.1, inner.2]
  | .table _ fields, _ => by simp [Field.itemsAll_walk marks fields]

theorem Expr.itemsAll_walk (marks : walk.Marks see mark) : ∀ (expressions : List (Expr ι)) (state : σ),
    (Expr.itemsAll (Expr.walkAll walk expressions state).1).map (Item.map see) =
      (Expr.itemsAll expressions).map (Item.map mark)
  | [], _ => rfl
  | expression :: rest, _ => by simp [Expr.items_walk marks expression, Expr.itemsAll_walk marks rest]

theorem Field.items_walk (marks : walk.Marks see mark) : ∀ (field : Field ι) (state : σ),
    (field.walk walk state).1.items.map (Item.map see) = field.items.map (Item.map mark)
  | .keyed key value, _ => by simp [Expr.items_walk marks key, Expr.items_walk marks value]
  | .named _ value, _ => by simp [Expr.items_walk marks value]
  | .item value, _ => by simp [Expr.items_walk marks value]

theorem Field.itemsAll_walk (marks : walk.Marks see mark) : ∀ (fields : List (Field ι)) (state : σ),
    (Field.itemsAll (Field.walkAll walk fields state).1).map (Item.map see) =
      (Field.itemsAll fields).map (Item.map mark)
  | [], _ => rfl
  | field :: rest, _ => by simp [Field.items_walk marks field, Field.itemsAll_walk marks rest]

theorem Stat.items_walk (marks : walk.Marks see mark) : ∀ (statement : Stat ι) (state : σ),
    (statement.walk walk state).1.items.map (Item.map see) = statement.items.map (Item.map mark)
  | .assign _ targets values, _ => by simp [Expr.itemsAll_walk marks targets, Expr.itemsAll_walk marks values]
  | .localVars _ names [], state => by
    simp only [Stat.walk, Stat.items, Expr.walkAll, List.map_append, List.map_cons, map_occurrence, marks.map_bindAll]
    rfl
  | .localVars _ names (value :: values), state => by
    simp only [Stat.walk, Stat.items, Expr.walkAll, List.map_append, List.map_cons, map_occurrence, marks.map_bindAll]
    simp [Expr.items_walk marks value, Expr.itemsAll_walk marks values]
  | .call _ call, _ => by simp [Expr.items_walk marks call]
  | .cond _ condition body rest, _ => by
    simp [Expr.items_walk marks condition, Block.items_walk marks body, Else.items_walk marks rest]
  | .whileLoop _ condition body, _ => by simp [Expr.items_walk marks condition, Block.items_walk marks body]
  | .doBlock _ body, _ => by simp [Block.items_walk marks body]
  | .breakLoop _, _ => by simp
  | .repeatLoop _ body condition, _ => by simp [Expr.items_walk marks condition, Block.items_walk marks body]
  | .function _ name parameters body, state => by
    have inner := marks.items_function name.method.isSome parameters (Block.items_walk marks body) state
    simp [marks.used, inner.1, inner.2]
  | .localFunction _ name parameters body, state => by
    have inner := marks.items_function false parameters (Block.items_walk marks body)
      (walk.declare (walk.bind name state).2.1 (walk.bind name state).2.2)
    simp [marks.bound, inner.1, inner.2]
  | .numericFor _ _ first limit none body, _ => by
    simp [marks.bound, Expr.items_walk marks first, Expr.items_walk marks limit, Block.items_walk marks body]
  | .numericFor _ _ first limit (some step) body, _ => by
    simp [marks.bound, Expr.items_walk marks first, Expr.items_walk marks limit, Expr.items_walk marks step,
      Block.items_walk marks body]
  | .genericFor _ names iterators body, state => by
    have bound := marks.map_bindAll names state
    simp only [Stat.walk, Stat.items, List.map_append, List.map_cons, map_occurrence, bound]
    simp [Expr.itemsAll_walk marks iterators, Block.items_walk marks body]
  | .label .., _ => by simp
  | .goto .., _ => by simp

theorem Else.items_walk (marks : walk.Marks see mark) : ∀ (rest : Else ι) (state : σ),
    (rest.walk walk state).1.items.map (Item.map see) = rest.items.map (Item.map mark)
  | .none, _ => by simp
  | .otherwise _ body, _ => by simp [Block.items_walk marks body]
  | .elseif _ condition body rest, _ => by
    simp [Expr.items_walk marks condition, Block.items_walk marks body, Else.items_walk marks rest]

theorem Block.items_walk (marks : walk.Marks see mark) : ∀ (body : Block ι) (state : σ),
    (body.walk walk state).1.items.map (Item.map see) = body.items.map (Item.map mark)
  | .nil, _ => by simp
  | .ret _ values, _ => by simp [Expr.itemsAll_walk marks values]
  | .cons head tail, _ => by simp [Stat.items_walk marks head, Block.items_walk marks tail]

end

theorem Block.items_resolve (tree : Block Name) :
    (tree.resolve.run .empty).1.items.map (Item.map fun identifier => ⟨identifier.name, identifier.position⟩) =
      tree.items := by
  have walked : (tree.resolve.run .empty).1 = (tree.walk Scope.resolving Scope.empty).1 :=
    congrArg Prod.fst (tree.resolve_eq Scope.empty).1
  have marks : Scope.resolving.Marks (fun identifier => (⟨identifier.name, identifier.position⟩ : Name)) id :=
    ⟨fun _ _ => rfl, fun _ _ => rfl⟩
  rw [walked, tree.items_walk marks]
  have unchanged : Item.map (id : Name → Name) = id := by
    funext item
    cases item <;> rfl
  rw [unchanged, List.map_id]

end Walks

section Replacement

variable {replace : ι → StateM σ κ} {see : κ → μ} {mark : ι → μ}

theorem run_pure_fst {α : Type} (value : α) (state : σ) : ((pure value : StateM σ α) state).1 = value := rfl

theorem run_bind_fst {α β : Type} (work : StateM σ α) (next : α → StateM σ β) (state : σ) :
    ((work >>= next) state).1 = (next (work state).1 (work state).2).1 := rfl

theorem run_map_fst {α β : Type} (change : α → β) (work : StateM σ α) (state : σ) :
    ((change <$> work) state).1 = change (work state).1 := rfl

theorem map_mapM (shows : ∀ name state, see (replace name state).1 = mark name) (names : List ι) (state : σ) :
    (names.mapM replace state).1.map see = names.map mark := by
  induction names generalizing state with
  | nil => rfl
  | cons name rest ih => simp [run_bind_fst, run_map_fst, shows, ih]

theorem Parameters.leaves_mapM (shows : ∀ name state, see (replace name state).1 = mark name)
    (parameters : Parameters ι) (state : σ) :
    (parameters.mapM replace state).1.leaves.map (Item.map see) = parameters.leaves.map (Item.map mark) := by
  simp only [Parameters.leaves_map, Parameters.mapM, run_bind_fst, run_pure_fst, map_mapM shows]

theorem FunctionName.leaves_mapM (shows : ∀ name state, see (replace name state).1 = mark name)
    (name : FunctionName ι) (state : σ) :
    (name.mapM replace state).1.leaves.map (Item.map see) = name.leaves.map (Item.map mark) := by
  simp only [FunctionName.leaves_map, FunctionName.mapM, run_bind_fst, run_pure_fst, shows]

attribute [local simp] run_pure_fst run_bind_fst run_map_fst Expr.mapM Expr.mapAllM Field.mapM Field.mapAllM Stat.mapM
  Else.mapM Block.mapM Expr.items Expr.itemsAll Field.items Field.itemsAll Stat.items Else.items Block.items Item.map braced
  Parameters.leaves_mapM FunctionName.leaves_mapM

mutual

theorem Expr.items_mapM (shows : ∀ name state, see (replace name state).1 = mark name) :
    ∀ (expression : Expr ι) (state : σ),
      (expression.mapM replace state).1.items.map (Item.map see) = expression.items.map (Item.map mark)
  | .identifier .., _ => by simp [shows]
  | .literal .., _ => by simp
  | .binary _ _ left right, _ => by simp [Expr.items_mapM shows left, Expr.items_mapM shows right]
  | .unary _ _ operand, _ => by simp [Expr.items_mapM shows operand]
  | .call _ callee arguments, _ => by simp [Expr.items_mapM shows callee, Expr.itemsAll_mapM shows arguments]
  | .callTable _ callee _ fields, _ => by simp [Expr.items_mapM shows callee, Field.itemsAll_mapM shows fields]
  | .callString _ callee _ _, _ => by simp [Expr.items_mapM shows callee]
  | .index _ base key, _ => by simp [Expr.items_mapM shows base, Expr.items_mapM shows key]
  | .member _ base _ _, _ => by simp [Expr.items_mapM shows base]
  | .function _ parameters body, _ => by
    simp [Parameters.leaves_mapM shows parameters, Block.items_mapM shows body]
  | .table _ fields, _ => by simp [Field.itemsAll_mapM shows fields]

theorem Expr.itemsAll_mapM (shows : ∀ name state, see (replace name state).1 = mark name) :
    ∀ (expressions : List (Expr ι)) (state : σ),
      (Expr.itemsAll (Expr.mapAllM replace expressions state).1).map (Item.map see) =
        (Expr.itemsAll expressions).map (Item.map mark)
  | [], _ => rfl
  | expression :: rest, _ => by simp [Expr.items_mapM shows expression, Expr.itemsAll_mapM shows rest]

theorem Field.items_mapM (shows : ∀ name state, see (replace name state).1 = mark name) :
    ∀ (field : Field ι) (state : σ),
      (field.mapM replace state).1.items.map (Item.map see) = field.items.map (Item.map mark)
  | .keyed key value, _ => by simp [Expr.items_mapM shows key, Expr.items_mapM shows value]
  | .named _ value, _ => by simp [Expr.items_mapM shows value]
  | .item value, _ => by simp [Expr.items_mapM shows value]

theorem Field.itemsAll_mapM (shows : ∀ name state, see (replace name state).1 = mark name) :
    ∀ (fields : List (Field ι)) (state : σ),
      (Field.itemsAll (Field.mapAllM replace fields state).1).map (Item.map see) =
        (Field.itemsAll fields).map (Item.map mark)
  | [], _ => rfl
  | field :: rest, _ => by simp [Field.items_mapM shows field, Field.itemsAll_mapM shows rest]

theorem Stat.items_mapM (shows : ∀ name state, see (replace name state).1 = mark name) :
    ∀ (statement : Stat ι) (state : σ),
      (statement.mapM replace state).1.items.map (Item.map see) = statement.items.map (Item.map mark)
  | .assign _ targets values, _ => by simp [Expr.itemsAll_mapM shows targets, Expr.itemsAll_mapM shows values]
  | .localVars _ names [], state => by
    simp only [Stat.mapM, Stat.items, run_bind_fst, run_pure_fst, List.map_append, List.map_cons, map_occurrence,
      map_mapM shows, Expr.mapAllM]
    rfl
  | .localVars _ names (value :: values), state => by
    simp only [Stat.mapM, Stat.items, run_bind_fst, run_pure_fst, List.map_append, List.map_cons, map_occurrence,
      map_mapM shows, Expr.mapAllM]
    simp [Expr.items_mapM shows value, Expr.itemsAll_mapM shows values]
  | .call _ call, _ => by simp [Expr.items_mapM shows call]
  | .cond _ condition body rest, _ => by
    simp [Expr.items_mapM shows condition, Block.items_mapM shows body, Else.items_mapM shows rest]
  | .whileLoop _ condition body, _ => by simp [Expr.items_mapM shows condition, Block.items_mapM shows body]
  | .doBlock _ body, _ => by simp [Block.items_mapM shows body]
  | .breakLoop _, _ => by simp
  | .repeatLoop _ body condition, _ => by simp [Expr.items_mapM shows condition, Block.items_mapM shows body]
  | .function _ name parameters body, _ => by
    simp [FunctionName.leaves_mapM shows name, Parameters.leaves_mapM shows parameters, Block.items_mapM shows body]
  | .localFunction _ name parameters body, _ => by
    simp [shows name, Parameters.leaves_mapM shows parameters, Block.items_mapM shows body]
  | .numericFor _ counter first limit none body, _ => by
    simp [shows counter, Expr.items_mapM shows first, Expr.items_mapM shows limit, Block.items_mapM shows body]
  | .numericFor _ counter first limit (some step) body, _ => by
    simp [shows counter, Expr.items_mapM shows first, Expr.items_mapM shows limit, Expr.items_mapM shows step,
      Block.items_mapM shows body]
  | .genericFor _ names iterators body, state => by
    simp only [Stat.mapM, Stat.items, run_bind_fst, run_pure_fst, List.map_append, List.map_cons, map_occurrence,
      map_mapM shows]
    simp [Expr.itemsAll_mapM shows iterators, Block.items_mapM shows body]
  | .label .., _ => by simp
  | .goto .., _ => by simp

theorem Else.items_mapM (shows : ∀ name state, see (replace name state).1 = mark name) :
    ∀ (rest : Else ι) (state : σ),
      (rest.mapM replace state).1.items.map (Item.map see) = rest.items.map (Item.map mark)
  | .none, _ => by simp
  | .otherwise _ body, _ => by simp [Block.items_mapM shows body]
  | .elseif _ condition body rest, _ => by
    simp [Expr.items_mapM shows condition, Block.items_mapM shows body, Else.items_mapM shows rest]

theorem Block.items_mapM (shows : ∀ name state, see (replace name state).1 = mark name) :
    ∀ (body : Block ι) (state : σ),
      (body.mapM replace state).1.items.map (Item.map see) = body.items.map (Item.map mark)
  | .nil, _ => by simp
  | .ret _ values, _ => by simp [Expr.itemsAll_mapM shows values]
  | .cons head tail, _ => by simp [Stat.items_mapM shows head, Block.items_mapM shows tail]

end

theorem Block.items_spell (body : Block Identifier) (session : Session) :
    (body.spell session).1.items.map (Item.map fun spelling => (⟨spelling.name, spelling.position⟩ : Name)) =
      body.items.map (Item.map fun identifier => ⟨identifier.name, identifier.position⟩) := by
  refine body.items_mapM (fun identifier session => ?_) session
  unfold Identifier.spell
  split <;> rfl

end Replacement

section Rereading

theorem Expr.items_parenthesize (expression : Expr ι) : expression.parenthesize.items = expression.items := by
  cases expression <;> rfl

theorem Expr.items_graft (operator : BinaryOp) (left : Expr ι) : ∀ right : Expr ι,
    (graft operator left right).items = left.items ++ .fixed operator.token :: right.items
  | .binary site other nearest farthest => by
    simp only [graft]
    split
    · simp [Expr.items, Expr.items_graft operator left nearest]
    · simp [Expr.items]
  | .identifier .. | .literal .. | .unary .. | .call .. | .callTable .. | .callString ..
  | .index .. | .member .. | .function .. | .table .. => by simp [graft, Expr.items]

theorem Expr.items_asBase (printed original : Expr ι) : (printed.asBase original).items = printed.items := by
  unfold asBase
  split
  · exact printed.items_parenthesize
  · rfl

attribute [local simp] Expr.reread Expr.rereadAll Field.reread Field.rereadAll Stat.reread Else.reread Block.reread
  Expr.items Expr.itemsAll Field.items Field.itemsAll Stat.items Else.items Block.items Expr.items_asBase

mutual

theorem Expr.items_reread : ∀ (expression : Expr ι) (context : Context),
    (expression.reread context).items = expression.items
  | .identifier .., _ => by simp
  | .literal .., _ => by simp
  | .binary site operator left right, context => by
    obtain ⟨_, rfl, ⟨_, same⟩ | ⟨_, same⟩⟩ := Expr.reread_binary_cases context site operator left right <;>
      simp [-Expr.reread, same, Expr.items_parenthesize, Expr.items_graft, left.items_reread, right.items_reread]
  | .unary _ _ operand, _ => by simp [operand.items_reread]
  | .call _ callee arguments, _ => by simp [callee.items_reread, Expr.items_rereadAll arguments]
  | .callTable _ callee _ fields, _ => by simp [callee.items_reread, Field.items_rereadAll fields]
  | .callString _ callee _ _, _ => by simp [callee.items_reread]
  | .index _ base key, _ => by simp [base.items_reread, key.items_reread]
  | .member _ base _ _, _ => by simp [base.items_reread]
  | .function _ _ body, _ => by simp [body.items_reread]
  | .table _ fields, _ => by simp [Field.items_rereadAll fields]

theorem Expr.items_rereadAll : ∀ expressions : List (Expr ι),
    Expr.itemsAll (Expr.rereadAll expressions) = Expr.itemsAll expressions
  | [] => rfl
  | expression :: rest => by simp [expression.items_reread, Expr.items_rereadAll rest]

theorem Field.items_reread : ∀ field : Field ι, field.reread.items = field.items
  | .keyed key value => by simp [key.items_reread, value.items_reread]
  | .named _ value => by simp [value.items_reread]
  | .item value => by simp [value.items_reread]

theorem Field.items_rereadAll : ∀ fields : List (Field ι),
    Field.itemsAll (Field.rereadAll fields) = Field.itemsAll fields
  | [] => rfl
  | field :: rest => by simp [field.items_reread, Field.items_rereadAll rest]

theorem Stat.items_reread : ∀ statement : Stat ι, statement.reread.items = statement.items
  | .assign _ targets values => by simp [Expr.items_rereadAll targets, Expr.items_rereadAll values]
  | .localVars _ _ [] => rfl
  | .localVars _ _ (value :: values) => by simp [value.items_reread, Expr.items_rereadAll values]
  | .call _ call => by simp [call.items_reread]
  | .cond _ condition body rest => by simp [condition.items_reread, body.items_reread, rest.items_reread]
  | .whileLoop _ condition body => by simp [condition.items_reread, body.items_reread]
  | .doBlock _ body => by simp [body.items_reread]
  | .breakLoop _ => rfl
  | .repeatLoop _ body condition => by simp [condition.items_reread, body.items_reread]
  | .function _ _ _ body => by simp [body.items_reread]
  | .localFunction _ _ _ body => by simp [body.items_reread]
  | .numericFor _ _ first limit none body => by simp [first.items_reread, limit.items_reread, body.items_reread]
  | .numericFor _ _ first limit (some step) body => by
    simp [first.items_reread, limit.items_reread, step.items_reread, body.items_reread]
  | .genericFor _ _ iterators body => by simp [Expr.items_rereadAll iterators, body.items_reread]
  | .label .. => rfl
  | .goto .. => rfl

theorem Else.items_reread : ∀ rest : Else ι, rest.reread.items = rest.items
  | .none => rfl
  | .otherwise _ body => by simp [body.items_reread]
  | .elseif _ condition body rest => by simp [condition.items_reread, body.items_reread, rest.items_reread]

theorem Block.items_reread : ∀ body : Block ι, body.reread.items = body.items
  | .nil => rfl
  | .ret _ values => by simp [Expr.items_rereadAll values]
  | .cons head tail => by simp [head.items_reread, tail.items_reread]

end
end Rereading

end LuaMinifier
