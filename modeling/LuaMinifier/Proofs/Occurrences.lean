import LuaMinifier.Proofs.View

/-!
Occurrences of a tree and what views and replacements do to them: a view shows every occurrence in its place, two views
that show the same of every occurrence are the same, and replacing the occurrences of a tree replaces those in the list
of them one after another.
-/

namespace LuaMinifier

variable {ι κ σ : Type}

section Views

variable (detail : Detail) (see : ι → κ)

mutual

theorem Expr.occurrences_view : ∀ (expression : Expr ι) (asBase : Bool),
    (expression.view detail see asBase).occurrences = expression.occurrences.map see
  | .identifier .., _ => rfl
  | .literal .., _ => rfl
  | .binary _ _ left right, _ => by
    simp [Expr.view, Expr.occurrences, Expr.occurrences_view left, Expr.occurrences_view right]
  | .unary _ _ operand, _ => by simp [Expr.view, Expr.occurrences, Expr.occurrences_view operand]
  | .call _ callee arguments, _ => by
    simp [Expr.view, Expr.occurrences, Expr.occurrences_view callee, Expr.occurrencesAll_view arguments]
  | .callTable _ callee _ fields, _ => by
    simp [Expr.view, Expr.occurrences, Expr.occurrences_view callee, Field.occurrencesAll_view fields]
  | .callString _ callee _ _, _ => by simp [Expr.view, Expr.occurrences, Expr.occurrences_view callee]
  | .index _ base key, _ => by
    simp [Expr.view, Expr.occurrences, Expr.occurrences_view base, Expr.occurrences_view key]
  | .member _ base _ _, _ => by simp [Expr.view, Expr.occurrences, Expr.occurrences_view base]
  | .function _ _ body, _ => by simp [Expr.view, Expr.occurrences, Parameters.view, Block.occurrences_view body]
  | .table _ fields, _ => by simp [Expr.view, Expr.occurrences, Field.occurrencesAll_view fields]

theorem Expr.occurrencesAll_view : ∀ expressions : List (Expr ι),
    Expr.occurrencesAll (Expr.viewAll detail see expressions) = (Expr.occurrencesAll expressions).map see
  | [] => rfl
  | expression :: rest => by
    simp [Expr.viewAll, Expr.occurrencesAll, Expr.occurrences_view expression, Expr.occurrencesAll_view rest]

theorem Field.occurrences_view : ∀ field : Field ι,
    (field.view detail see).occurrences = field.occurrences.map see
  | .keyed key value => by
    simp [Field.view, Field.occurrences, Expr.occurrences_view key, Expr.occurrences_view value]
  | .named _ value => by simp [Field.view, Field.occurrences, Expr.occurrences_view value]
  | .item value => by simp [Field.view, Field.occurrences, Expr.occurrences_view value]

theorem Field.occurrencesAll_view : ∀ fields : List (Field ι),
    Field.occurrencesAll (Field.viewAll detail see fields) = (Field.occurrencesAll fields).map see
  | [] => rfl
  | field :: rest => by
    simp [Field.viewAll, Field.occurrencesAll, Field.occurrences_view field, Field.occurrencesAll_view rest]

theorem Stat.occurrences_view : ∀ statement : Stat ι,
    (statement.view detail see).occurrences = statement.occurrences.map see
  | .assign _ targets values => by
    simp [Stat.view, Stat.occurrences, Expr.occurrencesAll_view targets, Expr.occurrencesAll_view values]
  | .localVars _ _ values => by simp [Stat.view, Stat.occurrences, Expr.occurrencesAll_view values]
  | .call _ call => by simp [Stat.view, Stat.occurrences, Expr.occurrences_view call]
  | .cond _ condition body rest => by
    simp [Stat.view, Stat.occurrences, Expr.occurrences_view condition, Block.occurrences_view body,
      Else.occurrences_view rest]
  | .whileLoop _ condition body => by
    simp [Stat.view, Stat.occurrences, Expr.occurrences_view condition, Block.occurrences_view body]
  | .doBlock _ body => by simp [Stat.view, Stat.occurrences, Block.occurrences_view body]
  | .breakLoop _ => rfl
  | .repeatLoop _ body condition => by
    simp [Stat.view, Stat.occurrences, Expr.occurrences_view condition, Block.occurrences_view body]
  | .function _ _ _ body => by
    simp [Stat.view, Stat.occurrences, FunctionName.view, Parameters.view, Block.occurrences_view body]
  | .localFunction _ _ _ body => by simp [Stat.view, Stat.occurrences, Parameters.view, Block.occurrences_view body]
  | .numericFor _ _ first limit none body => by
    simp [Stat.view, Stat.occurrences, Expr.occurrences_view first, Expr.occurrences_view limit,
      Block.occurrences_view body]
  | .numericFor _ _ first limit (some step) body => by
    simp [Stat.view, Stat.occurrences, Expr.occurrences_view first, Expr.occurrences_view limit,
      Expr.occurrences_view step, Block.occurrences_view body]
  | .genericFor _ _ iterators body => by
    simp [Stat.view, Stat.occurrences, Expr.occurrencesAll_view iterators, Block.occurrences_view body]
  | .label .. => rfl
  | .goto .. => rfl

theorem Else.occurrences_view : ∀ rest : Else ι, (rest.view detail see).occurrences = rest.occurrences.map see
  | .none => rfl
  | .otherwise _ body => by simp [Else.view, Else.occurrences, Block.occurrences_view body]
  | .elseif _ condition body rest => by
    simp [Else.view, Else.occurrences, Expr.occurrences_view condition, Block.occurrences_view body,
      Else.occurrences_view rest]

theorem Block.occurrences_view : ∀ body : Block ι, (body.view detail see).occurrences = body.occurrences.map see
  | .nil => rfl
  | .ret _ values => by simp [Block.view, Block.occurrences, Expr.occurrencesAll_view values]
  | .cons head tail => by
    simp [Block.view, Block.occurrences, Stat.occurrences_view head, Block.occurrences_view tail]

end
end Views

section Congruence

variable (detail : Detail) {see other : ι → κ}

theorem Parameters.view_congr (parameters : Parameters ι) (same : ∀ name ∈ parameters.names, see name = other name) :
    parameters.view see = parameters.view other := by
  simp [Parameters.view, List.map_congr_left same]

mutual

theorem Expr.view_congr : ∀ (expression : Expr ι) (asBase : Bool),
    (∀ occurrence ∈ expression.occurrences, see occurrence = other occurrence) →
      expression.view detail see asBase = expression.view detail other asBase
  | .identifier _ occurrence, _, same => by simp [Expr.view, same occurrence (by simp [Expr.occurrences])]
  | .literal .., _, _ => rfl
  | .binary _ _ left right, _, same => by
    rw [Expr.occurrences, List.forall_mem_append] at same
    simp [Expr.view, Expr.view_congr left _ same.1, Expr.view_congr right _ same.2]
  | .unary _ _ operand, _, same => by
    simp [Expr.view, Expr.view_congr operand _ same]
  | .call _ callee arguments, _, same => by
    rw [Expr.occurrences, List.forall_mem_append] at same
    simp [Expr.view, Expr.view_congr callee _ same.1, Expr.viewAll_congr arguments same.2]
  | .callTable _ callee _ fields, _, same => by
    rw [Expr.occurrences, List.forall_mem_append] at same
    simp [Expr.view, Expr.view_congr callee _ same.1, Field.viewAll_congr fields same.2]
  | .callString _ callee _ _, _, same => by simp [Expr.view, Expr.view_congr callee _ same]
  | .index _ base key, _, same => by
    rw [Expr.occurrences, List.forall_mem_append] at same
    simp [Expr.view, Expr.view_congr base _ same.1, Expr.view_congr key _ same.2]
  | .member _ base _ _, _, same => by simp [Expr.view, Expr.view_congr base _ same]
  | .function _ parameters body, _, same => by
    rw [Expr.occurrences, List.forall_mem_append] at same
    simp [Expr.view, parameters.view_congr same.1, Block.view_congr body same.2]
  | .table _ fields, _, same => by simp [Expr.view, Field.viewAll_congr fields same]

theorem Expr.viewAll_congr : ∀ expressions : List (Expr ι),
    (∀ occurrence ∈ Expr.occurrencesAll expressions, see occurrence = other occurrence) →
      Expr.viewAll detail see expressions = Expr.viewAll detail other expressions
  | [], _ => rfl
  | expression :: rest, same => by
    rw [Expr.occurrencesAll, List.forall_mem_append] at same
    simp [Expr.viewAll, Expr.view_congr expression _ same.1, Expr.viewAll_congr rest same.2]

theorem Field.view_congr : ∀ field : Field ι,
    (∀ occurrence ∈ field.occurrences, see occurrence = other occurrence) →
      field.view detail see = field.view detail other
  | .keyed key value, same => by
    rw [Field.occurrences, List.forall_mem_append] at same
    simp [Field.view, Expr.view_congr key _ same.1, Expr.view_congr value _ same.2]
  | .named _ value, same => by simp [Field.view, Expr.view_congr value _ same]
  | .item value, same => by simp [Field.view, Expr.view_congr value _ same]

theorem Field.viewAll_congr : ∀ fields : List (Field ι),
    (∀ occurrence ∈ Field.occurrencesAll fields, see occurrence = other occurrence) →
      Field.viewAll detail see fields = Field.viewAll detail other fields
  | [], _ => rfl
  | field :: rest, same => by
    rw [Field.occurrencesAll, List.forall_mem_append] at same
    simp [Field.viewAll, Field.view_congr field same.1, Field.viewAll_congr rest same.2]

theorem Stat.view_congr : ∀ statement : Stat ι,
    (∀ occurrence ∈ statement.occurrences, see occurrence = other occurrence) →
      statement.view detail see = statement.view detail other
  | .assign _ targets values, same => by
    rw [Stat.occurrences, List.forall_mem_append] at same
    simp [Stat.view, Expr.viewAll_congr targets same.1, Expr.viewAll_congr values same.2]
  | .localVars _ names values, same => by
    rw [Stat.occurrences, List.forall_mem_append] at same
    simp [Stat.view, List.map_congr_left same.1, Expr.viewAll_congr values same.2]
  | .call _ call, same => by simp [Stat.view, Expr.view_congr call _ same]
  | .cond _ condition body rest, same => by
    rw [Stat.occurrences, List.forall_mem_append, List.forall_mem_append] at same
    simp [Stat.view, Expr.view_congr condition _ same.1.1, Block.view_congr body same.1.2,
      Else.view_congr rest same.2]
  | .whileLoop _ condition body, same => by
    rw [Stat.occurrences, List.forall_mem_append] at same
    simp [Stat.view, Expr.view_congr condition _ same.1, Block.view_congr body same.2]
  | .doBlock _ body, same => by simp [Stat.view, Block.view_congr body same]
  | .breakLoop _, _ => rfl
  | .repeatLoop _ body condition, same => by
    rw [Stat.occurrences, List.forall_mem_append] at same
    simp [Stat.view, Block.view_congr body same.1, Expr.view_congr condition _ same.2]
  | .function _ name parameters body, same => by
    rw [Stat.occurrences, List.cons_append, List.forall_mem_cons, List.forall_mem_append] at same
    simp [Stat.view, FunctionName.view, same.1, parameters.view_congr same.2.1, Block.view_congr body same.2.2]
  | .localFunction _ name parameters body, same => by
    rw [Stat.occurrences, List.cons_append, List.forall_mem_cons, List.forall_mem_append] at same
    simp [Stat.view, same.1, parameters.view_congr same.2.1, Block.view_congr body same.2.2]
  | .numericFor _ counter first limit none body, same => by
    simp only [Stat.occurrences, List.cons_append, List.forall_mem_cons, List.forall_mem_append] at same
    simp [Stat.view, same.1, Expr.view_congr first _ same.2.1.1, Expr.view_congr limit _ same.2.1.2,
      Block.view_congr body same.2.2]
  | .numericFor _ counter first limit (some step) body, same => by
    simp only [Stat.occurrences, List.cons_append, List.forall_mem_cons, List.forall_mem_append] at same
    simp [Stat.view, same.1, Expr.view_congr first _ same.2.1.1.1, Expr.view_congr limit _ same.2.1.1.2,
      Expr.view_congr step _ same.2.1.2, Block.view_congr body same.2.2]
  | .genericFor _ names iterators body, same => by
    rw [Stat.occurrences, List.forall_mem_append, List.forall_mem_append] at same
    simp [Stat.view, List.map_congr_left same.1.1, Expr.viewAll_congr iterators same.1.2, Block.view_congr body same.2]
  | .label .., _ => rfl
  | .goto .., _ => rfl

theorem Else.view_congr : ∀ rest : Else ι,
    (∀ occurrence ∈ rest.occurrences, see occurrence = other occurrence) →
      rest.view detail see = rest.view detail other
  | .none, _ => rfl
  | .otherwise _ body, same => by simp [Else.view, Block.view_congr body same]
  | .elseif _ condition body rest, same => by
    rw [Else.occurrences, List.forall_mem_append, List.forall_mem_append] at same
    simp [Else.view, Expr.view_congr condition _ same.1.1, Block.view_congr body same.1.2, Else.view_congr rest same.2]

theorem Block.view_congr : ∀ body : Block ι,
    (∀ occurrence ∈ body.occurrences, see occurrence = other occurrence) →
      body.view detail see = body.view detail other
  | .nil, _ => rfl
  | .ret _ values, same => by simp [Block.view, Expr.viewAll_congr values same]
  | .cons head tail, same => by
    rw [Block.occurrences, List.forall_mem_append] at same
    simp [Block.view, Stat.view_congr head same.1, Block.view_congr tail same.2]

end
end Congruence

section Replacement

variable (replace : ι → StateM σ κ)

mutual

theorem Expr.occurrences_mapM : ∀ expression : Expr ι,
    Expr.occurrences <$> expression.mapM replace = expression.occurrences.mapM replace
  | .identifier .. => by simp [Expr.mapM, Expr.occurrences]
  | .literal .. => by simp [Expr.mapM, Expr.occurrences]
  | .binary _ _ left right => by
    simp [Expr.mapM, Expr.occurrences, List.mapM_append, ← Expr.occurrences_mapM left, ← Expr.occurrences_mapM right]
  | .unary _ _ operand => by simp [Expr.mapM, Expr.occurrences, ← Expr.occurrences_mapM operand]
  | .call _ callee arguments => by
    simp [Expr.mapM, Expr.occurrences, List.mapM_append, ← Expr.occurrences_mapM callee,
      ← Expr.occurrencesAll_mapM arguments]
  | .callTable _ callee _ fields => by
    simp [Expr.mapM, Expr.occurrences, List.mapM_append, ← Expr.occurrences_mapM callee,
      ← Field.occurrencesAll_mapM fields]
  | .callString _ callee _ _ => by simp [Expr.mapM, Expr.occurrences, ← Expr.occurrences_mapM callee]
  | .index _ base key => by
    simp [Expr.mapM, Expr.occurrences, List.mapM_append, ← Expr.occurrences_mapM base, ← Expr.occurrences_mapM key]
  | .member _ base _ _ => by simp [Expr.mapM, Expr.occurrences, ← Expr.occurrences_mapM base]
  | .function _ _ body => by
    simp [Expr.mapM, Expr.occurrences, Parameters.mapM, List.mapM_append, ← Block.occurrences_mapM body]
  | .table _ fields => by simp [Expr.mapM, Expr.occurrences, ← Field.occurrencesAll_mapM fields]

theorem Expr.occurrencesAll_mapM : ∀ expressions : List (Expr ι),
    Expr.occurrencesAll <$> Expr.mapAllM replace expressions = (Expr.occurrencesAll expressions).mapM replace
  | [] => by simp [Expr.mapAllM, Expr.occurrencesAll]
  | expression :: rest => by
    simp [Expr.mapAllM, Expr.occurrencesAll, List.mapM_append, ← Expr.occurrences_mapM expression,
      ← Expr.occurrencesAll_mapM rest]

theorem Field.occurrences_mapM : ∀ field : Field ι,
    Field.occurrences <$> field.mapM replace = field.occurrences.mapM replace
  | .keyed key value => by
    simp [Field.mapM, Field.occurrences, List.mapM_append, ← Expr.occurrences_mapM key, ← Expr.occurrences_mapM value]
  | .named _ value => by simp [Field.mapM, Field.occurrences, ← Expr.occurrences_mapM value]
  | .item value => by simp [Field.mapM, Field.occurrences, ← Expr.occurrences_mapM value]

theorem Field.occurrencesAll_mapM : ∀ fields : List (Field ι),
    Field.occurrencesAll <$> Field.mapAllM replace fields = (Field.occurrencesAll fields).mapM replace
  | [] => by simp [Field.mapAllM, Field.occurrencesAll]
  | field :: rest => by
    simp [Field.mapAllM, Field.occurrencesAll, List.mapM_append, ← Field.occurrences_mapM field,
      ← Field.occurrencesAll_mapM rest]

theorem Stat.occurrences_mapM : ∀ statement : Stat ι,
    Stat.occurrences <$> statement.mapM replace = statement.occurrences.mapM replace
  | .assign _ targets values => by
    simp [Stat.mapM, Stat.occurrences, List.mapM_append, ← Expr.occurrencesAll_mapM targets,
      ← Expr.occurrencesAll_mapM values]
  | .localVars _ _ values => by
    simp [Stat.mapM, Stat.occurrences, List.mapM_append, ← Expr.occurrencesAll_mapM values]
  | .call _ call => by simp [Stat.mapM, Stat.occurrences, ← Expr.occurrences_mapM call]
  | .cond _ condition body rest => by
    simp [Stat.mapM, Stat.occurrences, List.mapM_append, ← Expr.occurrences_mapM condition,
      ← Block.occurrences_mapM body, ← Else.occurrences_mapM rest]
  | .whileLoop _ condition body => by
    simp [Stat.mapM, Stat.occurrences, List.mapM_append, ← Expr.occurrences_mapM condition,
      ← Block.occurrences_mapM body]
  | .doBlock _ body => by simp [Stat.mapM, Stat.occurrences, ← Block.occurrences_mapM body]
  | .breakLoop _ => by simp [Stat.mapM, Stat.occurrences]
  | .repeatLoop _ body condition => by
    simp [Stat.mapM, Stat.occurrences, List.mapM_append, ← Block.occurrences_mapM body,
      ← Expr.occurrences_mapM condition]
  | .function _ _ _ body => by
    simp [Stat.mapM, Stat.occurrences, FunctionName.mapM, Parameters.mapM, List.mapM_append,
      ← Block.occurrences_mapM body]
  | .localFunction _ _ _ body => by
    simp [Stat.mapM, Stat.occurrences, Parameters.mapM, List.mapM_append, ← Block.occurrences_mapM body]
  | .numericFor _ _ first limit none body => by
    simp [Stat.mapM, Stat.occurrences, List.mapM_append, ← Expr.occurrences_mapM first,
      ← Expr.occurrences_mapM limit, ← Block.occurrences_mapM body]
  | .numericFor _ _ first limit (some step) body => by
    simp [Stat.mapM, Stat.occurrences, List.mapM_append, ← Expr.occurrences_mapM first,
      ← Expr.occurrences_mapM limit, ← Expr.occurrences_mapM step, ← Block.occurrences_mapM body]
  | .genericFor _ _ iterators body => by
    simp [Stat.mapM, Stat.occurrences, List.mapM_append, ← Expr.occurrencesAll_mapM iterators,
      ← Block.occurrences_mapM body]
  | .label .. => by simp [Stat.mapM, Stat.occurrences]
  | .goto .. => by simp [Stat.mapM, Stat.occurrences]

theorem Else.occurrences_mapM : ∀ rest : Else ι,
    Else.occurrences <$> rest.mapM replace = rest.occurrences.mapM replace
  | .none => by simp [Else.mapM, Else.occurrences]
  | .otherwise _ body => by simp [Else.mapM, Else.occurrences, ← Block.occurrences_mapM body]
  | .elseif _ condition body rest => by
    simp [Else.mapM, Else.occurrences, List.mapM_append, ← Expr.occurrences_mapM condition,
      ← Block.occurrences_mapM body, ← Else.occurrences_mapM rest]

theorem Block.occurrences_mapM : ∀ body : Block ι,
    Block.occurrences <$> body.mapM replace = body.occurrences.mapM replace
  | .nil => by simp [Block.mapM, Block.occurrences]
  | .ret _ values => by simp [Block.mapM, Block.occurrences, ← Expr.occurrencesAll_mapM values]
  | .cons head tail => by
    simp [Block.mapM, Block.occurrences, List.mapM_append, ← Stat.occurrences_mapM head,
      ← Block.occurrences_mapM tail]

end
end Replacement

end LuaMinifier
