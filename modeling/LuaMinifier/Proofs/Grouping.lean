import LuaMinifier.Proofs.Formed

/-!
How operators group. A tree is grouped when reading its tokens puts every operand back where it stands: operators
along the right edge of a left operand and along the left edge of a right operand hold what they have. Writing an
operator between two grouped operands is grafting it into the left edge of the right one.
-/

namespace LuaMinifier

open Token

variable {ι κ : Type}

mutual

/-- Every expression in an expression satisfies a condition. -/
def Expr.All (condition : Expr ι → Prop) : Expr ι → Prop
  | .identifier site occurrence => condition (.identifier site occurrence)
  | .literal site kind raw => condition (.literal site kind raw)
  | .binary site operator left right =>
    condition (.binary site operator left right) ∧ left.All condition ∧ right.All condition
  | .unary site operator operand => condition (.unary site operator operand) ∧ operand.All condition
  | .call site callee arguments =>
    condition (.call site callee arguments) ∧ callee.All condition ∧ Expr.Every condition arguments
  | .callTable site callee position fields =>
    condition (.callTable site callee position fields) ∧ callee.All condition ∧ Field.Every condition fields
  | .callString site callee position raw => condition (.callString site callee position raw) ∧ callee.All condition
  | .index site base key => condition (.index site base key) ∧ base.All condition ∧ key.All condition
  | .member site base access name => condition (.member site base access name) ∧ base.All condition
  | .function site parameters body => condition (.function site parameters body) ∧ body.All condition
  | .table site fields => condition (.table site fields) ∧ Field.Every condition fields

def Expr.Every (condition : Expr ι → Prop) : List (Expr ι) → Prop
  | [] => True
  | expression :: rest => expression.All condition ∧ Expr.Every condition rest

def Field.All (condition : Expr ι → Prop) : Field ι → Prop
  | .keyed key value => key.All condition ∧ value.All condition
  | .named _ value => value.All condition
  | .item value => value.All condition

def Field.Every (condition : Expr ι → Prop) : List (Field ι) → Prop
  | [] => True
  | field :: rest => field.All condition ∧ Field.Every condition rest

def Stat.All (condition : Expr ι → Prop) : Stat ι → Prop
  | .assign _ targets values => Expr.Every condition targets ∧ Expr.Every condition values
  | .localVars _ _ values => Expr.Every condition values
  | .call _ call => call.All condition
  | .cond _ test body rest => test.All condition ∧ body.All condition ∧ rest.All condition
  | .whileLoop _ test body => test.All condition ∧ body.All condition
  | .doBlock _ body => body.All condition
  | .breakLoop _ => True
  | .repeatLoop _ body test => body.All condition ∧ test.All condition
  | .function _ _ _ body => body.All condition
  | .localFunction _ _ _ body => body.All condition
  | .numericFor _ _ first limit none body => first.All condition ∧ limit.All condition ∧ body.All condition
  | .numericFor _ _ first limit (some step) body =>
    first.All condition ∧ limit.All condition ∧ step.All condition ∧ body.All condition
  | .genericFor _ _ iterators body => Expr.Every condition iterators ∧ body.All condition
  | .label .. => True
  | .goto .. => True

def Else.All (condition : Expr ι → Prop) : Else ι → Prop
  | .none => True
  | .otherwise _ body => body.All condition
  | .elseif _ test body rest => test.All condition ∧ body.All condition ∧ rest.All condition

/-- Every expression in a block satisfies a condition. -/
def Block.All (condition : Expr ι → Prop) : Block ι → Prop
  | .nil => True
  | .ret _ values => Expr.Every condition values
  | .cons head tail => head.All condition ∧ tail.All condition

end

section Decisions

variable (condition : Expr ι → Prop) [DecidablePred condition]

mutual

def Expr.decideAll : ∀ expression : Expr ι, Decidable (expression.All condition)
  | .identifier .. => inferInstanceAs (Decidable (condition _))
  | .literal .. => inferInstanceAs (Decidable (condition _))
  | .binary _ _ left right => @instDecidableAnd _ _ _ (@instDecidableAnd _ _ left.decideAll right.decideAll)
  | .unary _ _ operand => @instDecidableAnd _ _ _ operand.decideAll
  | .call _ callee arguments =>
    @instDecidableAnd _ _ _ (@instDecidableAnd _ _ callee.decideAll (Expr.decideEvery arguments))
  | .callTable _ callee _ fields =>
    @instDecidableAnd _ _ _ (@instDecidableAnd _ _ callee.decideAll (Field.decideEvery fields))
  | .callString _ callee _ _ => @instDecidableAnd _ _ _ callee.decideAll
  | .index _ base key => @instDecidableAnd _ _ _ (@instDecidableAnd _ _ base.decideAll key.decideAll)
  | .member _ base _ _ => @instDecidableAnd _ _ _ base.decideAll
  | .function _ _ body => @instDecidableAnd _ _ _ body.decideAll
  | .table _ fields => @instDecidableAnd _ _ _ (Field.decideEvery fields)

def Expr.decideEvery : ∀ expressions : List (Expr ι), Decidable (Expr.Every condition expressions)
  | [] => .isTrue trivial
  | expression :: rest => @instDecidableAnd _ _ expression.decideAll (Expr.decideEvery rest)

def Field.decideAll : ∀ field : Field ι, Decidable (field.All condition)
  | .keyed key value => @instDecidableAnd _ _ key.decideAll value.decideAll
  | .named _ value => value.decideAll
  | .item value => value.decideAll

def Field.decideEvery : ∀ fields : List (Field ι), Decidable (Field.Every condition fields)
  | [] => .isTrue trivial
  | field :: rest => @instDecidableAnd _ _ field.decideAll (Field.decideEvery rest)

def Stat.decideAll : ∀ statement : Stat ι, Decidable (statement.All condition)
  | .assign _ targets values => @instDecidableAnd _ _ (Expr.decideEvery targets) (Expr.decideEvery values)
  | .localVars _ _ values => Expr.decideEvery values
  | .call _ call => call.decideAll
  | .cond _ test body rest =>
    @instDecidableAnd _ _ test.decideAll (@instDecidableAnd _ _ body.decideAll rest.decideAll)
  | .whileLoop _ test body => @instDecidableAnd _ _ test.decideAll body.decideAll
  | .doBlock _ body => body.decideAll
  | .breakLoop _ => .isTrue trivial
  | .repeatLoop _ body test => @instDecidableAnd _ _ body.decideAll test.decideAll
  | .function _ _ _ body => body.decideAll
  | .localFunction _ _ _ body => body.decideAll
  | .numericFor _ _ first limit none body =>
    @instDecidableAnd _ _ first.decideAll (@instDecidableAnd _ _ limit.decideAll body.decideAll)
  | .numericFor _ _ first limit (some step) body =>
    @instDecidableAnd _ _ first.decideAll
      (@instDecidableAnd _ _ limit.decideAll (@instDecidableAnd _ _ step.decideAll body.decideAll))
  | .genericFor _ _ iterators body => @instDecidableAnd _ _ (Expr.decideEvery iterators) body.decideAll
  | .label .. => .isTrue trivial
  | .goto .. => .isTrue trivial

def Else.decideAll : ∀ rest : Else ι, Decidable (rest.All condition)
  | .none => .isTrue trivial
  | .otherwise _ body => body.decideAll
  | .elseif _ test body rest =>
    @instDecidableAnd _ _ test.decideAll (@instDecidableAnd _ _ body.decideAll rest.decideAll)

def Block.decideAll : ∀ body : Block ι, Decidable (body.All condition)
  | .nil => .isTrue trivial
  | .ret _ values => Expr.decideEvery values
  | .cons head tail => @instDecidableAnd _ _ head.decideAll tail.decideAll

end

instance (body : Block ι) : Decidable (body.All condition) := body.decideAll condition

end Decisions

section Views

/-- A condition says of a view what another one says of the tree. -/
def Agrees (detail : Detail) (see : ι → κ) (condition : Expr ι → Prop) (seen : Expr κ → Prop) : Prop :=
  ∀ (expression : Expr ι) (asBase : Bool), seen (expression.view detail see asBase) ↔ condition expression

variable {detail : Detail} {see : ι → κ} {condition : Expr ι → Prop} {seen : Expr κ → Prop}

mutual

theorem Expr.all_view (same : Agrees detail see condition seen) :
    ∀ (expression : Expr ι) (asBase : Bool), (expression.view detail see asBase).All seen ↔ expression.All condition
  | .identifier .., _ => same (.identifier ..) _
  | .literal .., _ => same (.literal ..) _
  | .binary _ _ left right, _ =>
    and_congr (same (.binary _ _ left right) _) (and_congr (left.all_view same _) (right.all_view same _))
  | .unary _ _ operand, _ => and_congr (same (.unary _ _ operand) _) (operand.all_view same _)
  | .call _ callee arguments, _ =>
    and_congr (same (.call _ callee arguments) _) (and_congr (callee.all_view same _) (Expr.every_view same arguments))
  | .callTable _ callee _ fields, _ =>
    and_congr (same (.callTable _ callee _ fields) _)
      (and_congr (callee.all_view same _) (Field.every_view same fields))
  | .callString _ callee _ _, _ => and_congr (same (.callString _ callee _ _) _) (callee.all_view same _)
  | .index _ base key, _ =>
    and_congr (same (.index _ base key) _) (and_congr (base.all_view same _) (key.all_view same _))
  | .member _ base _ _, _ => and_congr (same (.member _ base _ _) _) (base.all_view same _)
  | .function _ _ body, _ => and_congr (same (.function _ _ body) _) (body.all_view same)
  | .table _ fields, _ => and_congr (same (.table _ fields) _) (Field.every_view same fields)

theorem Expr.every_view (same : Agrees detail see condition seen) :
    ∀ expressions : List (Expr ι), Expr.Every seen (Expr.viewAll detail see expressions) ↔ Expr.Every condition expressions
  | [] => Iff.rfl
  | expression :: rest => and_congr (expression.all_view same _) (Expr.every_view same rest)

theorem Field.all_view (same : Agrees detail see condition seen) :
    ∀ field : Field ι, (field.view detail see).All seen ↔ field.All condition
  | .keyed key value => and_congr (key.all_view same _) (value.all_view same _)
  | .named _ value => value.all_view same _
  | .item value => value.all_view same _

theorem Field.every_view (same : Agrees detail see condition seen) :
    ∀ fields : List (Field ι), Field.Every seen (Field.viewAll detail see fields) ↔ Field.Every condition fields
  | [] => Iff.rfl
  | field :: rest => and_congr (field.all_view same) (Field.every_view same rest)

theorem Stat.all_view (same : Agrees detail see condition seen) :
    ∀ statement : Stat ι, (statement.view detail see).All seen ↔ statement.All condition
  | .assign _ targets values => and_congr (Expr.every_view same targets) (Expr.every_view same values)
  | .localVars _ _ values => Expr.every_view same values
  | .call _ call => call.all_view same _
  | .cond _ test body rest =>
    and_congr (test.all_view same _) (and_congr (body.all_view same) (rest.all_view same))
  | .whileLoop _ test body => and_congr (test.all_view same _) (body.all_view same)
  | .doBlock _ body => body.all_view same
  | .breakLoop _ => Iff.rfl
  | .repeatLoop _ body test => and_congr (body.all_view same) (test.all_view same _)
  | .function _ _ _ body => body.all_view same
  | .localFunction _ _ _ body => body.all_view same
  | .numericFor _ _ first limit none body =>
    and_congr (first.all_view same _) (and_congr (limit.all_view same _) (body.all_view same))
  | .numericFor _ _ first limit (some step) body =>
    and_congr (first.all_view same _) (and_congr (limit.all_view same _)
      (and_congr (step.all_view same _) (body.all_view same)))
  | .genericFor _ _ iterators body => and_congr (Expr.every_view same iterators) (body.all_view same)
  | .label .. => Iff.rfl
  | .goto .. => Iff.rfl

theorem Else.all_view (same : Agrees detail see condition seen) :
    ∀ rest : Else ι, (rest.view detail see).All seen ↔ rest.All condition
  | .none => Iff.rfl
  | .otherwise _ body => body.all_view same
  | .elseif _ test body rest =>
    and_congr (test.all_view same _) (and_congr (body.all_view same) (rest.all_view same))

theorem Block.all_view (same : Agrees detail see condition seen) :
    ∀ body : Block ι, (body.view detail see).All seen ↔ body.All condition
  | .nil => Iff.rfl
  | .ret _ values => Expr.every_view same values
  | .cons head tail => and_congr (head.all_view same) (tail.all_view same)

end

end Views

namespace Expr

/-- Whether the operators along the right edge of an expression keep what they hold from an operator behind it that
holds its left operand with some power. -/
def HoldsRight (power : Nat) : Expr ι → Prop
  | .binary site operator _ right =>
    site.parenthesized = true ∨ power ≤ operator.rightPower ∧ right.HoldsRight power
  | .unary site _ operand => site.parenthesized = true ∨ power ≤ UnaryOp.power ∧ operand.HoldsRight power
  | _ => True

/-- Whether the operators along the left edge of an expression keep what they hold when the expression is read with
a limit. -/
def HoldsLeft (limit : Nat) : Expr ι → Prop
  | .binary site operator left _ =>
    site.parenthesized = true ∨ limit < operator.leftPower ∧ left.HoldsLeft limit
  | _ => True

/-- Whether the operands of an operator are read as its operands. -/
def Grouped : Expr ι → Prop
  | .binary _ operator left right => left.HoldsRight operator.leftPower ∧ right.HoldsLeft operator.rightPower
  | .unary _ _ operand => operand.HoldsLeft UnaryOp.power
  | _ => True

/-- The tree that is read where an operator and a right operand are written behind a left operand: operators along
the left edge of the right operand that hold no more strongly take the new operation as their left operand. -/
def graft (operator : BinaryOp) (left : Expr ι) : Expr ι → Expr ι
  | .binary site other nearest farthest =>
    if !site.parenthesized && other.leftPower ≤ operator.rightPower then
      .binary site other (graft operator left nearest) farthest
    else .binary (.plain .start) operator left (.binary site other nearest farthest)
  | right => .binary (.plain .start) operator left right

end Expr

theorem BinaryOp.mem_all (operator : BinaryOp) : operator ∈ BinaryOp.all := by cases operator <;> decide

/-- What a check of every pair of operators says. -/
theorem BinaryOp.check (condition : BinaryOp → BinaryOp → Bool)
    (checked : BinaryOp.all.all (fun first => BinaryOp.all.all (condition first)) = true) (first second : BinaryOp) :
    condition first second = true := by
  rw [List.all_eq_true] at checked
  have row := checked first first.mem_all
  rw [List.all_eq_true] at row
  exact row second second.mem_all

theorem BinaryOp.rightPower_le_leftPower (operator : BinaryOp) : operator.rightPower ≤ operator.leftPower := by
  cases operator <;> decide

namespace Expr

theorem parenthesize_site (expression : Expr ι) : expression.parenthesize.site.parenthesized = true := by
  cases expression <;> rfl

theorem holdsRight_of_parenthesized {expression : Expr ι} (marked : expression.site.parenthesized = true)
    (power : Nat) : expression.HoldsRight power := by
  cases expression <;> first | trivial | exact .inl marked

theorem holdsLeft_of_parenthesized {expression : Expr ι} (marked : expression.site.parenthesized = true)
    (limit : Nat) : expression.HoldsLeft limit := by
  cases expression <;> first | trivial | exact .inl marked

theorem all_grouped_parenthesize {expression : Expr ι} (grouped : expression.All Grouped) :
    expression.parenthesize.All Grouped := by
  cases expression <;> exact grouped

theorem graft_site (operator : BinaryOp) (left right : Expr ι) :
    (graft operator left right).site.parenthesized = false := by
  cases right with
  | binary site other nearest farthest =>
      simp only [graft]
      split
      next descends =>
        simp only [Bool.and_eq_true, Bool.not_eq_true'] at descends
        exact descends.1
      next => rfl
  | _ => rfl

theorem graft_of_holdsLeft {operator : BinaryOp} (left : Expr ι) {right : Expr ι}
    (holds : right.HoldsLeft operator.rightPower) :
    graft operator left right = .binary (.plain .start) operator left right := by
  cases right with
  | binary site other nearest farthest =>
      simp only [graft]
      split
      next descends =>
        simp only [Bool.and_eq_true, Bool.not_eq_true', decide_eq_true_eq] at descends
        rcases holds with marked | ⟨stronger, _⟩
        · simp [marked] at descends
        · omega
      next => rfl
  | _ => rfl

theorem kinds_graft (text : ι → String) (operator : BinaryOp) (left : Expr ι) : ∀ right : Expr ι,
    (graft operator left right).kinds text = left.kinds text ++ operator.token :: right.kinds text
  | .binary site other nearest farthest => by
    simp only [graft]
    split
    next descends =>
      simp only [Bool.and_eq_true, Bool.not_eq_true'] at descends
      simp [Expr.kinds, Site.enclose, descends.1, kinds_graft text operator left nearest]
    next => simp [Expr.kinds, Site.enclose, Site.plain]
  | .identifier .. | .literal .. | .unary .. | .call .. | .callTable .. | .callString .. | .index .. | .member ..
  | .function .. | .table .. => by simp [graft, Expr.kinds, Site.enclose, Site.plain]

theorem formed_graft {valid : Kind → Prop} {named : ι → Prop} {called : Bool} (operator : BinaryOp) {left : Expr ι}
    (first : left.Formed valid named false) : ∀ right : Expr ι, right.Formed valid named false →
      (graft operator left right).Formed valid named called
  | .binary site other nearest farthest, formed => by
    simp only [graft]
    split
    next => exact ⟨formed_graft operator first nearest formed.1, formed.2⟩
    next => exact ⟨first, formed⟩
  | .identifier .., formed | .literal .., formed | .unary .., formed | .call .., formed | .callTable .., formed
  | .callString .., formed | .index .., formed | .member .., formed | .function .., formed | .table .., formed =>
    ⟨first, formed⟩

theorem holdsRight_graft {operator : BinaryOp} {power : Nat} (weaker : power ≤ operator.rightPower) (left : Expr ι)
    {right : Expr ι} (holds : right.HoldsRight power) : (graft operator left right).HoldsRight power := by
  cases right with
  | binary site other nearest farthest =>
      simp only [graft]
      split
      next => exact holds
      next => exact .inr ⟨weaker, holds⟩
  | _ => exact .inr ⟨weaker, holds⟩

theorem holdsLeft_graft {operator : BinaryOp} {limit : Nat} (stronger : limit < operator.leftPower) {left : Expr ι}
    (front : left.HoldsLeft limit) : ∀ right : Expr ι, right.HoldsLeft limit →
      (graft operator left right).HoldsLeft limit
  | .binary site other nearest farthest, holds => by
    simp only [graft]
    split
    next => exact holds.imp_right fun inner => ⟨inner.1, holdsLeft_graft stronger front nearest inner.2⟩
    next => exact .inr ⟨stronger, front⟩
  | .identifier .., _ | .literal .., _ | .unary .., _ | .call .., _ | .callTable .., _
  | .callString .., _ | .index .., _ | .member .., _ | .function .., _ | .table .., _ => .inr ⟨stronger, front⟩

theorem holdsLeft_mono {limit lower : Nat} (less : lower ≤ limit) : ∀ expression : Expr ι,
    expression.HoldsLeft limit → expression.HoldsLeft lower
  | .binary _ _ left _, holds =>
    holds.imp_right fun inner => ⟨Nat.lt_of_le_of_lt less inner.1, holdsLeft_mono less left inner.2⟩
  | .identifier .., _ | .literal .., _ | .unary .., _ | .call .., _ | .callTable .., _
  | .callString .., _ | .index .., _ | .member .., _ | .function .., _ | .table .., _ => trivial

/-- In a grouped tree, operators along the left edge hold at least as strongly as the one at its right end. -/
theorem holdsLeft_of_holdsRight {limit power : Nat} (less : limit < power) : ∀ expression : Expr ι,
    expression.All Grouped → expression.HoldsRight power → expression.HoldsLeft limit
  | .binary _ operator left _, grouped, holds =>
    holds.imp_right fun inner =>
      have stronger : limit < operator.leftPower := by
        have := operator.rightPower_le_leftPower
        omega
      ⟨stronger, holdsLeft_of_holdsRight stronger left grouped.2.1 grouped.1.1⟩
  | .identifier .., _, _ | .literal .., _, _ | .unary .., _, _ | .call .., _, _ | .callTable .., _, _
  | .callString .., _, _ | .index .., _, _ | .member .., _, _ | .function .., _, _ | .table .., _, _ => trivial

theorem grouped_graft {operator : BinaryOp} {left : Expr ι} (first : left.All Grouped)
    (holds : left.HoldsRight operator.leftPower) : ∀ right : Expr ι, right.All Grouped →
      (graft operator left right).All Grouped
  | .binary site other nearest farthest, grouped => by
    simp only [graft]
    split
    next descends =>
      simp only [Bool.and_eq_true, Bool.not_eq_true', decide_eq_true_eq] at descends
      obtain ⟨⟨inner, outer⟩, near, far⟩ := grouped
      exact ⟨⟨holdsRight_graft descends.2 left inner, outer⟩, grouped_graft first holds nearest near, far⟩
    next stays =>
      refine ⟨⟨holds, ?_⟩, first, grouped⟩
      by_cases marked : site.parenthesized = true
      · exact .inl marked
      · simp only [marked, Bool.not_false, Bool.true_and, decide_eq_true_eq, Nat.not_le] at stays
        exact .inr ⟨stays, holdsLeft_of_holdsRight stays nearest grouped.2.1 grouped.1.1⟩
  | .identifier .., grouped | .literal .., grouped | .unary .., grouped | .call .., grouped | .callTable .., grouped
  | .callString .., grouped | .index .., grouped | .member .., grouped | .function .., grouped | .table .., grouped =>
    ⟨⟨holds, trivial⟩, first, grouped⟩

end Expr

end LuaMinifier
