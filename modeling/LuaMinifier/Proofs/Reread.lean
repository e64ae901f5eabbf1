import LuaMinifier.Print.Parentheses
import LuaMinifier.Proofs.Grouping

/-!
The tree that printed text stands for. Printing drops most parentheses and adds others; what it writes is always read
with the grouping of this tree, which differs from the printed one only where sums and products are regrouped.
-/

namespace LuaMinifier

open Token

variable {ι κ : Type}

/-- A printed expression that something is applied to, in parentheses where they are needed. -/
def Expr.asBase (printed original : Expr ι) : Expr ι :=
  if original.needsBaseParentheses then printed.parenthesize else printed

mutual

/-- The tree that the printed text of an expression stands for. -/
def Expr.reread : Context → Expr ι → Expr ι
  | _, .identifier site occurrence => .identifier ⟨site.position, false⟩ occurrence
  | _, .literal site kind raw => .literal ⟨site.position, site.parenthesized && kind = .vararg⟩ kind raw
  | context, .binary _ operator left right =>
    let whole := Expr.graft operator (left.reread (.ofBinary operator .left)) (right.reread (.ofBinary operator .right))
    if needsParentheses (.binary operator) context then whole.parenthesize else whole
  | context, .unary site operator operand =>
    .unary ⟨site.position, needsUnaryParentheses context⟩ operator (operand.reread (.ofUnary operator))
  | _, .call site callee arguments => .call site ((callee.reread .top).asBase callee) (Expr.rereadAll arguments)
  | _, .callTable site callee position fields =>
    .callTable site ((callee.reread .top).asBase callee) position (Field.rereadAll fields)
  | _, .callString site callee position raw => .callString site ((callee.reread .top).asBase callee) position raw
  | _, .index site base key => .index ⟨site.position, false⟩ ((base.reread .top).asBase base) (key.reread .top)
  | _, .member site base access name => .member ⟨site.position, false⟩ ((base.reread .top).asBase base) access name
  | _, .function site parameters body => .function ⟨site.position, false⟩ parameters body.reread
  | _, .table site fields => .table ⟨site.position, false⟩ (Field.rereadAll fields)

def Expr.rereadAll : List (Expr ι) → List (Expr ι)
  | [] => []
  | expression :: rest => expression.reread .top :: Expr.rereadAll rest

def Field.reread : Field ι → Field ι
  | .keyed key value => .keyed (key.reread .top) (value.reread .top)
  | .named name value => .named name (value.reread .top)
  | .item value => .item (value.reread .top)

def Field.rereadAll : List (Field ι) → List (Field ι)
  | [] => []
  | field :: rest => field.reread :: Field.rereadAll rest

def Stat.reread : Stat ι → Stat ι
  | .assign position targets values => .assign position (Expr.rereadAll targets) (Expr.rereadAll values)
  | .localVars position names values => .localVars position names (Expr.rereadAll values)
  | .call position call => .call position (call.reread .top)
  | .cond position condition body rest => .cond position (condition.reread .top) body.reread rest.reread
  | .whileLoop position condition body => .whileLoop position (condition.reread .top) body.reread
  | .doBlock position body => .doBlock position body.reread
  | .breakLoop position => .breakLoop position
  | .repeatLoop position body condition => .repeatLoop position body.reread (condition.reread .top)
  | .function position name parameters body => .function position name parameters body.reread
  | .localFunction position name parameters body => .localFunction position name parameters body.reread
  | .numericFor position counter first limit none body =>
    .numericFor position counter (first.reread .top) (limit.reread .top) none body.reread
  | .numericFor position counter first limit (some step) body =>
    .numericFor position counter (first.reread .top) (limit.reread .top) (some (step.reread .top)) body.reread
  | .genericFor position names iterators body => .genericFor position names (Expr.rereadAll iterators) body.reread
  | .label position name => .label position name
  | .goto position name => .goto position name

def Else.reread : Else ι → Else ι
  | .none => .none
  | .otherwise position body => .otherwise position body.reread
  | .elseif position condition body rest => .elseif position (condition.reread .top) body.reread rest.reread

/-- The tree that the printed text of a block stands for. -/
def Block.reread : Block ι → Block ι
  | .nil => .nil
  | .ret position values => .ret position (Expr.rereadAll values)
  | .cons head tail => .cons head.reread tail.reread

end

namespace Context

/-- The contexts of operands. -/
inductive Regular : Context → Prop
  | top : Regular .top
  | binary (operator : BinaryOp) (side : Side) : Regular (.ofBinary operator side)
  | unary (operator : UnaryOp) : Regular (.ofUnary operator)

/-- How strongly the right edge of what is printed in a context holds. To the right of a power a unary operator can
stand. -/
def hold (context : Context) : Nat :=
  match context.parent, context.side with
  | none, _ => 0
  | some (.unary _), _ => UnaryOp.power
  | some (.binary operator), some .left => operator.leftPower
  | some (.binary operator), _ => min UnaryOp.power operator.rightPower

theorem hold_le_rightPower {context : Context} (regular : context.Regular) (operator : BinaryOp)
    (bare : needsParentheses (.binary operator) context = false) :
    context.hold ≤ min UnaryOp.power operator.rightPower := by
  cases regular with
  | top => exact Nat.zero_le _
  | binary parent side =>
      have checked := BinaryOp.check (fun parent operator =>
          needsParentheses (.binary operator) (.ofBinary parent side) ||
            decide ((ofBinary parent side).hold ≤ min UnaryOp.power operator.rightPower))
        (by cases side <;> decide +kernel) parent operator
      simpa [bare] using checked
  | unary parent => revert bare; cases parent <;> cases operator <;> decide

theorem hold_le_power {context : Context} (regular : context.Regular)
    (bare : needsUnaryParentheses context = false) : context.hold ≤ UnaryOp.power := by
  cases regular with
  | top => exact Nat.zero_le _
  | binary parent side => cases side <;> cases parent <;> first | decide | (revert bare; decide)
  | unary parent => exact Nat.le_refl _

end Context

namespace Expr

theorem reread_binary_cases (context : Context) (site : Site) (operator : BinaryOp) (left right : Expr ι) :
    ∃ whole,
      whole = graft operator (left.reread (.ofBinary operator .left)) (right.reread (.ofBinary operator .right)) ∧
      ((needsParentheses (.binary operator) context = true ∧
          (binary site operator left right).reread context = whole.parenthesize) ∨
        (needsParentheses (.binary operator) context = false ∧
          (binary site operator left right).reread context = whole)) := by
  refine ⟨_, rfl, ?_⟩
  cases needed : needsParentheses (.binary operator) context <;> simp [reread, needed]

theorem holdsRight_reread {power : Nat} : ∀ (expression : Expr ι) {context : Context}, context.Regular →
    power ≤ context.hold → (expression.reread context).HoldsRight power
  | .binary site operator left right, context, regular, weaker => by
    obtain ⟨whole, rfl, ⟨_, same⟩ | ⟨bare, same⟩⟩ := reread_binary_cases context site operator left right
    · rw [same]
      exact holdsRight_of_parenthesized (parenthesize_site _) power
    · have bound := Nat.le_trans weaker (Context.hold_le_rightPower regular operator bare)
      rw [same]
      exact holdsRight_graft (by omega) _ (holdsRight_reread right (.binary operator .right) bound)
  | .unary site operator operand, context, regular, weaker => by
    cases needed : needsUnaryParentheses context with
    | true => exact .inl needed
    | false =>
        have bound := Nat.le_trans weaker (Context.hold_le_power regular needed)
        exact .inr ⟨bound, holdsRight_reread operand (.unary operator) bound⟩
  | .identifier .., _, _, _ | .literal .., _, _, _ | .call .., _, _, _ | .callTable .., _, _, _
  | .callString .., _, _, _ | .index .., _, _, _ | .member .., _, _, _ | .function .., _, _, _
  | .table .., _, _, _ => trivial

theorem holdsLeft_power_left (limit : Nat) (expression : Expr ι) :
    (expression.reread (.ofBinary .power .left)).HoldsLeft limit := by
  have holds := holdsRight_reread expression (.binary .power .left) (Nat.le_refl 14)
  cases same : expression.reread (.ofBinary .power .left) with
  | binary site operator left right =>
      rw [same] at holds
      rcases holds with marked | ⟨stronger, _⟩
      · exact .inl marked
      · cases operator <;> exact absurd stronger (by decide)
  | _ => trivial

theorem holdsLeft_power_right : ∀ expression : Expr ι,
    (expression.reread (.ofBinary .power .right)).HoldsLeft BinaryOp.power.rightPower
  | .binary site operator left right => by
    obtain ⟨whole, rfl, ⟨_, same⟩ | ⟨bare, same⟩⟩ := 
      reread_binary_cases (.ofBinary .power .right) site operator left right
    · rw [same]
      exact holdsLeft_of_parenthesized (parenthesize_site _) _
    · have isPower : operator = .power := by
        cases operator <;> first | rfl | exact absurd bare (by decide)
      subst isPower
      rw [same]
      exact holdsLeft_graft (by decide) (holdsLeft_power_left _ left) _ (holdsLeft_power_right right)
  | .unary .. | .identifier .. | .literal .. | .call .. | .callTable .. | .callString .. | .index .. | .member ..
  | .function .. | .table .. => trivial

theorem holdsLeft_unary (parent : UnaryOp) (expression : Expr ι) :
    (expression.reread (.ofUnary parent)).HoldsLeft UnaryOp.power := by
  cases expression with
  | binary site operator left right =>
      obtain ⟨whole, rfl, ⟨_, same⟩ | ⟨bare, same⟩⟩ :=
        reread_binary_cases (.ofUnary parent) site operator left right
      · rw [same]
        exact holdsLeft_of_parenthesized (parenthesize_site _) _
      · have isPower : operator = .power := by
          cases operator <;> first | rfl | (cases parent <;> exact absurd bare (by decide))
        subst isPower
        rw [same]
        exact holdsLeft_graft (by decide) (holdsLeft_power_left _ left) _
          (holdsLeft_mono (by decide) _ (holdsLeft_power_right right))
  | _ => trivial

end Expr

section Reread

namespace Expr

theorem all_grouped_asBase {printed : Expr ι} (original : Expr ι) (grouped : printed.All Grouped) :
    (printed.asBase original).All Grouped := by
  unfold asBase
  split
  · exact all_grouped_parenthesize grouped
  · exact grouped

theorem formed_parenthesize {valid : Kind → Prop} {named : ι → Prop} {called : Bool} {expression : Expr ι}
    (formed : expression.Formed valid named false) : expression.parenthesize.Formed valid named called := by
  cases expression with
  | member site base access name => exact ⟨fun colon => absurd (formed.1 colon).1 (by decide), formed.2⟩
  | _ => exact formed

theorem formed_uncalled {valid : Kind → Prop} {named : ι → Prop} {called : Bool} {expression : Expr ι}
    (formed : expression.Formed valid named called) (needed : expression.needsBaseParentheses = true) :
    expression.Formed valid named false := by
  cases expression with
  | member site base access name => simp [needsBaseParentheses] at needed
  | _ => exact formed

theorem isSuffixable_asBase {original : Expr ι} (suffixable : original.isSuffixable = true) :
    ((original.reread .top).asBase original).isSuffixable = true := by
  unfold asBase
  split
  next => exact isSuffixable_parenthesize _
  next bare =>
    cases original with
    | literal site kind raw =>
        simp only [isSuffixable, Expr.site, Bool.or_false] at suffixable
        cases kind <;>
          simp_all [needsBaseParentheses, isTruncated, isMultiValue, isCall, isSuffixable, reread, Expr.site]
    | call | callTable | callString => simp [reread, isSuffixable]
    | identifier | index | member => rfl
    | _ => simp [needsBaseParentheses, isTruncated, isMultiValue, isCall] at bare

theorem rereadAll_eq_nil {expressions : List (Expr ι)} : Expr.rereadAll expressions = [] ↔ expressions = [] := by
  cases expressions <;> simp [Expr.rereadAll]

theorem isAssignable_reread {expression : Expr ι} (assignable : expression.isAssignable = true) :
    (expression.reread .top).isAssignable = true := by
  cases expression with
  | identifier | index => rfl
  | member site base access name => cases access <;> simp_all [isAssignable, reread, Expr.site]
  | _ => simp [isAssignable] at assignable

theorem assignable_rereadAll {expressions : List (Expr ι)}
    (assignable : ∀ target ∈ expressions, target.isAssignable = true) :
    ∀ target ∈ Expr.rereadAll expressions, target.isAssignable = true := by
  induction expressions with
  | nil => simp [Expr.rereadAll]
  | cons expression rest ih =>
      simp only [List.forall_mem_cons, Expr.rereadAll] at assignable ⊢
      exact ⟨isAssignable_reread assignable.1, ih assignable.2⟩

theorem isCall_reread {expression : Expr ι} (call : expression.isCall = true) :
    (expression.reread .top).isCall = true := by
  cases expression <;> first | rfl | simp [isCall] at call

theorem bare_reread {expression : Expr ι} (call : expression.isCall = true)
    (bare : expression.site.parenthesized = false) : (expression.reread .top).site.parenthesized = false := by
  cases expression <;> first | exact bare | simp [isCall] at call

end Expr

mutual

theorem Expr.grouped_reread : ∀ (expression : Expr ι) {context : Context}, context.Regular →
    (expression.reread context).All Expr.Grouped
  | .identifier .., _, _ => trivial
  | .literal .., _, _ => trivial
  | .binary site operator left right, context, _ => by
    have whole := Expr.grouped_graft (left.grouped_reread (.binary operator .left))
      (Expr.holdsRight_reread left (.binary operator .left) (Nat.le_refl _)) _
      (right.grouped_reread (.binary operator .right))
    obtain ⟨_, rfl, ⟨_, same⟩ | ⟨_, same⟩⟩ := Expr.reread_binary_cases context site operator left right
    · rw [same]
      exact Expr.all_grouped_parenthesize whole
    · rw [same]
      exact whole
  | .unary _ operator operand, _, _ =>
    ⟨Expr.holdsLeft_unary operator operand, operand.grouped_reread (.unary operator)⟩
  | .call _ callee arguments, _, _ =>
    ⟨trivial, Expr.all_grouped_asBase callee (callee.grouped_reread .top), Expr.grouped_rereadAll arguments⟩
  | .callTable _ callee _ fields, _, _ =>
    ⟨trivial, Expr.all_grouped_asBase callee (callee.grouped_reread .top), Field.grouped_rereadAll fields⟩
  | .callString _ callee _ _, _, _ => ⟨trivial, Expr.all_grouped_asBase callee (callee.grouped_reread .top)⟩
  | .index _ base key, _, _ =>
    ⟨trivial, Expr.all_grouped_asBase base (base.grouped_reread .top), key.grouped_reread .top⟩
  | .member _ base _ _, _, _ => ⟨trivial, Expr.all_grouped_asBase base (base.grouped_reread .top)⟩
  | .function _ _ body, _, _ => ⟨trivial, body.grouped_reread⟩
  | .table _ fields, _, _ => ⟨trivial, Field.grouped_rereadAll fields⟩

theorem Expr.grouped_rereadAll : ∀ expressions : List (Expr ι), Expr.Every Expr.Grouped (Expr.rereadAll expressions)
  | [] => trivial
  | expression :: rest => ⟨expression.grouped_reread .top, Expr.grouped_rereadAll rest⟩

theorem Field.grouped_reread : ∀ field : Field ι, field.reread.All Expr.Grouped
  | .keyed key value => ⟨key.grouped_reread .top, value.grouped_reread .top⟩
  | .named _ value => value.grouped_reread .top
  | .item value => value.grouped_reread .top

theorem Field.grouped_rereadAll : ∀ fields : List (Field ι), Field.Every Expr.Grouped (Field.rereadAll fields)
  | [] => trivial
  | field :: rest => ⟨field.grouped_reread, Field.grouped_rereadAll rest⟩

theorem Stat.grouped_reread : ∀ statement : Stat ι, statement.reread.All Expr.Grouped
  | .assign _ targets values => ⟨Expr.grouped_rereadAll targets, Expr.grouped_rereadAll values⟩
  | .localVars _ _ values => Expr.grouped_rereadAll values
  | .call _ call => call.grouped_reread .top
  | .cond _ condition body rest => ⟨condition.grouped_reread .top, body.grouped_reread, rest.grouped_reread⟩
  | .whileLoop _ condition body => ⟨condition.grouped_reread .top, body.grouped_reread⟩
  | .doBlock _ body => body.grouped_reread
  | .breakLoop _ => trivial
  | .repeatLoop _ body condition => ⟨body.grouped_reread, condition.grouped_reread .top⟩
  | .function _ _ _ body => body.grouped_reread
  | .localFunction _ _ _ body => body.grouped_reread
  | .numericFor _ _ first limit none body =>
    ⟨first.grouped_reread .top, limit.grouped_reread .top, body.grouped_reread⟩
  | .numericFor _ _ first limit (some step) body =>
    ⟨first.grouped_reread .top, limit.grouped_reread .top, step.grouped_reread .top, body.grouped_reread⟩
  | .genericFor _ _ iterators body => ⟨Expr.grouped_rereadAll iterators, body.grouped_reread⟩
  | .label .. => trivial
  | .goto .. => trivial

theorem Else.grouped_reread : ∀ rest : Else ι, rest.reread.All Expr.Grouped
  | .none => trivial
  | .otherwise _ body => body.grouped_reread
  | .elseif _ condition body rest => ⟨condition.grouped_reread .top, body.grouped_reread, rest.grouped_reread⟩

theorem Block.grouped_reread : ∀ body : Block ι, body.reread.All Expr.Grouped
  | .nil => trivial
  | .ret _ values => Expr.grouped_rereadAll values
  | .cons head tail => ⟨head.grouped_reread, tail.grouped_reread⟩

end

section Shape

variable {valid : Kind → Prop} {named : ι → Prop}

theorem Expr.formed_asBase {called : Bool} {printed original : Expr ι} 
    (shape : original.needsBaseParentheses = true → printed.Formed valid named false)
    (formed : printed.Formed valid named called) : (printed.asBase original).Formed valid named called := by
  unfold Expr.asBase
  split
  next needed => exact Expr.formed_parenthesize (shape needed)
  next => exact formed

mutual

theorem Expr.formed_reread : ∀ (expression : Expr ι) (context : Context) {called : Bool},
    expression.Formed valid named called → (expression.reread context).Formed valid named called
  | .identifier .., _, _, formed => formed
  | .literal .., _, _, formed => formed
  | .binary site operator left right, context, _, formed => by
    have first := left.formed_reread (.ofBinary operator .left) formed.1
    have second := right.formed_reread (.ofBinary operator .right) formed.2
    obtain ⟨_, rfl, ⟨_, same⟩ | ⟨_, same⟩⟩ := Expr.reread_binary_cases context site operator left right
    · rw [same]
      exact Expr.formed_parenthesize (Expr.formed_graft operator first _ second)
    · rw [same]
      exact Expr.formed_graft operator first _ second
  | .unary _ operator operand, _, _, formed => operand.formed_reread (.ofUnary operator) formed
  | .call _ callee arguments, _, _, ⟨suffixable, formed, given⟩ =>
    ⟨Expr.isSuffixable_asBase suffixable,
      Expr.formed_asBase (fun needed => callee.formed_reread .top (Expr.formed_uncalled formed needed))
        (callee.formed_reread .top formed), Expr.formed_rereadAll arguments given⟩
  | .callTable _ callee _ fields, _, _, ⟨suffixable, formed, given⟩ =>
    ⟨Expr.isSuffixable_asBase suffixable,
      Expr.formed_asBase (fun needed => callee.formed_reread .top (Expr.formed_uncalled formed needed))
        (callee.formed_reread .top formed), Field.formed_rereadAll fields given⟩
  | .callString _ callee _ _, _, _, ⟨suffixable, formed, given⟩ =>
    ⟨Expr.isSuffixable_asBase suffixable,
      Expr.formed_asBase (fun needed => callee.formed_reread .top (Expr.formed_uncalled formed needed))
        (callee.formed_reread .top formed), given⟩
  | .index _ base key, _, _, ⟨suffixable, formed, given⟩ =>
    ⟨Expr.isSuffixable_asBase suffixable,
      Expr.formed_asBase (fun _ => base.formed_reread .top formed) (base.formed_reread .top formed),
      key.formed_reread .top given⟩
  | .member _ base _ _, _, _, ⟨method, suffixable, formed, name⟩ =>
    ⟨fun colon => ⟨(method colon).1, rfl⟩, Expr.isSuffixable_asBase suffixable,
      Expr.formed_asBase (fun _ => base.formed_reread .top formed) (base.formed_reread .top formed), name⟩
  | .function _ _ body, _, _, ⟨names, formed⟩ => ⟨names, body.formed_reread formed⟩
  | .table _ fields, _, _, formed => Field.formed_rereadAll fields formed

theorem Expr.formed_rereadAll : ∀ expressions : List (Expr ι), Expr.FormedAll valid named expressions →
    Expr.FormedAll valid named (Expr.rereadAll expressions)
  | [], _ => trivial
  | expression :: rest, formed => ⟨expression.formed_reread .top formed.1, Expr.formed_rereadAll rest formed.2⟩

theorem Field.formed_reread : ∀ field : Field ι, field.Formed valid named → field.reread.Formed valid named
  | .keyed key value, formed => ⟨key.formed_reread .top formed.1, value.formed_reread .top formed.2⟩
  | .named _ value, formed => ⟨formed.1, value.formed_reread .top formed.2⟩
  | .item value, formed => value.formed_reread .top formed

theorem Field.formed_rereadAll : ∀ fields : List (Field ι), Field.FormedAll valid named fields →
    Field.FormedAll valid named (Field.rereadAll fields)
  | [], _ => trivial
  | field :: rest, formed => ⟨field.formed_reread formed.1, Field.formed_rereadAll rest formed.2⟩

theorem Stat.formed_reread : ∀ statement : Stat ι, statement.Formed valid named → statement.reread.Formed valid named
  | .assign _ targets values, ⟨filled, assignable, formed, given, formedValues⟩ =>
    ⟨mt Expr.rereadAll_eq_nil.mp filled, Expr.assignable_rereadAll assignable, Expr.formed_rereadAll targets formed,
      mt Expr.rereadAll_eq_nil.mp given, Expr.formed_rereadAll values formedValues⟩
  | .localVars _ _ values, ⟨filled, names, formed⟩ => ⟨filled, names, Expr.formed_rereadAll values formed⟩
  | .call _ call, ⟨isCall, bare, formed⟩ =>
    ⟨Expr.isCall_reread isCall, Expr.bare_reread isCall bare, call.formed_reread .top formed⟩
  | .cond _ condition body rest, formed =>
    ⟨condition.formed_reread .top formed.1, body.formed_reread formed.2.1, rest.formed_reread formed.2.2⟩
  | .whileLoop _ condition body, formed => ⟨condition.formed_reread .top formed.1, body.formed_reread formed.2⟩
  | .doBlock _ body, formed => body.formed_reread formed
  | .breakLoop _, _ => trivial
  | .repeatLoop _ body condition, formed => ⟨body.formed_reread formed.1, condition.formed_reread .top formed.2⟩
  | .function _ _ _ body, formed => ⟨formed.1, formed.2.1, body.formed_reread formed.2.2⟩
  | .localFunction _ _ _ body, formed => ⟨formed.1, formed.2.1, body.formed_reread formed.2.2⟩
  | .numericFor _ _ first limit none body, formed =>
    ⟨formed.1, first.formed_reread .top formed.2.1, limit.formed_reread .top formed.2.2.1,
      body.formed_reread formed.2.2.2⟩
  | .numericFor _ _ first limit (some step) body, formed =>
    ⟨formed.1, first.formed_reread .top formed.2.1, limit.formed_reread .top formed.2.2.1,
      step.formed_reread .top formed.2.2.2.1, body.formed_reread formed.2.2.2.2⟩
  | .genericFor _ _ iterators body, ⟨filled, names, given, formedIterators, formed⟩ =>
    ⟨filled, names, mt Expr.rereadAll_eq_nil.mp given, Expr.formed_rereadAll iterators formedIterators,
      body.formed_reread formed⟩
  | .label .., formed => formed
  | .goto .., formed => formed

theorem Else.formed_reread : ∀ rest : Else ι, rest.Formed valid named → rest.reread.Formed valid named
  | .none, _ => trivial
  | .otherwise _ body, formed => body.formed_reread formed
  | .elseif _ condition body rest, formed =>
    ⟨condition.formed_reread .top formed.1, body.formed_reread formed.2.1, rest.formed_reread formed.2.2⟩

theorem Block.formed_reread : ∀ body : Block ι, body.Formed valid named → body.reread.Formed valid named
  | .nil, _ => trivial
  | .ret _ values, formed => Expr.formed_rereadAll values formed
  | .cons head tail, formed => ⟨head.formed_reread formed.1, tail.formed_reread formed.2⟩

end

end Shape

end Reread

/-- The operators on the right of a sum or a product that are printed without parentheses although they hold no more
strongly. -/
def BinaryOp.reassociates : BinaryOp → BinaryOp → Bool
  | .add, .add | .add, .subtract | .multiply, .multiply | .multiply, .divide => true
  | _, _ => false

/-- An operator keeps its right operand to itself when it is printed. -/
def Expr.LeftGrouped : Expr ι → Prop
  | .binary _ operator _ (.binary _ other _ _) => operator.reassociates other = false
  | _ => True

instance : DecidablePred (@Expr.LeftGrouped ι) := fun expression => by
  unfold Expr.LeftGrouped
  split <;> infer_instance

namespace Expr

theorem leftPower_of_bare {operator other : BinaryOp} (kept : operator.reassociates other = false)
    (bare : needsParentheses (.binary other) (.ofBinary operator .right) = false) :
    operator.rightPower < other.leftPower := by
  have checked := BinaryOp.check (fun operator other => operator.reassociates other ||
      needsParentheses (.binary other) (.ofBinary operator .right) ||
        decide (operator.rightPower < other.leftPower)) (by decide +kernel) operator other
  simpa [kept, bare] using checked

theorem holdsLeft_graft_reread {limit : Nat} {operator : BinaryOp} (stronger : limit < operator.leftPower)
    (left right : Expr ι)
    (rightward : operator = .concat ∨ operator = .power →
      (right.reread (.ofBinary operator .right)).HoldsLeft operator.rightPower) :
    (graft operator (left.reread (.ofBinary operator .left))
      (right.reread (.ofBinary operator .right))).HoldsLeft limit := by
  have front := holdsLeft_of_holdsRight stronger _ (left.grouped_reread (.binary operator .left))
    (holdsRight_reread left (.binary operator .left) (Nat.le_refl _))
  refine holdsLeft_graft stronger front _ ?_
  by_cases isRightward : operator = .concat ∨ operator = .power
  · refine holdsLeft_mono ?_ _ (rightward isRightward)
    rcases isRightward with rfl | rfl <;> exact Nat.le_of_lt_succ stronger
  · have powers : operator.leftPower ≤ min UnaryOp.power operator.rightPower := by
      cases operator <;> first | decide | simp at isRightward
    exact holdsLeft_of_holdsRight (Nat.lt_of_lt_of_le stronger powers) _
      (right.grouped_reread (.binary operator .right))
      (holdsRight_reread right (.binary operator .right) (Nat.le_refl _))

theorem holdsLeft_reread_right : ∀ (expression : Expr ι) (operator : BinaryOp),
    (∀ site other left right, expression = .binary site other left right → operator.reassociates other = false) →
      (expression.reread (.ofBinary operator .right)).HoldsLeft operator.rightPower
  | .binary site other left right, operator, kept => by
    have kept := kept site other left right rfl
    obtain ⟨_, rfl, ⟨_, same⟩ | ⟨bare, same⟩⟩ :=
      reread_binary_cases (.ofBinary operator .right) site other left right
    · rw [same]
      exact holdsLeft_of_parenthesized (parenthesize_site _) _
    · rw [same]
      -- Concatenations and powers group to the right, so their own right operand is of the same kind.
      exact holdsLeft_graft_reread (leftPower_of_bare kept bare) left right fun rightward =>
        holdsLeft_reread_right right other (by rcases rightward with rfl | rfl <;> simp [BinaryOp.reassociates])
  | .unary .., _, _ | .identifier .., _, _ | .literal .., _, _ | .call .., _, _ | .callTable .., _, _
  | .callString .., _, _ | .index .., _, _ | .member .., _, _ | .function .., _, _ | .table .., _, _ => trivial

theorem view_essential_parenthesize (see : ι → κ) (expression : Expr ι) :
    expression.parenthesize.view .essential see true = expression.view .essential see true := by
  cases expression <;> simp [parenthesize, Expr.view, Site.view, Detail.keeps]

theorem view_essential_asBase (see : ι → κ) {printed original : Expr ι}
    (same : printed.view .essential see true = original.view .essential see true) :
    (printed.asBase original).view .essential see true = original.view .essential see true := by
  unfold asBase
  split
  · rw [view_essential_parenthesize, same]
  · exact same

end Expr

section Essentials

variable (see : ι → κ)

mutual

/-- Where nothing is regrouped, what is printed differs from the tree only in marks of parentheses that do not
matter. -/
theorem Expr.view_reread : ∀ (expression : Expr ι) {context : Context} (asBase : Bool), context.Regular →
    expression.All Expr.LeftGrouped →
      (expression.reread context).view .essential see asBase = expression.view .essential see asBase
  | .identifier .., _, _, _, _ => by simp [Expr.reread, Expr.view, Site.view, Detail.keeps]
  | .literal _ kind _, _, _, _, _ => by cases kind <;> simp [Expr.reread, Expr.view, Site.view, Detail.keeps]
  | .binary site operator left right, context, _, _, ⟨kept, first, second⟩ => by
    have holds := Expr.holdsLeft_reread_right right operator (by
      rintro _ _ _ _ rfl
      exact kept)
    have whole := Expr.graft_of_holdsLeft (left.reread (.ofBinary operator .left)) holds
    have front := left.view_reread false (.binary operator .left) first
    have back := right.view_reread false (.binary operator .right) second
    obtain ⟨_, rfl, ⟨_, same⟩ | ⟨_, same⟩⟩ := Expr.reread_binary_cases context site operator left right <;>
      simp [same, whole, Expr.parenthesize, Expr.view, Site.view, Detail.keeps, front, back]
  | .unary _ operator operand, _, _, _, ⟨_, inner⟩ => by
    simp [Expr.reread, Expr.view, Site.view, Detail.keeps, operand.view_reread false (.unary operator) inner]
  | .call _ callee arguments, _, _, _, ⟨_, inner, given⟩ => by
    simp [Expr.reread, Expr.view, Expr.view_rereadAll arguments given,
      Expr.view_essential_asBase see (callee.view_reread true .top inner)]
  | .callTable _ callee _ fields, _, _, _, ⟨_, inner, given⟩ => by
    simp [Expr.reread, Expr.view, Field.view_rereadAll fields given,
      Expr.view_essential_asBase see (callee.view_reread true .top inner)]
  | .callString _ callee _ _, _, _, _, ⟨_, inner⟩ => by
    simp [Expr.reread, Expr.view, Expr.view_essential_asBase see (callee.view_reread true .top inner)]
  | .index _ base key, _, _, _, ⟨_, inner, given⟩ => by
    simp [Expr.reread, Expr.view, Site.view, Detail.keeps, key.view_reread false .top given,
      Expr.view_essential_asBase see (base.view_reread true .top inner)]
  | .member _ base _ _, _, _, _, ⟨_, inner⟩ => by
    simp [Expr.reread, Expr.view, Site.view, Detail.keeps,
      Expr.view_essential_asBase see (base.view_reread true .top inner)]
  | .function _ _ body, _, _, _, ⟨_, inner⟩ => by
    simp [Expr.reread, Expr.view, Site.view, Detail.keeps, body.view_reread inner]
  | .table _ fields, _, _, _, ⟨_, given⟩ => by
    simp [Expr.reread, Expr.view, Site.view, Detail.keeps, Field.view_rereadAll fields given]

theorem Expr.view_rereadAll : ∀ expressions : List (Expr ι), Expr.Every Expr.LeftGrouped expressions →
    Expr.viewAll .essential see (Expr.rereadAll expressions) = Expr.viewAll .essential see expressions
  | [], _ => rfl
  | expression :: rest, ⟨first, further⟩ => by
    simp [Expr.rereadAll, Expr.viewAll, expression.view_reread false .top first, Expr.view_rereadAll rest further]

theorem Field.view_reread : ∀ field : Field ι, field.All Expr.LeftGrouped →
    field.reread.view .essential see = field.view .essential see
  | .keyed key value, ⟨first, second⟩ => by
    simp [Field.reread, Field.view, key.view_reread false .top first, value.view_reread false .top second]
  | .named _ value, inner => by simp [Field.reread, Field.view, value.view_reread false .top inner]
  | .item value, inner => by simp [Field.reread, Field.view, value.view_reread false .top inner]

theorem Field.view_rereadAll : ∀ fields : List (Field ι), Field.Every Expr.LeftGrouped fields →
    Field.viewAll .essential see (Field.rereadAll fields) = Field.viewAll .essential see fields
  | [], _ => rfl
  | field :: rest, ⟨first, further⟩ => by
    simp [Field.rereadAll, Field.viewAll, field.view_reread first, Field.view_rereadAll rest further]

theorem Stat.view_reread : ∀ statement : Stat ι, statement.All Expr.LeftGrouped →
    statement.reread.view .essential see = statement.view .essential see
  | .assign _ targets values, ⟨first, second⟩ => by
    simp [Stat.reread, Stat.view, Expr.view_rereadAll targets first, Expr.view_rereadAll values second]
  | .localVars _ _ values, given => by simp [Stat.reread, Stat.view, Expr.view_rereadAll values given]
  | .call _ call, inner => by simp [Stat.reread, Stat.view, call.view_reread false .top inner]
  | .cond _ condition body rest, ⟨test, inner, further⟩ => by
    simp [Stat.reread, Stat.view, condition.view_reread false .top test, body.view_reread inner,
      rest.view_reread further]
  | .whileLoop _ condition body, ⟨test, inner⟩ => by
    simp [Stat.reread, Stat.view, condition.view_reread false .top test, body.view_reread inner]
  | .doBlock _ body, inner => by simp [Stat.reread, Stat.view, body.view_reread inner]
  | .breakLoop _, _ => rfl
  | .repeatLoop _ body condition, ⟨inner, test⟩ => by
    simp [Stat.reread, Stat.view, condition.view_reread false .top test, body.view_reread inner]
  | .function _ _ _ body, inner => by simp [Stat.reread, Stat.view, body.view_reread inner]
  | .localFunction _ _ _ body, inner => by simp [Stat.reread, Stat.view, body.view_reread inner]
  | .numericFor _ _ first limit none body, ⟨start, stop, inner⟩ => by
    simp [Stat.reread, Stat.view, first.view_reread false .top start, limit.view_reread false .top stop,
      body.view_reread inner]
  | .numericFor _ _ first limit (some step) body, ⟨start, stop, stride, inner⟩ => by
    simp [Stat.reread, Stat.view, first.view_reread false .top start, limit.view_reread false .top stop,
      step.view_reread false .top stride, body.view_reread inner]
  | .genericFor _ _ iterators body, ⟨given, inner⟩ => by
    simp [Stat.reread, Stat.view, Expr.view_rereadAll iterators given, body.view_reread inner]
  | .label .., _ => rfl
  | .goto .., _ => rfl

theorem Else.view_reread : ∀ rest : Else ι, rest.All Expr.LeftGrouped →
    rest.reread.view .essential see = rest.view .essential see
  | .none, _ => rfl
  | .otherwise _ body, inner => by simp [Else.reread, Else.view, body.view_reread inner]
  | .elseif _ condition body rest, ⟨test, inner, further⟩ => by
    simp [Else.reread, Else.view, condition.view_reread false .top test, body.view_reread inner,
      rest.view_reread further]

theorem Block.view_reread : ∀ body : Block ι, body.All Expr.LeftGrouped →
    body.reread.view .essential see = body.view .essential see
  | .nil, _ => rfl
  | .ret _ values, given => by simp [Block.reread, Block.view, Expr.view_rereadAll values given]
  | .cons head tail, ⟨first, further⟩ => by
    simp [Block.reread, Block.view, head.view_reread first, tail.view_reread further]

end

end Essentials
end LuaMinifier
