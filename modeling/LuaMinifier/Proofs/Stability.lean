import LuaMinifier.Proofs.Essence

/-!
Printing settles: what is read from a printed text is printed again with the same tokens. Sums and products that were
regrouped have their operands on the left already, and every mark of parentheses is one that printing asks for.
-/

namespace LuaMinifier

open Token

variable {ι : Type}

namespace BinaryOp

/-- The operators that a sum or a product meets on the left edge of its right operand. -/
def meets : BinaryOp → BinaryOp → Bool
  | .add, .add | .add, .subtract => true
  | .multiply, .multiply | .multiply, .divide | .multiply, .floorDivide | .multiply, .modulo => true
  | _, _ => false

theorem check_meets (condition : BinaryOp → BinaryOp → BinaryOp → Bool)
    (checked : [add, multiply].all (fun operator => BinaryOp.all.all fun parent => BinaryOp.all.all fun other =>
      !operator.meets parent || condition operator parent other) = true)
    {operator parent : BinaryOp} (meets : operator.meets parent = true) (other : BinaryOp) :
    condition operator parent other = true := by
  have isMeeting : operator ∈ [add, multiply] := by
    cases operator <;> simp [BinaryOp.meets] at meets ⊢
  simp only [List.all_eq_true] at checked
  simpa [meets] using checked operator isMeeting parent parent.mem_all other other.mem_all

theorem meets_of_reassociates {operator other : BinaryOp} (reassociates : operator.reassociates other = true) :
    operator.meets other = true := by
  have checked := BinaryOp.check (fun operator other => !operator.reassociates other || operator.meets other)
    (by decide +kernel) operator other
  simpa [reassociates] using checked

/-- What stands without parentheses on the left of such an operator holds more strongly or is one of them. -/
theorem meets_left {operator parent other : BinaryOp} (meets : operator.meets parent = true)
    (bare : needsParentheses (.binary other) (.ofBinary parent .left) = false)
    (weak : other.leftPower ≤ operator.rightPower) : operator.meets other = true := by
  have checked := check_meets (fun operator parent other =>
    needsParentheses (.binary other) (.ofBinary parent .left) ||
      decide (operator.rightPower < other.leftPower) || operator.meets other) (by decide +kernel) meets other
  simpa [bare, Nat.not_lt.mpr weak] using checked

/-- What the operator does not go past needs the same parentheses to its right as it had on the left. -/
theorem needsParentheses_left {operator parent other : BinaryOp} (meets : operator.meets parent = true)
    (stays : needsParentheses (.binary other) (.ofBinary parent .left) = true ∨ operator.rightPower < other.leftPower) :
    needsParentheses (.binary other) (.ofBinary parent .left) =
      needsParentheses (.binary other) (.ofBinary operator .right) := by
  have checked := check_meets (fun operator parent other =>
    needsParentheses (.binary other) (.ofBinary parent .left) ==
        needsParentheses (.binary other) (.ofBinary operator .right) ||
      !needsParentheses (.binary other) (.ofBinary parent .left) && decide (other.leftPower ≤ operator.rightPower))
    (by decide +kernel) meets other
  rcases stays with marked | stronger
  · simpa [marked] using checked
  · simpa [Nat.not_le.mpr stronger] using checked

theorem bare_of_meets {operator parent : BinaryOp} (meets : operator.meets parent = true) :
    needsParentheses (.binary operator) (.ofBinary parent .left) = false := by
  have checked := BinaryOp.check (fun operator parent => !operator.meets parent ||
    !needsParentheses (.binary operator) (.ofBinary parent .left)) (by decide +kernel) operator parent
  simpa [meets] using checked

theorem needsUnaryParentheses_of_meets {operator parent : BinaryOp} (meets : operator.meets parent = true) :
    needsUnaryParentheses (.ofBinary parent .left) = needsUnaryParentheses (.ofBinary operator .right) := by
  have checked := BinaryOp.check (fun operator parent => !operator.meets parent ||
    needsUnaryParentheses (.ofBinary parent .left) == needsUnaryParentheses (.ofBinary operator .right))
      (by decide +kernel) operator parent
  simpa [meets] using checked

theorem needsParentheses_of_reassociates {operator other : BinaryOp} {context : Context}
    (reassociates : operator.reassociates other = true) (regular : context.Regular) :
    needsParentheses (.binary other) context = needsParentheses (.binary operator) context := by
  have checked := BinaryOp.check (fun operator other => !operator.reassociates other ||
      (needsParentheses (.binary other) .top == needsParentheses (.binary operator) .top &&
        BinaryOp.all.all (fun parent => [Side.left, .right].all fun side =>
          needsParentheses (.binary other) (.ofBinary parent side) ==
            needsParentheses (.binary operator) (.ofBinary parent side)) &&
        UnaryOp.all.all fun parent => needsParentheses (.binary other) (.ofUnary parent) ==
          needsParentheses (.binary operator) (.ofUnary parent))) (by decide +kernel) operator other
  simp only [reassociates, Bool.not_true, Bool.false_or, Bool.and_eq_true, List.all_eq_true, beq_iff_eq] at checked
  obtain ⟨⟨top, binary⟩, unary⟩ := checked
  cases regular with
  | top => exact top
  | binary parent side => exact binary parent parent.mem_all side (by cases side <;> simp)
  | unary parent => exact unary parent (by cases parent <;> decide)

end BinaryOp

namespace Expr

/-- An expression in the form that printing gives it: an operation is marked where its context asks for parentheses,
and anything else is read again as the same tokens. -/
def Settled : Context → Expr ι → Prop
  | context, .binary site operator left right =>
    site.parenthesized = needsParentheses (.binary operator) context ∧
      left.Settled (.ofBinary operator .left) ∧ right.Settled (.ofBinary operator .right)
  | context, .unary site operator operand =>
    site.parenthesized = needsUnaryParentheses context ∧ operand.Settled (.ofUnary operator)
  | context, expression => ∀ text, (expression.reread context).kinds text = expression.kinds text

theorem kinds_of_settled (text : ι → String) : ∀ (expression : Expr ι) {context : Context},
    expression.Settled context → (expression.reread context).kinds text = expression.kinds text
  | .binary site operator left right, context, ⟨marked, front, back⟩ => by
    obtain ⟨whole, graft, found⟩ := reread_binary_cases context site operator left right
    have unmarked : whole.site.parenthesized = false := graft ▸ graft_site ..
    have inner : whole.kinds text = left.kinds text ++ operator.token :: right.kinds text := by
      rw [graft, kinds_graft, kinds_of_settled text left front, kinds_of_settled text right back]
    rcases found with ⟨needed, same⟩ | ⟨bare, same⟩
    · rw [same, kinds_parenthesize text unmarked, inner, Expr.kinds, Site.enclose, if_pos (marked.trans needed)]
    · rw [same, inner, Expr.kinds, Site.enclose, if_neg (by simp [marked, bare])]
  | .unary site operator operand, context, ⟨marked, inner⟩ => by
    simp [reread, Expr.kinds, Site.enclose, marked, kinds_of_settled text operand inner]
  | .identifier .., _, settled | .literal .., _, settled | .call .., _, settled | .callTable .., _, settled
  | .callString .., _, settled | .index .., _, settled | .member .., _, settled | .function .., _, settled
  | .table .., _, settled => settled text

section Graft

variable {operator : BinaryOp} {left : Expr ι} (front : left.Settled (.ofBinary operator .left))

include front

/-- Grafting into the left operand of an operator that the grafted one meets. The invariant down the left edge is
that every operator there is met too. -/
theorem settled_graft_left : ∀ (right : Expr ι) {parent : BinaryOp}, operator.meets parent = true →
    right.Settled (.ofBinary parent .left) → (graft operator left right).Settled (.ofBinary parent .left)
  | .binary site other nearest farthest, parent, meets, ⟨marked, inner, outer⟩ => by
    simp only [graft]
    split
    next descends =>
      simp only [Bool.and_eq_true, Bool.not_eq_true', decide_eq_true_eq] at descends
      have further := BinaryOp.meets_left meets (marked ▸ descends.1) descends.2
      exact ⟨marked, settled_graft_left nearest further inner, outer⟩
    next stays =>
      have kept : site.parenthesized = true ∨ operator.rightPower < other.leftPower := by
        simpa [Decidable.imp_iff_not_or] using stays
      have same := BinaryOp.needsParentheses_left meets (marked ▸ kept)
      exact ⟨(BinaryOp.bare_of_meets meets).symm, front, marked.trans same, inner, outer⟩
  | .unary .., _, meets, ⟨marked, inner⟩ =>
    ⟨(BinaryOp.bare_of_meets meets).symm, front,
      marked.trans (BinaryOp.needsUnaryParentheses_of_meets meets), inner⟩
  | .identifier .., _, meets, settled | .literal .., _, meets, settled | .call .., _, meets, settled
  | .callTable .., _, meets, settled | .callString .., _, meets, settled | .index .., _, meets, settled
  | .member .., _, meets, settled | .function .., _, meets, settled | .table .., _, meets, settled =>
    ⟨(BinaryOp.bare_of_meets meets).symm, front, settled⟩

/-- What is read of an operator between settled operands is an operation on settled operands, in parentheses where
the written operator is. -/
theorem graft_settled {context : Context} (regular : context.Regular) {right : Expr ι}
    (back : right.Settled (.ofBinary operator .right)) :
    ∃ site other nearest farthest, graft operator left right = .binary site other nearest farthest ∧
      needsParentheses (.binary other) context = needsParentheses (.binary operator) context ∧
      nearest.Settled (.ofBinary other .left) ∧ farthest.Settled (.ofBinary other .right) := by
  cases right with
  | binary site other nearest farthest =>
      simp only [graft]
      split
      next descends =>
        simp only [Bool.and_eq_true, Bool.not_eq_true', decide_eq_true_eq] at descends
        obtain ⟨marked, inner, outer⟩ := back
        have reassociates : operator.reassociates other = true := by
          cases kept : operator.reassociates other with
          | true => rfl
          | false => exact absurd (leftPower_of_bare kept (marked ▸ descends.1)) (Nat.not_lt.mpr descends.2)
        exact ⟨site, other, _, farthest, rfl, BinaryOp.needsParentheses_of_reassociates reassociates regular,
          settled_graft_left front nearest (BinaryOp.meets_of_reassociates reassociates) inner, outer⟩
      next => exact ⟨_, operator, left, _, rfl, rfl, front, back⟩
  | _ => exact ⟨_, operator, left, _, rfl, rfl, front, back⟩

end Graft

theorem settled_binary {context : Context} (regular : context.Regular) (site : Site) {operator : BinaryOp}
    {left right : Expr ι} (front : (left.reread (.ofBinary operator .left)).Settled (.ofBinary operator .left))
    (back : (right.reread (.ofBinary operator .right)).Settled (.ofBinary operator .right)) :
    ((binary site operator left right).reread context).Settled context := by
  obtain ⟨mark, other, nearest, farthest, found, needs, inner, outer⟩ := graft_settled front regular back
  obtain ⟨whole, graft, cases⟩ := reread_binary_cases context site operator left right
  have unmarked : whole.site.parenthesized = false := graft ▸ graft_site ..
  rw [graft.trans found] at cases unmarked
  rcases cases with ⟨needed, same⟩ | ⟨bare, same⟩
  · rw [same]
    exact ⟨(needs.trans needed).symm, inner, outer⟩
  · rw [same]
    exact ⟨unmarked.trans (needs.trans bare).symm, inner, outer⟩

theorem kinds_unmark (text : ι → String) (expression : Expr ι) :
    expression.kinds text = expression.site.enclose (expression.unmark.kinds text) := by
  cases expression <;> simp [unmark, Expr.kinds, Site.enclose, Expr.site]

theorem unmark_parenthesize (expression : Expr ι) : expression.parenthesize.unmark = expression.unmark := by
  cases expression <;> rfl

theorem unmark_asBase (printed original : Expr ι) : (printed.asBase original).unmark = printed.unmark := by
  unfold asBase
  split
  · exact unmark_parenthesize printed
  · rfl

theorem marked_top (expression : Expr ι) : (expression.reread .top).site.parenthesized = expression.isTruncated := by
  cases expression with
  | binary site operator left right =>
      have bare : needsParentheses (.binary operator) .top = false := by cases operator <;> rfl
      simp [reread, bare, graft_site, isTruncated, isMultiValue, isCall]
  | literal site kind raw => cases kind <;> simp [reread, Expr.site, isTruncated, isMultiValue, isCall]
  | _ => simp [reread, Expr.site, isTruncated, isMultiValue, isCall, needsUnaryParentheses, Context.top]

theorem isPlace_parenthesize (expression : Expr ι) : expression.parenthesize.isPlace = expression.isPlace := by
  cases expression <;> rfl

theorem isPlace_graft (operator : BinaryOp) (left right : Expr ι) : (graft operator left right).isPlace = false := by
  cases right with
  | binary =>
      simp only [graft]
      split <;> rfl
  | _ => rfl

theorem isPlace_reread (expression : Expr ι) (context : Context) :
    (expression.reread context).isPlace = expression.isPlace := by
  cases expression with
  | binary site operator left right =>
      obtain ⟨whole, rfl, ⟨_, same⟩ | ⟨_, same⟩⟩ := reread_binary_cases context site operator left right
      · rw [same, isPlace_parenthesize]
        exact isPlace_graft ..
      · rw [same]
        exact isPlace_graft ..
  | _ => rfl

theorem isPlace_asBase (expression : Expr ι) :
    ((expression.reread .top).asBase expression).isPlace = expression.isPlace := by
  unfold asBase
  split
  · rw [isPlace_parenthesize, isPlace_reread]
  · exact isPlace_reread expression .top

theorem isTruncated_reread (expression : Expr ι) :
    (expression.reread .top).isTruncated = (expression.reread .top).site.parenthesized := by
  cases marked : (expression.reread .top).site.parenthesized with
  | false => simp [isTruncated, marked]
  | true =>
      have truncated := (marked_top expression).symm.trans marked
      cases expression with
      | literal site kind raw => cases kind <;> simp_all [reread, Expr.site, isTruncated, isMultiValue]
      | _ => simp_all [reread, Expr.site, isTruncated, isMultiValue, isCall]

theorem core_of_settled (text : ι → String) {expression : Expr ι}
    (settled : (expression.reread .top).Settled .top) :
    (expression.reread .top).core text = (expression.reread .top).unmark.kinds text := by
  have same := kinds_of_settled text _ settled
  rw [kinds_reread, kinds_unmark text (expression.reread .top), Site.enclose, Site.enclose, marked_top,
    isTruncated_reread] at same
  split at same
  · simpa using same
  · exact same

theorem kinds_base (text : ι → String) {expression : Expr ι} (suffixable : expression.isSuffixable = true)
    (settled : (expression.reread .top).Settled .top) :
    ((((expression.reread .top).asBase expression).reread .top).asBase
      ((expression.reread .top).asBase expression)).kinds text =
        ((expression.reread .top).asBase expression).kinds text := by
  have core : ((expression.reread .top).asBase expression).core text =
      ((expression.reread .top).asBase expression).unmark.kinds text := by
    rw [core, unmark_asBase]
    exact core_of_settled text settled
  rw [kinds_asBase, kinds_unmark text ((expression.reread .top).asBase expression), core, Site.enclose, Site.enclose,
    marked_asBase (isSuffixable_asBase suffixable), marked_asBase suffixable, isPlace_asBase]

end Expr

section Trees

variable {valid : Kind → Prop} {named : ι → Prop}

attribute [local simp] Expr.reread Expr.kinds Field.reread Field.kinds Stat.reread Stat.kinds Else.reread Else.kinds
  Block.reread Block.kinds Expr.rereadAll Expr.kindsAll Field.rereadAll Field.kindsAll Site.enclose

mutual

theorem Expr.settled_reread : ∀ (expression : Expr ι) {context : Context} {called : Bool}, context.Regular →
    expression.Formed valid named called → (expression.reread context).Settled context
  | .identifier .., _, _, _, _ => fun _ => rfl
  | .literal .., _, _, _, _ => fun _ => by simp
  | .binary site operator left right, _, _, regular, formed =>
    Expr.settled_binary regular site (left.settled_reread (.binary operator .left) formed.1)
      (right.settled_reread (.binary operator .right) formed.2)
  | .unary _ operator operand, _, _, _, formed => ⟨rfl, operand.settled_reread (.unary operator) formed⟩
  | .call _ callee arguments, _, _, _, ⟨suffixable, formed, given⟩ => fun text => by
    simp [Expr.kinds_base text suffixable (callee.settled_reread .top formed),
      Expr.kindsAll_settled text arguments given]
  | .callTable _ callee _ fields, _, _, _, ⟨suffixable, formed, given⟩ => fun text => by
    simp [Expr.kinds_base text suffixable (callee.settled_reread .top formed),
      Field.kindsAll_settled text fields given]
  | .callString _ callee _ _, _, _, _, ⟨suffixable, formed, _⟩ => fun text => by
    simp [Expr.kinds_base text suffixable (callee.settled_reread .top formed)]
  | .index _ base key, _, _, _, ⟨suffixable, formed, given⟩ => fun text => by
    simp [Expr.kinds_base text suffixable (base.settled_reread .top formed),
      Expr.kinds_of_settled text _ (key.settled_reread .top given)]
  | .member _ base _ _, _, _, _, ⟨_, suffixable, formed, _⟩ => fun text => by
    simp [Expr.kinds_base text suffixable (base.settled_reread .top formed)]
  | .function _ _ body, _, _, _, ⟨_, formed⟩ => fun text => by simp [Block.kinds_settled text body true formed]
  | .table _ fields, _, _, _, formed => fun text => by simp [Field.kindsAll_settled text fields formed]

theorem Expr.kindsAll_settled (text : ι → String) : ∀ expressions : List (Expr ι),
    Expr.FormedAll valid named expressions →
      Expr.kindsAll text (Expr.rereadAll (Expr.rereadAll expressions)) =
        Expr.kindsAll text (Expr.rereadAll expressions)
  | [], _ => rfl
  | expression :: rest, formed => by
    simp [Expr.kinds_of_settled text _ (expression.settled_reread .top formed.1),
      Expr.kindsAll_settled text rest formed.2]

theorem Field.kinds_settled (text : ι → String) : ∀ field : Field ι, field.Formed valid named →
    field.reread.reread.kinds text = field.reread.kinds text
  | .keyed key value, formed => by
    simp [Expr.kinds_of_settled text _ (key.settled_reread .top formed.1),
      Expr.kinds_of_settled text _ (value.settled_reread .top formed.2)]
  | .named _ value, formed => by simp [Expr.kinds_of_settled text _ (value.settled_reread .top formed.2)]
  | .item value, formed => Expr.kinds_of_settled text _ (value.settled_reread .top formed)

theorem Field.kindsAll_settled (text : ι → String) : ∀ fields : List (Field ι), Field.FormedAll valid named fields →
    Field.kindsAll text (Field.rereadAll (Field.rereadAll fields)) = Field.kindsAll text (Field.rereadAll fields)
  | [], _ => rfl
  | field :: rest, formed => by
    simp [Field.kinds_settled text field formed.1, Field.kindsAll_settled text rest formed.2]

theorem Stat.kinds_settled (text : ι → String) : ∀ statement : Stat ι, statement.Formed valid named →
    statement.reread.reread.kinds text = statement.reread.kinds text
  | .assign _ targets values, ⟨_, _, formed, _, given⟩ => by
    simp [Expr.kindsAll_settled text targets formed, Expr.kindsAll_settled text values given]
  | .localVars _ _ values, ⟨_, _, given⟩ => by
    have list := Expr.kindsAll_settled text values given
    cases values <;> simp_all
  | .call _ call, ⟨_, _, formed⟩ => Expr.kinds_of_settled text _ (call.settled_reread .top formed)
  | .cond _ condition body rest, ⟨test, inner, further⟩ => by
    simp [Expr.kinds_of_settled text _ (condition.settled_reread .top test), Block.kinds_settled text body true inner,
      Else.kinds_settled text rest further]
  | .whileLoop _ condition body, ⟨test, inner⟩ => by
    simp [Expr.kinds_of_settled text _ (condition.settled_reread .top test), Block.kinds_settled text body true inner]
  | .doBlock _ body, inner => by simp [Block.kinds_settled text body true inner]
  | .breakLoop _, _ => rfl
  | .repeatLoop _ body condition, ⟨inner, test⟩ => by
    simp [Expr.kinds_of_settled text _ (condition.settled_reread .top test), Block.kinds_settled text body true inner]
  | .function _ _ _ body, ⟨_, _, inner⟩ => by simp [Block.kinds_settled text body true inner]
  | .localFunction _ _ _ body, ⟨_, _, inner⟩ => by simp [Block.kinds_settled text body true inner]
  | .numericFor _ _ start limit none body, ⟨_, first, stop, inner⟩ => by
    simp [Expr.kinds_of_settled text _ (start.settled_reread .top first),
      Expr.kinds_of_settled text _ (limit.settled_reread .top stop), Block.kinds_settled text body true inner]
  | .numericFor _ _ start limit (some step) body, ⟨_, first, stop, stride, inner⟩ => by
    simp [Expr.kinds_of_settled text _ (start.settled_reread .top first),
      Expr.kinds_of_settled text _ (limit.settled_reread .top stop),
      Expr.kinds_of_settled text _ (step.settled_reread .top stride), Block.kinds_settled text body true inner]
  | .genericFor _ _ iterators body, ⟨_, _, _, given, inner⟩ => by
    simp [Expr.kindsAll_settled text iterators given, Block.kinds_settled text body true inner]
  | .label .., _ => rfl
  | .goto .., _ => rfl

theorem Else.kinds_settled (text : ι → String) : ∀ rest : Else ι, rest.Formed valid named →
    rest.reread.reread.kinds text = rest.reread.kinds text
  | .none, _ => rfl
  | .otherwise _ body, inner => by simp [Block.kinds_settled text body true inner]
  | .elseif _ condition body rest, ⟨test, inner, further⟩ => by
    simp [Expr.kinds_of_settled text _ (condition.settled_reread .top test), Block.kinds_settled text body true inner,
      Else.kinds_settled text rest further]

theorem Block.kinds_settled (text : ι → String) : ∀ (body : Block ι) (isFirst : Bool), body.Formed valid named →
    body.reread.reread.kinds text isFirst = body.reread.kinds text isFirst
  | .nil, _, _ => rfl
  | .ret _ values, _, given => by simp [Expr.kindsAll_settled text values given]
  | .cons head tail, isFirst, ⟨formed, further⟩ => by
    simp [Stat.kinds_settled text head formed, Block.kinds_settled text tail false further]

end

end Trees
end LuaMinifier
