import LuaMinifier.Proofs.RoundTrip

/-!
The exact values of arithmetic expressions. What is printed of an expression has the same value as long as no product
is regrouped across a rounded quotient or a remainder.
-/

namespace LuaMinifier

open Token

variable {ι κ : Type}

namespace BinaryOp

def isArithmetic : BinaryOp → Bool
  | .add | .subtract | .multiply | .divide | .floorDivide | .modulo => true
  | _ => false

/-- The value of an operation; nothing can be divided by zero. -/
def apply : BinaryOp → Rat → Rat → Option Rat
  | .add, left, right => some (left + right)
  | .subtract, left, right => some (left - right)
  | .multiply, left, right => some (left * right)
  | .divide, left, right => if right = 0 then none else some (left / right)
  | .floorDivide, left, right => if right = 0 then none else some (left / right).floor
  | .modulo, left, right => if right = 0 then none else some (left - (left / right).floor * right)
  | _, _, _ => none

/-- The value of an operation on values that may be undefined. -/
def combine (operator : BinaryOp) (left right : Option Rat) : Option Rat := do
  operator.apply (← left) (← right)

theorem combine_assoc {operator other : BinaryOp} (regroups : operator.reassociates other = true)
    (first second third : Option Rat) :
    other.combine (operator.combine first second) third = operator.combine first (other.combine second third) := by
  unfold reassociates at regroups
  split at regroups
  all_goals cases first <;> cases second <;> cases third <;> simp [combine, apply] at regroups ⊢
  next => exact Rat.add_assoc ..
  next => grind
  next => exact Rat.mul_assoc ..
  next => grind

end BinaryOp

namespace Expr

/-- Numerals and variables with arithmetic operators and the negation between them. -/
def isArithmetic : Expr ι → Bool
  | .identifier .. | .literal _ .number _ => true
  | .unary _ .negate operand => operand.isArithmetic
  | .binary _ operator left right => operator.isArithmetic && left.isArithmetic && right.isArithmetic
  | _ => false

/-- The value of an arithmetic expression, from those of its numerals and variables. -/
def value (numeral : String → Rat) (assigned : ι → Rat) : Expr ι → Option Rat
  | .identifier _ occurrence => some (assigned occurrence)
  | .literal _ .number raw => some (numeral raw)
  | .unary _ .negate operand => (operand.value numeral assigned).map fun value => -value
  | .binary _ operator left right => operator.combine (left.value numeral assigned) (right.value numeral assigned)
  | _ => none

theorem value_parenthesize (numeral : String → Rat) (assigned : ι → Rat) (expression : Expr ι) :
    expression.parenthesize.value numeral assigned = expression.value numeral assigned := by
  cases expression with
  | literal _ kind _ => cases kind <;> rfl
  | unary _ operator _ => cases operator <;> rfl
  | _ => rfl

theorem value_view (numeral : String → Rat) (see : ι → κ) (assigned : κ → Rat) (detail : Detail) :
    ∀ (expression : Expr ι) (asBase : Bool),
      (expression.view detail see asBase).value numeral assigned = expression.value numeral (assigned ∘ see)
  | .identifier .., _ => rfl
  | .literal _ kind _, _ => by cases kind <;> rfl
  | .unary _ operator operand, _ => by
    cases operator <;> simp [Expr.view, value, value_view numeral see assigned detail operand]
  | .binary _ _ left right, _ => by
    simp [Expr.view, value, value_view numeral see assigned detail left, value_view numeral see assigned detail right]
  | .call .., _ | .callTable .., _ | .callString .., _ | .index .., _ | .member .., _ | .function .., _
  | .table .., _ => rfl

/-- Whether the operators along the left edge of a right operand either keep what they hold from an operator in front
of it or can be regrouped by it. -/
def Follows (operator : BinaryOp) : Expr ι → Prop
  | .binary site other nearest _ =>
    site.parenthesized = true ∨ operator.rightPower < other.leftPower ∨
      operator.reassociates other = true ∧ nearest.Follows operator
  | _ => True

theorem follows_of_holdsLeft {operator : BinaryOp} {expression : Expr ι}
    (holds : expression.HoldsLeft operator.rightPower) : expression.Follows operator := by
  cases expression with
  | binary => exact holds.imp_right fun inner => .inl inner.1
  | _ => trivial

theorem value_graft (numeral : String → Rat) (assigned : ι → Rat) {operator : BinaryOp} (left : Expr ι) :
    ∀ right : Expr ι, right.Follows operator → (graft operator left right).value numeral assigned =
      operator.combine (left.value numeral assigned) (right.value numeral assigned)
  | .binary site other nearest farthest, follows => by
    simp only [graft]
    split
    next descends =>
      simp only [Bool.and_eq_true, Bool.not_eq_true', decide_eq_true_eq] at descends
      rcases follows with marked | stronger | ⟨reassociates, inner⟩
      · simp [marked] at descends
      · omega
      · simp only [value, value_graft numeral assigned left nearest inner]
        exact BinaryOp.combine_assoc reassociates ..
    next => rfl
  | .identifier .., _ | .literal .., _ | .unary .., _ | .call .., _ | .callTable .., _
  | .callString .., _ | .index .., _ | .member .., _ | .function .., _ | .table .., _ => rfl

end Expr

namespace BinaryOp

theorem reassociates_trans {first second third : BinaryOp} (outer : first.reassociates second = true)
    (inner : second.reassociates third = true) : first.reassociates third = true := by
  unfold reassociates at outer
  split at outer <;> revert inner <;> cases third <;> simp [reassociates] at outer ⊢

theorem bare_of_reassociates {operator other : BinaryOp} (regroups : operator.reassociates other = true) :
    other.precedence = operator.precedence ∧
      needsParentheses (.binary other) (.ofBinary operator .right) = false := by
  unfold reassociates at regroups
  split at regroups <;> first | decide | cases regroups

theorem powers_of_precedence {operator other : BinaryOp} (arithmetic : operator.isArithmetic = true)
    (arithmetic' : other.isArithmetic = true) (stronger : operator.precedence < other.precedence) :
    operator.rightPower < other.leftPower := by
  revert arithmetic arithmetic' stronger
  cases operator <;> cases other <;> decide

end BinaryOp

namespace Expr

theorem follows_graft {operator other : BinaryOp} (regroups : operator.reassociates other = true) {left : Expr ι}
    (front : left.Follows operator) : ∀ right : Expr ι, right.Follows other →
      (graft other left right).Follows operator
  | .binary site inner nearest farthest, follows => by
    simp only [graft]
    split
    next descends =>
      simp only [Bool.and_eq_true, Bool.not_eq_true', decide_eq_true_eq] at descends
      rcases follows with marked | stronger | ⟨further, nearer⟩
      · simp [marked] at descends
      · omega
      · exact .inr (.inr ⟨BinaryOp.reassociates_trans regroups further, follows_graft regroups front nearest nearer⟩)
    next => exact .inr (.inr ⟨regroups, front⟩)
  | .identifier .., _ | .literal .., _ | .unary .., _ | .call .., _ | .callTable .., _
  | .callString .., _ | .index .., _ | .member .., _ | .function .., _ | .table .., _ =>
    .inr (.inr ⟨regroups, front⟩)

/-- Whether all operators along a left edge that are of the level of an operator can be regrouped by it. -/
def Clear (operator : BinaryOp) : Expr ι → Prop
  | .binary _ other left _ =>
    other.precedence = operator.precedence → operator.reassociates other = true ∧ left.Clear operator
  | _ => True

/-- Whether a product or a quotient starts with a rounded quotient or a remainder. -/
def roundsFirst : Expr ι → Bool
  | .binary _ .multiply left _ | .binary _ .divide left _ => left.roundsFirst
  | .binary _ .floorDivide .. | .binary _ .modulo .. => true
  | _ => false

/-- No factor on the right is a product or a quotient that starts with a rounded quotient or a remainder. -/
def Reorderable : Expr ι → Prop
  | .binary _ .multiply _ (.binary _ .multiply first _) => first.roundsFirst = false
  | .binary _ .multiply _ (.binary _ .divide first _) => first.roundsFirst = false
  | _ => True

theorem clear_add : ∀ expression : Expr ι, expression.isArithmetic = true → expression.Clear .add
  | .binary _ operator left _, arithmetic => by
    simp only [isArithmetic, Bool.and_eq_true] at arithmetic
    intro level
    refine ⟨?_, clear_add left arithmetic.1.2⟩
    revert level
    cases operator <;> simp [BinaryOp.precedence, BinaryOp.reassociates]
  | .identifier .., _ | .literal .., _ | .unary .., _ | .call .., _ | .callTable .., _
  | .callString .., _ | .index .., _ | .member .., _ | .function .., _ | .table .., _ => trivial

theorem clear_multiply : ∀ expression : Expr ι, expression.roundsFirst = false → expression.Clear .multiply
  | .binary _ operator left _, unrounded => by
    intro level
    cases operator <;> simp [BinaryOp.precedence] at level <;> simp only [roundsFirst] at unrounded
    · exact ⟨rfl, clear_multiply left unrounded⟩
    · exact ⟨rfl, clear_multiply left unrounded⟩
    · cases unrounded
    · cases unrounded
  | .identifier .., _ | .literal .., _ | .unary .., _ | .call .., _ | .callTable .., _
  | .callString .., _ | .index .., _ | .member .., _ | .function .., _ | .table .., _ => trivial

theorem clear_of_reorderable {site inner : Site} {operator other : BinaryOp} {left first last : Expr ι}
    (arithmetic : first.isArithmetic = true)
    (reorderable : (binary site operator left (binary inner other first last)).Reorderable)
    (regroups : operator.reassociates other = true) : first.Clear operator := by
  unfold BinaryOp.reassociates at regroups
  split at regroups
  · exact clear_add first arithmetic
  · exact clear_add first arithmetic
  · exact clear_multiply first reorderable
  · exact clear_multiply first reorderable
  · cases regroups

/-- An operator may take apart what it regroups of its right operand. -/
def Takes (operator : BinaryOp) (right : Expr ι) : Prop :=
  ∀ site other first last, right = .binary site other first last →
    operator.reassociates other = true → first.Clear operator

theorem takes_of_reorderable {site : Site} {operator : BinaryOp} {left right : Expr ι}
    (arithmetic : right.isArithmetic = true) (reorderable : (binary site operator left right).Reorderable) :
    right.Takes operator := by
  rintro inner other first last rfl regroups
  simp only [isArithmetic, Bool.and_eq_true] at arithmetic
  exact clear_of_reorderable arithmetic.1.2 reorderable regroups

mutual

/-- What stands on the right of an operator can be regrouped by it where it does not hold its operands. -/
theorem follows_right : ∀ (right : Expr ι) (operator : BinaryOp), operator.isArithmetic = true →
    right.isArithmetic = true → right.All Reorderable → right.Takes operator →
      (right.reread (.ofBinary operator .right)).Follows operator
  | .binary site other first last => by
    rintro operator arithmetic inner ⟨reorderable, reorderFirst, reorderLast⟩ takes
    simp only [isArithmetic, Bool.and_eq_true] at inner
    cases regroups : operator.reassociates other with
    | false =>
        refine follows_of_holdsLeft (holdsLeft_reread_right _ _ ?_)
        rintro _ _ _ _ ⟨⟩
        exact regroups
    | true =>
        obtain ⟨level, bare⟩ := BinaryOp.bare_of_reassociates regroups
        have front := follows_left first operator other level arithmetic inner.1.2 reorderFirst
          (takes _ _ _ _ rfl regroups)
        have back := follows_right last other inner.1.1 inner.2 reorderLast
          (takes_of_reorderable inner.2 reorderable)
        simp only [reread, bare, Bool.false_eq_true, ↓reduceIte]
        exact follows_graft regroups front _ back
  | .identifier .. | .literal .. | .unary .. | .call .. | .callTable .. | .callString .. | .index .. | .member ..
  | .function .. | .table .. => fun _ _ _ _ _ => trivial

theorem follows_left : ∀ (left : Expr ι) (operator parent : BinaryOp), parent.precedence = operator.precedence →
    operator.isArithmetic = true → left.isArithmetic = true → left.All Reorderable → left.Clear operator →
      (left.reread (.ofBinary parent .left)).Follows operator
  | .binary site other first last => by
    rintro operator parent level arithmetic inner ⟨reorderable, reorderFirst, reorderLast⟩ clear
    simp only [isArithmetic, Bool.and_eq_true] at inner
    obtain ⟨_, rfl, ⟨_, same⟩ | ⟨bare, same⟩⟩ := reread_binary_cases (.ofBinary parent .left) site other first last
    · rw [same]
      exact follows_of_holdsLeft (holdsLeft_of_parenthesized (parenthesize_site _) _)
    · rw [same]
      by_cases sameLevel : other.precedence = operator.precedence
      · obtain ⟨regroups, further⟩ := clear sameLevel
        have front := follows_left first operator other sameLevel arithmetic inner.1.2 reorderFirst further
        have back := follows_right last other inner.1.1 inner.2 reorderLast
          (takes_of_reorderable inner.2 reorderable)
        exact follows_graft regroups front _ back
      · have stronger : operator.precedence < other.precedence := by
          rw [needsParentheses, Bool.or_eq_false_iff, Bool.or_eq_false_iff] at bare
          have notWeaker : ¬ other.precedence < parent.precedence := of_decide_eq_false bare.1.1
          omega
        refine follows_of_holdsLeft (holdsLeft_graft_reread
          (BinaryOp.powers_of_precedence arithmetic inner.1.1 stronger) first last ?_)
        rintro (rfl | rfl) <;> simp [BinaryOp.isArithmetic] at inner
  | .identifier .. | .literal .. | .unary .. | .call .. | .callTable .. | .callString .. | .index .. | .member ..
  | .function .. | .table .. => fun _ _ _ _ _ _ _ => trivial

end

theorem value_reread (numeral : String → Rat) (assigned : ι → Rat) : ∀ (expression : Expr ι) (context : Context),
    expression.isArithmetic = true → expression.All Reorderable →
      (expression.reread context).value numeral assigned = expression.value numeral assigned
  | .binary site operator left right => by
    rintro context arithmetic ⟨reorderable, reorderLeft, reorderRight⟩
    simp only [isArithmetic, Bool.and_eq_true] at arithmetic
    have follows := follows_right right operator arithmetic.1.1 arithmetic.2 reorderRight
      (takes_of_reorderable arithmetic.2 reorderable)
    have whole := value_graft numeral assigned (left.reread (.ofBinary operator .left)) _ follows
    rw [value_reread numeral assigned left _ arithmetic.1.2 reorderLeft,
      value_reread numeral assigned right _ arithmetic.2 reorderRight] at whole
    obtain ⟨_, rfl, ⟨_, same⟩ | ⟨_, same⟩⟩ := reread_binary_cases context site operator left right <;> rw [same]
    · rw [value_parenthesize, whole, value]
    · rw [whole, value]
  | .unary _ operator operand => by
    rintro context arithmetic ⟨_, reorderable⟩
    cases operator <;> simp only [isArithmetic, Bool.false_eq_true] at arithmetic
    simp only [reread, value, value_reread numeral assigned operand _ arithmetic reorderable]
  | .literal _ kind _ => by cases kind <;> exact fun _ _ _ => rfl
  | .identifier .. => fun _ _ _ => rfl
  | .call .. | .callTable .. | .callString .. | .index .. | .member .. | .function .. | .table .. =>
    fun _ _ _ => rfl

end Expr

theorem Block.ret_of_view {detail : Detail} {see : ι → κ} {body : Block ι} {seen : Expr κ}
    (same : body.view detail see = .ret .start [seen]) :
    ∃ position again, body = .ret position [again] ∧ again.view detail see false = seen := by
  match body, same with
  | .ret position [again], same =>
    simp only [Block.view, Expr.viewAll, Block.ret.injEq, List.cons.injEq, and_true, true_and] at same
    exact ⟨position, again, rfl, same⟩

namespace Expr

/-- What is printed of an expression is read as the expression that its text spells. -/
theorem read_print (module : String) {expression : Expr Spelling}
    (formed : expression.Formed Kind.Written Spelling.Written false) :
    ∃ chunk position again, Chunk.parse ("return " ++ (expression.print module .top).toText) = .ok chunk ∧
      chunk.body = .ret position [again] ∧
      again.view .exact Identifier.name false = (expression.reread .top).view .exact Spelling.text false := by
  have printed : Spaced ((expression.reread .top).kinds Spelling.text) (expression.print module .top).chars :=
    expression.spaced_print module .top formed
  obtain ⟨first, rest, same, _⟩ := (expression.reread .top).kinds_head Spelling.text
  rw [same] at printed
  have spaced : Spaced (.keyword .kReturn :: first :: rest)
      ("return ".toList ++ (expression.print module .top).chars) := Spaced.blank trivial printed
  have plain : ("return ".toList ++ (expression.print module .top).chars).head? ≠ some '#' := by simp
  obtain ⟨lexed, found, kinds, _⟩ := spaced.tokenize plain
  let body : Block Spelling := .ret .start [expression.reread .top]
  have spelled : lexed.tokens.map (·.kind) = body.kinds Spelling.text true := by
    simp [body, Block.kinds, Expr.kindsAll, listed, kinds, same]
  have formedAgain : body.Formed Kind.Written Spelling.Written := ⟨expression.formed_reread .top formed, trivial⟩
  obtain ⟨tree, isRead, parsed⟩ := Block.ofTokens_kinds formedAgain ⟨expression.grouped_reread .top, trivial⟩ spelled
  have text : "return " ++ (expression.print module .top).toText =
      String.ofList ("return ".toList ++ (expression.print module .top).chars) := by
    rw [Fragment.toText_eq, ← String.toList_inj]
    simp
  obtain ⟨position, again, only, seen⟩ := Block.ret_of_view ((tree.view_resolve .exact).trans isRead)
  refine ⟨.ofTree tree lexed.comments, position, again, ?_, only, seen⟩
  exact Chunk.parse_eq_ok.mpr ⟨lexed, tree, by rw [text, found], parsed, rfl⟩

/-- An arithmetic expression has the value of the text that is printed for it, or is undefined like it. -/
theorem value_print (module : String) {expression : Expr Spelling} (arithmetic : expression.isArithmetic = true)
    (formed : expression.Formed Kind.Written Spelling.Written false) (reorderable : expression.All Reorderable) :
    ∃ chunk position again, Chunk.parse ("return " ++ (expression.print module .top).toText) = .ok chunk ∧
      chunk.body = .ret position [again] ∧
      ∀ (numeral assigned : String → Rat), again.value numeral (assigned ∘ Identifier.name) =
        expression.value numeral (assigned ∘ Spelling.text) := by
  obtain ⟨chunk, position, again, read, only, seen⟩ := read_print module formed
  refine ⟨chunk, position, again, read, only, fun numeral assigned => ?_⟩
  rw [← value_view numeral Identifier.name assigned .exact again false, seen, value_view,
    value_reread _ _ _ _ arithmetic reorderable]

/-- The product of a factor and `first*last`, whose parentheses are not printed. -/
def nestedProduct (factor first last : Expr Spelling) : Expr Spelling :=
  .binary (.plain .start) .multiply factor (.binary (.plain .start) .multiply first last)

/-- A numeral divided by another one, rounded or not. -/
def ratio (operator : BinaryOp) (first second : String) : Expr Spelling :=
  .binary (.plain .start) operator (.literal (.plain .start) .number first) (.literal (.plain .start) .number second)

theorem formed_number (site : Site) {raw : String} (numeral : Lexeme.isNumeral raw.toList = true) :
    (literal site .number raw : Expr Spelling).Formed Kind.Written Spelling.Written false :=
  ⟨numeral, rfl⟩

/-- Factors of `x*(1/2*x)` are regrouped. -/
theorem value_print_quotient :
    let product := nestedProduct (.identifier (.plain .start) ⟨"x", "x", .start⟩) (ratio .divide "1" "2")
      (.identifier (.plain .start) ⟨"x", "x", .start⟩)
    product.isArithmetic = true ∧ product.Formed Kind.Written Spelling.Written false ∧ product.All Reorderable ∧
      ∃ chunk position again, Chunk.parse ("return " ++ (product.print "main" .top).toText) = .ok chunk ∧
        chunk.body = .ret position [again] ∧
        ∀ (numeral assigned : String → Rat), again.value numeral (assigned ∘ Identifier.name) =
          product.value numeral (assigned ∘ Spelling.text) := by
  intro product
  have name : (Kind.name "x").Written := ⟨by decide, by decide⟩
  have formed : product.Formed Kind.Written Spelling.Written false :=
    ⟨name, ⟨formed_number _ (by decide), formed_number _ (by decide)⟩, name⟩
  have reorderable : product.All Reorderable := by
    simp [product, nestedProduct, ratio, Expr.All, Reorderable, roundsFirst]
  exact ⟨rfl, formed, reorderable, value_print "main" rfl formed reorderable⟩

/-- The factors of `2*(1//2*1)` are regrouped too, and its value is lost. -/
theorem value_print_rounded :
    let product := nestedProduct (.literal (.plain .start) .number "2") (ratio .floorDivide "1" "2")
      (.literal (.plain .start) .number "1")
    product.isArithmetic = true ∧ product.Formed Kind.Written Spelling.Written false ∧
      ∃ chunk position again, Chunk.parse ("return " ++ (product.print "main" .top).toText) = .ok chunk ∧
        chunk.body = .ret position [again] ∧
        ∃ (numeral assigned : String → Rat), numeral "1" = 1 ∧ numeral "2" = 2 ∧
          product.value numeral (assigned ∘ Spelling.text) = some 0 ∧
          again.value numeral (assigned ∘ Identifier.name) = some 1 := by
  intro product
  have formed : product.Formed Kind.Written Spelling.Written false :=
    ⟨formed_number _ (by decide), ⟨formed_number _ (by decide), formed_number _ (by decide)⟩,
      formed_number _ (by decide)⟩
  obtain ⟨chunk, position, again, read, only, seen⟩ := read_print "main" formed
  refine ⟨rfl, formed, chunk, position, again, read, only, fun raw => if raw = "2" then 2 else 1, fun _ => 0, rfl, rfl,
    by decide +kernel, ?_⟩
  rw [← value_view _ Identifier.name (fun _ => 0) .exact again false, seen, value_view]
  decide +kernel

end Expr

end LuaMinifier
