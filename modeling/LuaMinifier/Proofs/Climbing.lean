import LuaMinifier.Ast.Parser
import LuaMinifier.Proofs.Grouping

/-!
How the readers group operators. An operator is read behind a left operand only while it holds more strongly than the
limit of the reader, and a reader that stops leaves an operator that the expression holds out against. Main statement:
in every tree that is read the operands of each operator are read as its operands.
-/

namespace LuaMinifier

open Token

def Expr.isOperation {ι : Type} : Expr ι → Bool
  | .binary .. | .unary .. => true
  | _ => false

namespace Parser

variable {α β : Type} {input : Input} {reader : Parser α}

/-- What a reader gives, together with what it leaves to be read, satisfies a condition. -/
def EndsAt (input : Input) (reader : Parser α) (condition : α → Input → Prop) : Prop :=
  ∀ value rest, reader.run input = .ok (value, rest) → condition value rest

namespace EndsAt

variable {condition : α → Input → Prop}

theorem pure {value : α} (holds : condition value input) : EndsAt input (Pure.pure value : Parser α) condition := by
  intro result rest run
  cases run
  exact holds

theorem bind {next : α → Parser β} {result : β → Input → Prop} (start : EndsAt input reader condition)
    (more : ∀ value rest, condition value rest → EndsAt rest (next value) result) :
    EndsAt input (reader >>= next) result := by
  intro final last run
  rw [StateT.run_bind] at run
  cases ran : reader.run input with
  | error failure =>
      rw [ran] at run
      cases run
  | ok pair =>
      rw [ran] at run
      exact more pair.1 pair.2 (start pair.1 pair.2 ran) final last run

theorem behind {next : α → Parser β} {result : β → Input → Prop}
    (more : ∀ value rest, EndsAt rest (next value) result) : EndsAt input (reader >>= next) result := by
  have any : EndsAt input reader fun _ _ => True := fun _ _ _ => trivial
  exact any.bind fun value rest _ => more value rest

theorem current {next : Token → Parser α} (ends : EndsAt input (next input.current) condition) :
    EndsAt input (Parser.current >>= next) condition := ends

theorem fail {cause : SyntaxError.Cause} {position : Position} :
    EndsAt input (Parser.fail cause position : Parser α) condition := by
  intro result rest run
  cases run

theorem unexpected {expectation : SyntaxError.Expectation} :
    EndsAt input (Parser.unexpected expectation : Parser α) condition := current fail

theorem tooDeep : EndsAt input (Parser.tooDeep : Parser α) condition := current fail

theorem imp {weaker : α → Input → Prop} (ends : EndsAt input reader condition)
    (weaken : ∀ value rest, condition value rest → weaker value rest) : EndsAt input reader weaker := by
  intro value rest run
  exact weaken value rest (ends value rest run)

end EndsAt

/-- A grouped expression whose left edge holds under a limit, and whose right edge holds against the next operator. -/
structure Firm (limit : Nat) (expression : Expr Name) (rest : Input) : Prop where
  grouped : expression.All Expr.Grouped
  left : expression.HoldsLeft limit
  right : ∀ operator, BinaryOp.ofToken? rest.current.kind = some operator → expression.HoldsRight operator.leftPower

/-- An expression behind which no operator is strong enough for a limit. -/
def Ends (limit : Nat) (expression : Expr Name) (rest : Input) : Prop :=
  Firm limit expression rest ∧
    ∀ operator, BinaryOp.ofToken? rest.current.kind = some operator → operator.leftPower ≤ limit

/-- A grouped expression that has no operator of its own unless it stands in parentheses. -/
structure Closed (expression : Expr Name) : Prop where
  grouped : expression.All Expr.Grouped
  edge : expression.isOperation = false ∨ expression.site.parenthesized = true

theorem Closed.firm {expression : Expr Name} (closed : Closed expression) (limit : Nat) (rest : Input) :
    Firm limit expression rest := by
  obtain plain | marked := closed.edge
  · constructor
    · exact closed.grouped
    · cases expression <;> trivial
    · intro operator _
      cases expression <;> trivial
  · constructor
    · exact closed.grouped
    · exact Expr.holdsLeft_of_parenthesized marked limit
    · intro operator _
      exact Expr.holdsRight_of_parenthesized marked operator.leftPower

/-- What the readers give with some fuel. -/
structure Groups (fuel : Nat) : Prop where
  expression : ∀ limit input, EndsAt input (Parser.expression fuel limit) (Ends limit)
  operations : ∀ limit position left input, Firm limit left input →
    EndsAt input (Parser.operations fuel limit position left) (Ends limit)
  operand : ∀ input, EndsAt input (Parser.operand fuel) fun read _ => Closed read
  suffixed : ∀ input, EndsAt input (Parser.suffixed fuel) fun read _ => Closed read
  suffixes : ∀ base input, Closed base → EndsAt input (Parser.suffixes fuel base) fun read _ => Closed read
  arguments : ∀ callee input, Closed callee → EndsAt input (Parser.arguments fuel callee) fun read _ => Closed read
  expressions : ∀ input, EndsAt input (Parser.expressions fuel) fun read _ => Expr.Every Expr.Grouped read
  fields : ∀ input, EndsAt input (Parser.fields fuel) fun read _ => Field.Every Expr.Grouped read
  field : ∀ input, EndsAt input (Parser.field fuel) fun read _ => read.All Expr.Grouped
  functionBody : ∀ input, EndsAt input (Parser.functionBody fuel) fun read _ => read.2.All Expr.Grouped
  block : ∀ input, EndsAt input (Parser.block fuel) fun read _ => read.All Expr.Grouped
  statement : ∀ input, EndsAt input (Parser.statement fuel) fun read _ => read.All Expr.Grouped
  branches : ∀ input, EndsAt input (Parser.branches fuel) fun read _ => read.All Expr.Grouped
  loop : ∀ position input, EndsAt input (Parser.loop fuel position) fun read _ => read.All Expr.Grouped
  assignmentOrCall : ∀ position input,
    EndsAt input (Parser.assignmentOrCall fuel position) fun read _ => read.All Expr.Grouped
  moreTargets : ∀ input, EndsAt input (Parser.moreTargets fuel) fun read _ => Expr.Every Expr.Grouped read

namespace Groups

variable {fuel : Nat}

theorem zero : Groups 0 where
  expression _ _ := .tooDeep
  operations _ _ _ _ _ := .tooDeep
  operand _ := .tooDeep
  suffixed _ := .tooDeep
  suffixes _ _ _ := .tooDeep
  arguments _ _ _ := .tooDeep
  expressions _ := .tooDeep
  fields _ := .tooDeep
  field _ := .tooDeep
  functionBody _ := .tooDeep
  block _ := .tooDeep
  statement _ := .tooDeep
  branches _ := .tooDeep
  loop _ _ := .tooDeep
  assignmentOrCall _ _ := .tooDeep
  moreTargets _ := .tooDeep

variable (groups : Groups fuel)
include groups

/-- A whole expression, of which only the grouping matters further on. -/
theorem whole (limit : Nat) (input : Input) :
    EndsAt input (Parser.expression fuel limit) fun read _ => read.All Expr.Grouped :=
  (groups.expression limit input).imp fun _ _ ends => ends.1.grouped

theorem expression_step (limit : Nat) (input : Input) :
    EndsAt input (Parser.expression (fuel + 1) limit) (Ends limit) := by
  rw [Parser.expression]
  refine .current ?_
  split
  next operator _ =>
    refine .behind fun _ middle => (groups.expression UnaryOp.power middle).bind fun operand rest ends => ?_
    obtain ⟨firm, weaker⟩ := ends
    apply groups.operations
    constructor
    · exact ⟨firm.left, firm.grouped⟩
    · trivial
    · intro next found
      exact .inr ⟨weaker next found, firm.right next found⟩
  next =>
    exact (groups.operand input).bind fun operand rest closed => groups.operations _ _ _ _ (closed.firm limit rest)

theorem operations_step (limit : Nat) (position : Position) (left : Expr Name) (input : Input)
    (firm : Firm limit left input) :
    EndsAt input (Parser.operations (fuel + 1) limit position left) (Ends limit) := by
  rw [Parser.operations]
  refine .current ?_
  split
  next none => exact .pure ⟨firm, by simp [none]⟩
  next operator found =>
    split
    next weak =>
      refine .pure ⟨firm, fun next same => ?_⟩
      rw [found] at same
      cases same
      exact weak
    next strong =>
      refine .behind fun _ middle => (groups.expression operator.rightPower middle).bind fun right rest ends => ?_
      obtain ⟨behind, weaker⟩ := ends
      apply groups.operations
      constructor
      · exact ⟨⟨firm.right operator found, behind.left⟩, firm.grouped, behind.grouped⟩
      · exact .inr ⟨Nat.lt_of_not_le strong, firm.left⟩
      · intro next same
        exact .inr ⟨weaker next same, behind.right next same⟩

theorem operand_step (input : Input) : EndsAt input (Parser.operand (fuel + 1)) fun read _ => Closed read := by
  rw [Parser.operand]
  refine .current ?_
  split
  · exact .behind fun _ _ => .pure ⟨trivial, .inl rfl⟩
  · split
    · exact .behind fun _ middle => (groups.fields middle).bind fun _ _ every =>
        .pure ⟨⟨trivial, every⟩, .inl rfl⟩
    · exact .behind fun _ middle => (groups.functionBody middle).bind fun _ _ all =>
        .pure ⟨⟨trivial, all⟩, .inl rfl⟩
    · exact groups.suffixed input

theorem suffixed_step (input : Input) : EndsAt input (Parser.suffixed (fuel + 1)) fun read _ => Closed read := by
  rw [Parser.suffixed]
  refine .current ?_
  split
  · exact .behind fun _ _ => groups.suffixes _ _ ⟨trivial, .inl rfl⟩
  · exact .behind fun _ middle => (groups.whole 0 middle).bind fun inner _ grouped => .behind fun _ _ =>
      groups.suffixes _ _ ⟨Expr.all_grouped_parenthesize grouped, .inr inner.parenthesize_site⟩
  · exact .unexpected

theorem suffixes_step (base : Expr Name) (input : Input) (closed : Closed base) :
    EndsAt input (Parser.suffixes (fuel + 1) base) fun read _ => Closed read := by
  rw [Parser.suffixes]
  have applied : EndsAt input (do Parser.suffixes fuel (← Parser.arguments fuel base)) fun read _ => Closed read :=
    (groups.arguments base input closed).bind fun call rest called => groups.suffixes call rest called
  refine .current ?_
  split
  · exact .behind fun _ _ => .behind fun _ _ =>
      groups.suffixes _ _ ⟨⟨trivial, closed.grouped⟩, .inl rfl⟩
  · exact .behind fun _ middle => (groups.whole 0 middle).bind fun key _ grouped => .behind fun _ _ =>
      groups.suffixes _ _ ⟨⟨trivial, closed.grouped, grouped⟩, .inl rfl⟩
  · refine .behind fun _ _ => .behind fun method rest => (groups.arguments _ rest ?_).bind fun call last called =>
      groups.suffixes call last called
    exact ⟨⟨trivial, closed.grouped⟩, .inl rfl⟩
  · exact applied
  · exact applied
  · exact applied
  · exact .pure closed

theorem arguments_step (callee : Expr Name) (input : Input) (closed : Closed callee) :
    EndsAt input (Parser.arguments (fuel + 1) callee) fun read _ => Closed read := by
  rw [Parser.arguments]
  refine .current ?_
  split
  · refine .behind fun _ _ => .behind fun seen rest => ?_
    split
    · rw [pure_bind]
      exact .behind fun _ _ => .pure ⟨⟨trivial, closed.grouped, trivial⟩, .inl rfl⟩
    · exact (groups.expressions rest).bind fun given _ every => .behind fun _ _ =>
        .pure ⟨⟨trivial, closed.grouped, every⟩, .inl rfl⟩
  · exact .behind fun _ middle => (groups.fields middle).bind fun _ _ every =>
      .pure ⟨⟨trivial, closed.grouped, every⟩, .inl rfl⟩
  · exact .behind fun _ _ => .pure ⟨⟨trivial, closed.grouped⟩, .inl rfl⟩
  · exact .unexpected

theorem expressions_step (input : Input) :
    EndsAt input (Parser.expressions (fuel + 1)) fun read _ => Expr.Every Expr.Grouped read := by
  rw [Parser.expressions]
  refine (groups.whole 0 input).bind fun first _ grouped => .behind fun _ rest => ?_
  split
  · exact (groups.expressions rest).bind fun further _ every => .pure ⟨grouped, every⟩
  · exact .pure ⟨grouped, trivial⟩

theorem fields_step (input : Input) :
    EndsAt input (Parser.fields (fuel + 1)) fun read _ => Field.Every Expr.Grouped read := by
  rw [Parser.fields]
  refine .behind fun _ middle => ?_
  split
  · exact .pure trivial
  · refine (groups.field middle).bind fun first _ grouped => .behind fun _ rest => ?_
    split
    · exact (groups.fields rest).bind fun further _ every => .pure ⟨grouped, every⟩
    · exact .behind fun _ _ => .pure ⟨grouped, trivial⟩

theorem field_step (input : Input) :
    EndsAt input (Parser.field (fuel + 1)) fun read _ => read.All Expr.Grouped := by
  rw [Parser.field]
  refine .behind fun _ middle => ?_
  split
  · exact .behind fun _ first => (groups.whole 0 first).bind fun key _ known => .behind fun _ _ => .behind fun _ rest =>
      (groups.whole 0 rest).bind fun value _ grouped => .pure ⟨known, grouped⟩
  · exact .behind fun _ _ => .behind fun _ rest => (groups.whole 0 rest).bind fun value _ grouped => .pure grouped
  · exact (groups.whole 0 middle).bind fun value _ grouped => .pure grouped

theorem functionBody_step (input : Input) :
    EndsAt input (Parser.functionBody (fuel + 1)) fun read _ => read.2.All Expr.Grouped := by
  rw [Parser.functionBody]
  exact .behind fun _ rest => (groups.block rest).bind fun body _ all => .behind fun _ _ => .pure all

theorem block_step (input : Input) :
    EndsAt input (Parser.block (fuel + 1)) fun read _ => read.All Expr.Grouped := by
  rw [Parser.block]
  refine .behind fun _ start => .current ?_
  split
  · refine .behind fun _ middle => .current ?_
    dsimp only
    split
    · rw [pure_bind]
      refine .behind fun _ rest => .current ?_
      split
      · exact .pure trivial
      · exact .behind fun _ _ => .pure trivial
    · refine (groups.expressions middle).bind fun values _ every => .behind fun _ rest => .current ?_
      split
      · exact .pure every
      · exact .behind fun _ _ => .pure every
  · split
    · exact .pure trivial
    · exact (groups.statement start).bind fun head rest first => (groups.block rest).bind fun tail _ others =>
        .pure ⟨first, others⟩

theorem branches_step (input : Input) :
    EndsAt input (Parser.branches (fuel + 1)) fun read _ => read.All Expr.Grouped := by
  rw [Parser.branches]
  refine .current ?_
  split
  · exact .behind fun _ first => (groups.whole 0 first).bind fun condition _ test => .behind fun _ middle =>
      (groups.block middle).bind fun body rest all => (groups.branches rest).bind fun others _ more =>
        .pure ⟨test, all, more⟩
  · exact .behind fun _ middle => (groups.block middle).bind fun body _ all => .behind fun _ _ => .pure all
  · exact .behind fun _ _ => .pure trivial

theorem loop_step (position : Position) (input : Input) :
    EndsAt input (Parser.loop (fuel + 1) position) fun read _ => read.All Expr.Grouped := by
  rw [Parser.loop]
  refine .behind fun counter _ => .behind fun accepted middle => ?_
  split
  · refine (groups.whole 0 middle).bind fun first _ start => .behind fun _ second =>
      (groups.whole 0 second).bind fun limit _ stop => .behind fun more third => ?_
    split
    · rw [← bind_pure_comp, bind_assoc]
      refine (groups.whole 0 third).bind fun step _ stride => ?_
      rw [pure_bind]
      exact .behind fun _ rest => (groups.block rest).bind fun body _ all => .behind fun _ _ =>
        .pure ⟨start, stop, stride, all⟩
    · rw [pure_bind]
      exact .behind fun _ rest => (groups.block rest).bind fun body _ all => .behind fun _ _ =>
        .pure ⟨start, stop, all⟩
  · exact .behind fun further _ => .behind fun _ rest => (groups.expressions rest).bind fun iterators _ every =>
      .behind fun _ last => (groups.block last).bind fun body _ all => .behind fun _ _ => .pure ⟨every, all⟩

theorem moreTargets_step (input : Input) :
    EndsAt input (Parser.moreTargets (fuel + 1)) fun read _ => Expr.Every Expr.Grouped read := by
  rw [Parser.moreTargets]
  refine .behind fun accepted middle => ?_
  split
  · exact (groups.suffixed middle).bind fun target rest closed => (groups.moreTargets rest).bind fun further _ every =>
      .pure ⟨closed.grouped, every⟩
  · exact .pure trivial

theorem assignmentOrCall_step (position : Position) (input : Input) :
    EndsAt input (Parser.assignmentOrCall (fuel + 1) position) fun read _ => read.All Expr.Grouped := by
  rw [Parser.assignmentOrCall]
  refine (groups.suffixed input).bind fun first middle closed => .current ?_
  dsimp only
  split
  · refine (groups.moreTargets middle).bind fun targets _ others => .behind fun _ rest =>
      (groups.expressions rest).bind fun values _ every => ?_
    split
    · exact .fail
    · exact .pure ⟨⟨closed.grouped, others⟩, every⟩
  · split
    · exact .pure closed.grouped
    · exact .fail

theorem statement_step (input : Input) :
    EndsAt input (Parser.statement (fuel + 1)) fun read _ => read.All Expr.Grouped := by
  rw [Parser.statement]
  refine .current ?_
  dsimp only
  split
  · exact .behind fun _ first => (groups.whole 0 first).bind fun condition _ test => .behind fun _ middle =>
      (groups.block middle).bind fun body rest all => (groups.branches rest).bind fun others _ more =>
        .pure ⟨test, all, more⟩
  · exact .behind fun _ first => (groups.whole 0 first).bind fun condition _ test => .behind fun _ middle =>
      (groups.block middle).bind fun body _ all => .behind fun _ _ => .pure ⟨test, all⟩
  · exact .behind fun _ middle => (groups.block middle).bind fun body _ all => .behind fun _ _ => .pure all
  · exact .behind fun _ middle => groups.loop _ middle
  · exact .behind fun _ middle => (groups.block middle).bind fun body _ all => .behind fun _ rest =>
      (groups.whole 0 rest).bind fun condition _ test => .pure ⟨all, test⟩
  · exact .behind fun _ _ => .behind fun _ middle => (groups.functionBody middle).bind fun _ _ all => .pure all
  · refine .behind fun _ _ => .behind fun accepted middle => ?_
    split
    · exact .behind fun _ rest => (groups.functionBody rest).bind fun _ _ all => .pure all
    · refine .behind fun _ _ => .behind fun _ _ => .behind fun given rest => ?_
      split
      · exact (groups.expressions rest).bind fun values _ every => .pure every
      · rw [pure_bind]
        exact .pure trivial
  · exact .behind fun _ _ => .behind fun _ _ => .behind fun _ _ => .pure trivial
  · exact .behind fun _ _ => .behind fun _ _ => .pure trivial
  · exact .behind fun _ _ => .pure trivial
  · exact groups.assignmentOrCall _ input

theorem step : Groups (fuel + 1) where
  expression := groups.expression_step
  operations := groups.operations_step
  operand := groups.operand_step
  suffixed := groups.suffixed_step
  suffixes := groups.suffixes_step
  arguments := groups.arguments_step
  expressions := groups.expressions_step
  fields := groups.fields_step
  field := groups.field_step
  functionBody := groups.functionBody_step
  block := groups.block_step
  statement := groups.statement_step
  branches := groups.branches_step
  loop := groups.loop_step
  assignmentOrCall := groups.assignmentOrCall_step
  moreTargets := groups.moreTargets_step

end Groups

theorem groups : ∀ fuel, Groups fuel
  | 0 => .zero
  | fuel + 1 => (groups fuel).step

end Parser

/-- In a tree that is read, the operands of every operator are read as its operands. -/
theorem Block.grouped_of_ofTokens {lexed : Lexed} {body : Block Name} (read : Block.ofTokens lexed = .ok body) :
    body.All Expr.Grouped := by
  obtain ⟨rest, run, _⟩ := Block.run_of_ofTokens read
  exact (Parser.groups _).block _ _ _ run

end LuaMinifier
