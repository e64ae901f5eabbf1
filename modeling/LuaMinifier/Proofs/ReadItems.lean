import LuaMinifier.Proofs.ItemViews
import LuaMinifier.Proofs.Runs

/-!
What is read from tokens is made of them: the items of a tree are the tokens it was read from, without separators,
and its variables and literals stand where their tokens stand.
-/

namespace LuaMinifier

open Token

/-- Tokens in which the items of something stand, in order and with nothing but separators between them. -/
inductive Reads : List Token → List (Item Name) → Prop
  | nil : Reads [] []
  | skip {token : Token} {tokens : List Token} {items : List (Item Name)} :
      token.kind.separates = true → Reads tokens items → Reads (token :: tokens) items
  | occurrence {tokens : List Token} {items : List (Item Name)} (name : Name) :
      Reads tokens items → Reads (⟨.name name.text, name.position⟩ :: tokens) (.occurrence name :: items)
  | literal {tokens : List Token} {items : List (Item Name)} (kind : Kind) (position : Position) :
      Reads tokens items → Reads (⟨kind, position⟩ :: tokens) (.literal kind position :: items)
  | fixed {tokens : List Token} {items : List (Item Name)} (kind : Kind) (position : Position) :
      Reads tokens items → Reads (⟨kind, position⟩ :: tokens) (.fixed kind :: items)

namespace Reads

variable {tokens more : List Token} {items others : List (Item Name)}

theorem append (first : Reads tokens items) (second : Reads more others) :
    Reads (tokens ++ more) (items ++ others) := by
  induction first with
  | nil => exact second
  | skip separates _ ih => exact .skip separates ih
  | occurrence name _ ih => exact .occurrence name ih
  | literal kind position _ ih => exact .literal kind position ih
  | fixed kind position _ ih => exact .fixed kind position ih

theorem token {token : Token} {kind : Kind} (same : token.kind = kind) (rest : Reads tokens items) :
    Reads (token :: tokens) (.fixed kind :: items) := by
  obtain ⟨_, position⟩ := token
  subst same
  exact .fixed _ position rest

theorem length_le (reads : Reads tokens items) : items.length ≤ tokens.length := by
  induction reads with
  | nil => exact Nat.le_refl 0
  | skip _ _ ih => exact Nat.le_succ_of_le ih
  | occurrence _ _ ih => exact Nat.succ_le_succ ih
  | literal _ _ _ ih => exact Nat.succ_le_succ ih
  | fixed _ _ _ ih => exact Nat.succ_le_succ ih

end Reads

namespace Input

theorem tokens_of_current {input : Input} (inside : input.current.kind ≠ .eof) :
    input.tokens = input.current :: input.rest.tokens := by
  obtain ⟨tokens, finish⟩ := input
  cases tokens with
  | nil => exact absurd rfl inside
  | cons token rest => rfl

end Input

theorem BinaryOp.token_of_ofToken {kind : Kind} {operator : BinaryOp} (found : BinaryOp.ofToken? kind = some operator) :
    kind = operator.token := by
  unfold BinaryOp.ofToken? at found
  split at found <;> cases found <;> rfl

theorem UnaryOp.token_of_ofToken {kind : Kind} {operator : UnaryOp} (found : UnaryOp.ofToken? kind = some operator) :
    kind = operator.token := by
  unfold UnaryOp.ofToken? at found
  split at found <;> cases found <;> rfl

theorem LiteralKind.token_of_literalOf {token : Kind} {kind : LiteralKind} {raw : String}
    (found : Parser.literalOf? token = some (kind, raw)) : token = kind.token raw := by
  unfold Parser.literalOf? at found
  split at found <;> cases found <;> rfl

namespace Parser

variable {α β : Type} {input : Input} {reader : Parser α}

/-- What a reader takes from an input satisfies a condition together with what it gives. -/
def ConsumesAt (input : Input) (reader : Parser α) (condition : List Token → α → Prop) : Prop :=
  ∀ value rest, reader.run input = .ok (value, rest) →
    ∃ used, input.tokens = used ++ rest.tokens ∧ condition used value

def Consumes (reader : Parser α) (condition : List Token → α → Prop) : Prop :=
  ∀ input, ConsumesAt input reader condition

/-- A reader of something with these items. -/
def Gives (reader : Parser α) (items : α → List (Item Name)) : Prop :=
  Consumes reader fun used value => Reads used (items value)

namespace ConsumesAt

variable {condition : List Token → α → Prop}

theorem pure {value : α} (holds : condition [] value) : ConsumesAt input (Pure.pure value : Parser α) condition := by
  intro result rest run
  cases run
  exact ⟨[], rfl, holds⟩

theorem bind {next : α → Parser β} {result : List Token → β → Prop} (start : ConsumesAt input reader condition)
    (more : ∀ value used rest, condition used value →
      ConsumesAt rest (next value) fun further final => result (used ++ further) final) :
    ConsumesAt input (reader >>= next) result := by
  intro final last run
  rw [StateT.run_bind] at run
  cases ran : reader.run input with
  | error failure =>
      rw [ran] at run
      cases run
  | ok pair =>
      rw [ran] at run
      obtain ⟨used, front, holds⟩ := start pair.1 pair.2 ran
      obtain ⟨further, back, whole⟩ := more pair.1 used pair.2 holds final last run
      exact ⟨used ++ further, by rw [front, back, List.append_assoc], whole⟩

theorem imp {weaker : List Token → α → Prop} (consumes : ConsumesAt input reader condition)
    (weaken : ∀ used value, condition used value → weaker used value) : ConsumesAt input reader weaker := by
  intro value rest run
  obtain ⟨used, front, holds⟩ := consumes value rest run
  exact ⟨used, front, weaken used value holds⟩

theorem fail {cause : SyntaxError.Cause} {position : Position} :
    ConsumesAt input (Parser.fail cause position : Parser α) condition := by
  intro result rest run
  cases run

theorem current {next : Token → Parser α} (consumes : ConsumesAt input (next input.current) condition) :
    ConsumesAt input (Parser.current >>= next) condition := consumes

theorem get {next : Input → Parser α} (consumes : ConsumesAt input (next input) condition) :
    ConsumesAt input (MonadState.get >>= next) condition := consumes

theorem advance {next : Unit → Parser α} {token : Token} {tokens : List Token} (front : input.tokens = token :: tokens)
    (consumes : ConsumesAt input.rest (next ()) fun further value => condition (token :: further) value) :
    ConsumesAt input (Parser.advance >>= next) condition := by
  intro value rest run
  obtain ⟨used, back, holds⟩ := consumes value rest run
  have behind : tokens = used ++ rest.tokens := by simpa [Input.rest, front] using back
  exact ⟨token :: used, by simp [front, behind], holds⟩

theorem take {next : Unit → Parser α} (inside : input.current.kind ≠ .eof)
    (consumes : ConsumesAt input.rest (next ()) fun further value => condition (input.current :: further) value) :
    ConsumesAt input (Parser.advance >>= next) condition :=
  advance (Input.tokens_of_current inside) consumes

theorem unexpected {expectation : SyntaxError.Expectation} :
    ConsumesAt input (Parser.unexpected expectation : Parser α) condition :=
  current fail

theorem halt {expectation : SyntaxError.Expectation} {next : Unit → Parser α} :
    ConsumesAt input (Parser.unexpected expectation >>= next) condition := by
  have never : ConsumesAt input (Parser.unexpected expectation : Parser Unit) fun _ _ => False := unexpected
  exact never.bind fun _ _ _ impossible => impossible.elim

theorem tooDeep : ConsumesAt input (Parser.tooDeep : Parser α) condition := current fail

theorem sees (kind : Kind) : ConsumesAt input (Parser.sees kind) fun used _ => used = [] := current (pure rfl)

theorem accept {kind : Kind} (inside : kind ≠ .eof) : ConsumesAt input (Parser.accept kind) fun used accepted =>
    if accepted then used = [input.current] ∧ input.current.kind = kind else used = [] := by
  intro value rest run
  by_cases same : input.current.kind = kind
  · rw [run_accept same] at run
    cases run
    exact ⟨[input.current], Input.tokens_of_current (by rwa [same]), by simpa using same⟩
  · rw [run_accept_other same] at run
    cases run
    exact ⟨[], rfl, by simp⟩

theorem acceptItem {kind : Kind} (inside : kind ≠ .eof) : ConsumesAt input (Parser.accept kind) fun used accepted =>
    Reads used (if accepted then [.fixed kind] else []) := by
  refine (accept inside).imp fun used accepted taken => ?_
  cases accepted with
  | false =>
      obtain rfl : used = [] := by simpa using taken
      exact .nil
  | true =>
      obtain ⟨rfl, same⟩ : used = [input.current] ∧ input.current.kind = kind := by simpa using taken
      exact .token same .nil

theorem acceptSeparator {kind : Kind} (separates : kind.separates = true) :
    ConsumesAt input (Parser.accept kind) fun used _ => Reads used [] := by
  have inside : kind ≠ .eof := by
    rintro rfl
    cases separates
  refine (accept inside).imp fun used accepted taken => ?_
  cases accepted with
  | false =>
      obtain rfl : used = [] := by simpa using taken
      exact .nil
  | true =>
      obtain ⟨rfl, same⟩ : used = [input.current] ∧ input.current.kind = kind := by simpa using taken
      exact .skip (by rwa [same]) .nil

theorem require {kind : Kind} {expectation : SyntaxError.Expectation} (inside : kind ≠ .eof) :
    ConsumesAt input (do unless ← Parser.accept kind do Parser.unexpected expectation) fun used _ =>
      used = [input.current] ∧ input.current.kind = kind := by
  refine (accept inside).bind fun accepted used rest taken => ?_
  cases accepted with
  | false => exact unexpected
  | true => exact pure (by simpa using taken)

theorem keyword (reserved : Keyword) :
    ConsumesAt input (Parser.keyword reserved) fun used _ => Reads used [.fixed (.keyword reserved)] :=
  (require (by simp)).imp fun _ _ ⟨taken, same⟩ => taken ▸ .token same .nil

theorem symbol (sign : Symbol) :
    ConsumesAt input (Parser.symbol sign) fun used _ => Reads used [.fixed (.symbol sign)] :=
  (require (by simp)).imp fun _ _ ⟨taken, same⟩ => taken ▸ .token same .nil

theorem separator {sign : Symbol} (separates : sign.separates = true) :
    ConsumesAt input (Parser.symbol sign) fun used _ => Reads used [] :=
  (require (by simp)).imp fun _ _ ⟨taken, same⟩ => taken ▸ .skip (by rwa [same]) .nil

theorem skip {kind : Kind} (separates : kind.separates = true) :
    ConsumesAt input (Parser.skip kind) fun used _ => Reads used [] := by
  intro value rest run
  cases run
  refine ⟨input.tokens.takeWhile (·.kind = kind), List.takeWhile_append_dropWhile.symm, ?_⟩
  induction input.tokens with
  | nil => exact .nil
  | cons token tokens ih =>
      by_cases same : token.kind = kind
      · simpa [same] using .skip (by rwa [same]) ih
      · simpa [same] using .nil

theorem fieldSeparator : ConsumesAt input Parser.fieldSeparator fun used _ => Reads used [] := by
  refine (acceptSeparator rfl).bind fun accepted used rest taken => ?_
  split
  · exact pure (by simpa using taken)
  · exact (acceptSeparator rfl).imp fun further _ last => by simpa using taken.append last

end ConsumesAt

theorem consumes_name : Consumes Parser.name fun used name => used = [⟨.name name.text, name.position⟩] := by
  intro input
  refine .current ?_
  split
  next text found =>
    refine .take (by simp [found]) (.pure ?_)
    rw [← found]
  next => exact .unexpected

theorem gives_name : Gives Parser.name fun name => [.occurrence name] :=
  fun _ => (consumes_name _).imp fun _ name taken => taken ▸ .occurrence name .nil

theorem gives_word : Gives Parser.name fun name => [.fixed (.name name.text)] :=
  fun _ => (consumes_name _).imp fun _ name taken => taken ▸ .fixed _ name.position .nil

theorem gives_moreNames : ∀ fuel, Gives (Parser.moreNames fuel) (·.map .occurrence)
  | 0, _ => .tooDeep
  | fuel + 1, input => by
    rw [Parser.moreNames]
    refine (ConsumesAt.acceptSeparator rfl).bind fun accepted comma _ front => ?_
    split
    · refine (gives_name _).bind fun first used _ name => (gives_moreNames fuel _).bind fun further others _ rest => ?_
      exact .pure (by simpa using front.append (name.append rest))
    · exact .pure (by simpa using front)

theorem gives_moreFields : ∀ fuel, Gives (Parser.moreFields fuel) fun fields =>
    fields.flatMap fun field => [.fixed (.symbol .dot), .fixed (.name field.text)]
  | 0, _ => .tooDeep
  | fuel + 1, input => by
    rw [Parser.moreFields]
    refine (ConsumesAt.acceptItem (by simp)).bind fun accepted point _ front => ?_
    split
    next true =>
      refine (gives_word _).bind fun first used _ name => (gives_moreFields fuel _).bind fun further others _ rest => ?_
      rw [if_pos true] at front
      exact .pure (by simpa using front.append (name.append rest))
    next false =>
      rw [if_neg false] at front
      exact .pure (by simpa using front)

theorem gives_functionName (fuel : Nat) : Gives (Parser.functionName fuel) FunctionName.leaves := by
  intro input
  refine (gives_name _).bind fun root used _ name => (gives_moreFields fuel _).bind fun fields others _ rest =>
    (ConsumesAt.acceptItem (by simp)).bind fun accepted colon _ mark => ?_
  split
  next true =>
    rw [if_pos true] at mark
    rw [← bind_pure_comp, bind_assoc]
    refine (gives_word _).bind fun method last _ called => .pure ?_
    simpa [FunctionName.leaves] using name.append (rest.append (mark.append called))
  next false =>
    rw [if_neg false] at mark
    rw [pure_bind]
    exact .pure (by simpa [FunctionName.leaves] using name.append (rest.append mark))

theorem gives_someParameters : ∀ fuel, Gives (Parser.someParameters fuel) Parameters.leaves
  | 0, _ => .tooDeep
  | fuel + 1, input => by
    rw [Parser.someParameters]
    refine .current ((ConsumesAt.accept (by simp)).bind fun accepted used _ taken => ?_)
    cases accepted with
    | true =>
        obtain ⟨rfl, same⟩ : used = [input.current] ∧ input.current.kind = .symbol .dotDotDot := by simpa using taken
        have token : input.current = ⟨.symbol .dotDotDot, input.current.position⟩ := by rw [← same]
        rw [token]
        exact .pure (.literal _ _ .nil)
    | false =>
        obtain rfl : used = [] := by simpa using taken
        refine (gives_name _).bind fun first named _ name =>
          (ConsumesAt.acceptSeparator rfl).bind fun accepted comma _ mark => ?_
        split
        · refine (gives_someParameters fuel _).bind fun further others _ rest => .pure ?_
          simpa [Parameters.leaves] using name.append (mark.append rest)
        · exact .pure (by simpa [Parameters.leaves] using name.append mark)

theorem gives_parameters (fuel : Nat) : Gives (Parser.parameters fuel) Parameters.leaves := by
  intro input
  refine (ConsumesAt.separator rfl).bind fun _ opened _ front => (ConsumesAt.sees _).bind fun seen used _ nothing => ?_
  subst nothing
  split
  · rw [pure_bind]
    exact (ConsumesAt.separator rfl).bind fun _ closed _ back =>
      .pure (by simpa [Parameters.leaves] using front.append back)
  · refine (gives_someParameters fuel _).bind fun read inner _ given =>
      (ConsumesAt.separator rfl).bind fun _ closed _ back => .pure ?_
    simpa using front.append (given.append back)

def Extends (reader : Parser (Expr Name)) (start : Expr Name) : Prop :=
  Consumes reader fun used value => ∃ more, value.items = start.items ++ more ∧ Reads used more

/-- What the readers take with some fuel. -/
structure Takes (fuel : Nat) : Prop where
  expression : ∀ limit, Gives (Parser.expression fuel limit) Expr.items
  operations : ∀ limit position left, Extends (Parser.operations fuel limit position left) left
  operand : Gives (Parser.operand fuel) Expr.items
  suffixed : Gives (Parser.suffixed fuel) Expr.items
  suffixes : ∀ base, Extends (Parser.suffixes fuel base) base
  arguments : ∀ callee, Extends (Parser.arguments fuel callee) callee
  expressions : Consumes (Parser.expressions fuel) fun used values =>
    values.isEmpty = false ∧ Reads used (Expr.itemsAll values)
  fields : Gives (Parser.fields fuel) fun fields => Field.itemsAll fields ++ [.fixed (.symbol .rightBrace)]
  field : Gives (Parser.field fuel) Field.items
  functionBody : Gives (Parser.functionBody fuel) fun read =>
    read.1.leaves ++ read.2.items ++ [.fixed (.keyword .kEnd)]
  block : Gives (Parser.block fuel) Block.items
  statement : Gives (Parser.statement fuel) Stat.items
  branches : Gives (Parser.branches fuel) Else.items
  loop : ∀ position, Consumes (Parser.loop fuel position) fun used loop =>
    ∃ behind, loop.items = .fixed (.keyword .kFor) :: behind ∧ Reads used behind
  assignmentOrCall : ∀ position, Gives (Parser.assignmentOrCall fuel position) Stat.items
  moreTargets : Gives (Parser.moreTargets fuel) Expr.itemsAll

namespace Takes

variable {fuel : Nat}

theorem zero : Takes 0 where
  expression _ _ := .tooDeep
  operations _ _ _ _ := .tooDeep
  operand _ := .tooDeep
  suffixed _ := .tooDeep
  suffixes _ _ := .tooDeep
  arguments _ _ := .tooDeep
  expressions _ := .tooDeep
  fields _ := .tooDeep
  field _ := .tooDeep
  functionBody _ := .tooDeep
  block _ := .tooDeep
  statement _ := .tooDeep
  branches _ := .tooDeep
  loop _ _ := .tooDeep
  assignmentOrCall _ _ := .tooDeep
  moreTargets _ := .tooDeep

variable (takes : Takes fuel)
include takes

theorem expression_step (limit : Nat) : Gives (Parser.expression (fuel + 1) limit) Expr.items := by
  intro input
  rw [Parser.expression]
  refine .current ?_
  split
  next operator found =>
    have token := UnaryOp.token_of_ofToken found
    refine .take (by rw [token]; cases operator <;> simp [UnaryOp.token]) ?_
    refine (takes.expression _ _).bind fun operand used _ inner => (takes.operations _ _ _ _).imp ?_
    rintro others value ⟨more, same, rest⟩
    rw [same]
    exact .token token (by simpa using inner.append rest)
  next =>
    refine (takes.operand _).bind fun left used _ first => (takes.operations _ _ _ _).imp ?_
    rintro others value ⟨more, same, rest⟩
    rw [same]
    exact first.append rest

theorem operations_step (limit : Nat) (position : Position) (left : Expr Name) :
    Extends (Parser.operations (fuel + 1) limit position left) left := by
  intro input
  rw [Parser.operations]
  refine .current ?_
  split
  next => exact .pure ⟨[], by simp, .nil⟩
  next operator found =>
    split
    next => exact .pure ⟨[], by simp, .nil⟩
    next =>
      have token := BinaryOp.token_of_ofToken found
      refine .take (by rw [token]; cases operator <;> simp [BinaryOp.token]) ?_
      refine (takes.expression _ _).bind fun right used _ inner => (takes.operations _ _ _ _).imp ?_
      rintro others value ⟨more, same, rest⟩
      refine ⟨.fixed operator.token :: right.items ++ more, by simp [same, Expr.items], ?_⟩
      exact .token token (inner.append rest)

theorem operand_step : Gives (Parser.operand (fuel + 1)) Expr.items := by
  intro input
  rw [Parser.operand]
  refine .current ?_
  split
  next kind raw found =>
    have token := LiteralKind.token_of_literalOf found
    refine .take (by rw [token]; cases kind <;> simp [LiteralKind.token]) (.pure ?_)
    have whole : input.current = ⟨kind.token raw, input.current.position⟩ := by rw [← token]
    rw [whole]
    exact .literal _ _ .nil
  next =>
    split
    next found =>
      refine .take (by simp [found]) ((takes.fields _).bind fun fields used _ inner => .pure ?_)
      exact .token found (by simpa [Expr.items, braced] using inner)
    next found =>
      refine .take (by simp [found]) ((takes.functionBody _).bind fun read used _ inner => .pure ?_)
      exact .token found (by simpa [Expr.items] using inner)
    next => exact takes.suffixed _

theorem suffixed_step : Gives (Parser.suffixed (fuel + 1)) Expr.items := by
  intro input
  rw [Parser.suffixed]
  refine .current ?_
  split
  next text found =>
    refine .take (by simp [found]) ((takes.suffixes _ _).imp ?_)
    rintro others value ⟨more, same, rest⟩
    have token : input.current = ⟨.name text, input.current.position⟩ := by rw [← found]
    rw [same, token]
    exact .occurrence ⟨text, input.current.position⟩ rest
  next found =>
    refine .take (by simp [found]) ((takes.expression _ _).bind fun inner used _ first =>
      (ConsumesAt.separator rfl).bind fun _ closed _ back => (takes.suffixes _ _).imp ?_)
    rintro others value ⟨more, same, rest⟩
    rw [same, Expr.items_parenthesize]
    exact .skip (by rw [found]; rfl) (by simpa using first.append (back.append rest))
  next => exact .unexpected

theorem suffixes_step (base : Expr Name) : Extends (Parser.suffixes (fuel + 1) base) base := by
  intro input
  rw [Parser.suffixes]
  refine .current ?_
  have applied : ConsumesAt input (do Parser.suffixes fuel (← Parser.arguments fuel base)) fun used value =>
      ∃ more, value.items = base.items ++ more ∧ Reads used more := by
    refine (takes.arguments _ _).bind ?_
    rintro call used _ ⟨given, called, first⟩
    refine (takes.suffixes _ _).imp ?_
    rintro others value ⟨more, same, rest⟩
    exact ⟨given ++ more, by simp [same, called], first.append rest⟩
  split
  next found =>
    refine .take (by simp [found]) ((gives_word _).bind fun field used _ name => (takes.suffixes _ _).imp ?_)
    rintro others value ⟨more, same, rest⟩
    exact ⟨_, by simpa [Expr.items, Access.token] using same, .token found (name.append rest)⟩
  next found =>
    refine .take (by simp [found]) ((takes.expression _ _).bind fun key used _ inner =>
      (ConsumesAt.symbol _).bind fun _ closed _ back => (takes.suffixes _ _).imp ?_)
    rintro others value ⟨more, same, rest⟩
    exact ⟨_, by simpa [Expr.items] using same, .token found (inner.append (back.append rest))⟩
  next found =>
    refine .take (by simp [found]) ((gives_word _).bind fun method used _ name => (takes.arguments _ _).bind ?_)
    rintro call given _ ⟨arguments, called, first⟩
    refine (takes.suffixes _ _).imp ?_
    rintro others value ⟨more, same, rest⟩
    refine ⟨_, ?_, .token found (name.append (first.append rest))⟩
    simp [same, called, Expr.items, Access.token]
  next => exact applied
  next => exact applied
  next => exact applied
  next => exact .pure ⟨[], by simp, .nil⟩

theorem arguments_step (callee : Expr Name) : Extends (Parser.arguments (fuel + 1) callee) callee := by
  intro input
  rw [Parser.arguments]
  refine .current ?_
  split
  next found =>
    have opened : input.current.kind.separates = true := by rw [found]; rfl
    refine .take (by simp [found]) ((ConsumesAt.sees _).bind fun seen used _ nothing => ?_)
    subst nothing
    split
    · rw [pure_bind]
      refine (ConsumesAt.separator rfl).bind fun _ closed _ back => .pure ⟨[], rfl, .skip opened ?_⟩
      simpa using back
    · refine (takes.expressions _).bind fun given inner _ listed =>
        (ConsumesAt.separator rfl).bind fun _ closed _ back => .pure ⟨Expr.itemsAll given, rfl, .skip opened ?_⟩
      simpa using listed.2.append back
  next found =>
    refine .take (by simp [found]) ((takes.fields _).bind fun fields used _ inner => .pure ⟨_, rfl, .token found ?_⟩)
    simpa using inner
  next raw found =>
    refine .take (by simp [found]) (.pure ⟨_, rfl, ?_⟩)
    have token : input.current = ⟨.string raw, input.current.position⟩ := by rw [← found]
    rw [token]
    exact .literal _ _ .nil
  next => exact .unexpected

theorem expressions_step : Consumes (Parser.expressions (fuel + 1)) fun used values =>
    values.isEmpty = false ∧ Reads used (Expr.itemsAll values) := by
  intro input
  rw [Parser.expressions]
  refine (takes.expression _ _).bind fun first used _ front =>
    (ConsumesAt.acceptSeparator rfl).bind fun accepted comma _ mark => ?_
  split
  · refine (takes.expressions _).bind fun further others _ rest => .pure ⟨rfl, ?_⟩
    simpa [Expr.itemsAll] using front.append (mark.append rest.2)
  · exact .pure ⟨rfl, by simpa [Expr.itemsAll] using front.append mark⟩

theorem fields_step : Gives (Parser.fields (fuel + 1)) fun fields =>
    Field.itemsAll fields ++ [.fixed (.symbol .rightBrace)] := by
  intro input
  rw [Parser.fields]
  refine (ConsumesAt.acceptItem (by simp)).bind fun accepted brace _ closed => ?_
  split
  next true =>
    rw [if_pos true] at closed
    exact .pure (by simpa [Field.itemsAll] using closed)
  next false =>
    rw [if_neg false] at closed
    refine (takes.field _).bind fun first used _ front =>
      ConsumesAt.fieldSeparator.bind fun separated mark _ between => ?_
    split
    · refine (takes.fields _).bind fun further others _ rest => .pure ?_
      simpa [Field.itemsAll] using closed.append (front.append (between.append rest))
    · refine (ConsumesAt.symbol _).bind fun _ last _ back => .pure ?_
      simpa [Field.itemsAll] using closed.append (front.append (between.append back))

theorem field_step : Gives (Parser.field (fuel + 1)) Field.items := by
  intro input
  rw [Parser.field]
  refine .get ?_
  split
  next front =>
    refine .advance front ((takes.expression _ _).bind fun key used _ first =>
      (ConsumesAt.symbol _).bind fun _ closed _ back => (ConsumesAt.symbol _).bind fun _ sign _ assign =>
        (takes.expression _ _).bind fun value others _ rest => .pure ?_)
    exact .fixed _ _ (by simpa using first.append (back.append (assign.append rest)))
  next front =>
    refine .advance front (.advance (congrArg List.tail front) ?_)
    exact (takes.expression _ _).bind fun value others _ rest => .pure (.fixed _ _ (.fixed _ _ (by simpa using rest)))
  next => exact (takes.expression _ _).bind fun value others _ rest => .pure (by simpa [Field.items] using rest)

theorem functionBody_step : Gives (Parser.functionBody (fuel + 1)) fun read =>
    read.1.leaves ++ read.2.items ++ [.fixed (.keyword .kEnd)] := by
  intro input
  rw [Parser.functionBody]
  refine (gives_parameters fuel _).bind fun given used _ front => (takes.block _).bind fun body inner _ middle =>
    (ConsumesAt.keyword _).bind fun _ last _ back => .pure ?_
  simpa using front.append (middle.append back)

theorem block_step : Gives (Parser.block (fuel + 1)) Block.items := by
  intro input
  rw [Parser.block]
  refine (ConsumesAt.skip rfl).bind fun _ skipped rest nothing => .current ?_
  split
  next found =>
    have closed : ∀ (values : List (Expr Name)) (behind : Input), ConsumesAt behind (do
        let _ ← Parser.accept (.symbol .semicolon)
        unless Parser.endsBlock (← Parser.current).kind do Parser.unexpected (.keyword .kEnd)
        return Block.ret rest.current.position values) fun used value =>
          value = .ret rest.current.position values ∧ Reads used [] := by
      intro values behind
      refine (ConsumesAt.acceptSeparator rfl).bind fun _ mark _ last => .current ?_
      split
      · exact .pure ⟨rfl, by simpa using last⟩
      · exact .halt
    refine .take (by simp [found]) (.current ?_)
    dsimp only
    split
    · rw [pure_bind]
      refine (closed [] _).imp ?_
      rintro used value ⟨rfl, last⟩
      exact nothing.append (.token found last)
    · refine (takes.expressions _).bind fun values used _ given => (closed values _).imp ?_
      rintro others value ⟨rfl, last⟩
      exact nothing.append (.token found (by simpa using given.2.append last))
  next =>
    split
    · exact .pure (by simpa [Block.items] using nothing)
    · refine (takes.statement _).bind fun head used _ first => (takes.block _).bind fun tail others _ back => .pure ?_
      simpa [Block.items] using nothing.append (first.append back)

theorem branches_step : Gives (Parser.branches (fuel + 1)) Else.items := by
  intro input
  rw [Parser.branches]
  refine .current ?_
  split
  next found =>
    refine .take (by simp [found]) ((takes.expression _ _).bind fun condition used _ test =>
      (ConsumesAt.keyword _).bind fun _ word _ middle => (takes.block _).bind fun body inner _ first =>
        (takes.branches _).bind fun further others _ rest => .pure (.token found ?_))
    simpa using test.append (middle.append (first.append rest))
  next found =>
    refine .take (by simp [found]) ((takes.block _).bind fun body inner _ first =>
      (ConsumesAt.keyword _).bind fun _ last _ back => .pure (.token found ?_))
    simpa using first.append back
  next => exact (ConsumesAt.keyword _).bind fun _ last _ back => .pure (by simpa [Else.items] using back)

theorem loop_step (position : Position) : Consumes (Parser.loop (fuel + 1) position) fun used loop =>
    ∃ behind, loop.items = .fixed (.keyword .kFor) :: behind ∧ Reads used behind := by
  intro input
  rw [Parser.loop]
  refine (gives_name _).bind fun counter used _ name => (ConsumesAt.acceptItem (by simp)).bind
    fun accepted sign _ mark => ?_
  split
  next true =>
    rw [if_pos true] at mark
    refine (takes.expression _ _).bind fun first _ _ start => (ConsumesAt.separator rfl).bind fun _ _ _ comma =>
      (takes.expression _ _).bind fun limit _ _ stop => (ConsumesAt.acceptSeparator rfl).bind
        fun accepted _ _ further => ?_
    have front := name.append (mark.append (start.append (comma.append (stop.append further))))
    split
    · simp only [bind_map_left]
      refine (takes.expression _ _).bind fun step _ _ stride => (ConsumesAt.keyword _).bind fun _ _ _ word =>
        (takes.block _).bind fun body _ _ inner => (ConsumesAt.keyword _).bind fun _ _ _ last =>
          .pure ⟨_, rfl, ?_⟩
      simpa using front.append (stride.append (word.append (inner.append last)))
    · rw [pure_bind]
      refine (ConsumesAt.keyword _).bind fun _ _ _ word => (takes.block _).bind fun body _ _ inner =>
        (ConsumesAt.keyword _).bind fun _ _ _ last => .pure ⟨_, rfl, ?_⟩
      simpa using front.append (word.append (inner.append last))
  next false =>
    rw [if_neg false] at mark
    refine (gives_moreNames fuel _).bind fun further _ _ others => (ConsumesAt.keyword _).bind fun _ _ _ word =>
      (takes.expressions _).bind fun iterators _ _ given => (ConsumesAt.keyword _).bind fun _ _ _ next =>
        (takes.block _).bind fun body _ _ inner => (ConsumesAt.keyword _).bind fun _ _ _ last =>
          .pure ⟨_, rfl, ?_⟩
    simpa using
      name.append (mark.append (others.append (word.append (given.2.append (next.append (inner.append last))))))

theorem moreTargets_step : Gives (Parser.moreTargets (fuel + 1)) Expr.itemsAll := by
  intro input
  rw [Parser.moreTargets]
  refine (ConsumesAt.acceptSeparator rfl).bind fun accepted comma _ mark => ?_
  split
  · refine (takes.suffixed _).bind fun target used _ first => (takes.moreTargets _).bind fun further others _ rest =>
      .pure ?_
    simpa [Expr.itemsAll] using mark.append (first.append rest)
  · exact .pure (by simpa [Expr.itemsAll] using mark)

theorem assignmentOrCall_step (position : Position) :
    Gives (Parser.assignmentOrCall (fuel + 1) position) Stat.items := by
  intro input
  rw [Parser.assignmentOrCall]
  refine (takes.suffixed _).bind fun first used _ front => .current ?_
  dsimp only
  split
  next =>
    refine (takes.moreTargets _).bind fun targets _ _ others => (ConsumesAt.symbol _).bind fun _ _ _ sign =>
      (takes.expressions _).bind fun values _ _ given => ?_
    split
    next => exact .fail
    next =>
      refine .pure ?_
      simpa [Stat.items, Expr.itemsAll] using front.append (others.append (sign.append given.2))
  next =>
    split
    next => exact .pure (by simpa [Stat.items] using front)
    next => exact .fail

theorem statement_step : Gives (Parser.statement (fuel + 1)) Stat.items := by
  intro input
  rw [Parser.statement]
  refine .current ?_
  dsimp only
  split
  next found =>
    refine .take (by simp [found]) ((takes.expression _ _).bind fun condition _ _ test =>
      (ConsumesAt.keyword _).bind fun _ _ _ word => (takes.block _).bind fun body _ _ inner =>
        (takes.branches _).bind fun rest _ _ others => .pure (.token found ?_))
    simpa using test.append (word.append (inner.append others))
  next found =>
    refine .take (by simp [found]) ((takes.expression _ _).bind fun condition _ _ test =>
      (ConsumesAt.keyword _).bind fun _ _ _ word => (takes.block _).bind fun body _ _ inner =>
        (ConsumesAt.keyword _).bind fun _ _ _ last => .pure (.token found ?_))
    simpa using test.append (word.append (inner.append last))
  next found =>
    refine .take (by simp [found]) ((takes.block _).bind fun body _ _ inner =>
      (ConsumesAt.keyword _).bind fun _ _ _ last => .pure (.token found ?_))
    simpa using inner.append last
  next found =>
    refine .take (by simp [found]) ((takes.loop _ _).imp ?_)
    rintro used loop ⟨behind, same, rest⟩
    rw [same]
    exact .token found rest
  next found =>
    refine .take (by simp [found]) ((takes.block _).bind fun body _ _ inner =>
      (ConsumesAt.keyword _).bind fun _ _ _ word => (takes.expression _ _).bind fun condition _ _ test =>
        .pure (.token found ?_))
    simpa using inner.append (word.append test)
  next found =>
    refine .take (by simp [found]) ((gives_functionName fuel _).bind fun called _ _ name =>
      (takes.functionBody _).bind fun read _ _ inner => .pure (.token found ?_))
    simpa using name.append inner
  next found =>
    refine .take (by simp [found]) ((ConsumesAt.acceptItem (by simp)).bind fun accepted word _ mark => ?_)
    split
    next true =>
      rw [if_pos true] at mark
      refine (gives_name _).bind fun called _ _ name => (takes.functionBody _).bind fun read _ _ inner =>
        .pure (.token found ?_)
      simpa using mark.append (name.append inner)
    next false =>
      rw [if_neg false] at mark
      refine (gives_name _).bind fun first _ _ name => (gives_moreNames fuel _).bind fun further _ _ others =>
        (ConsumesAt.acceptItem (by simp)).bind fun given _ _ sign => ?_
      have front := mark.append (name.append (others.append sign))
      split
      next true =>
        rw [if_pos true] at front
        refine (takes.expressions _).bind fun values _ _ given => .pure (.token found ?_)
        rw [given.1]
        simpa using front.append given.2
      next false =>
        rw [if_neg false] at front
        exact .pure (.token found (by simpa using front))
  next found =>
    refine .take (by simp [found]) ((gives_word _).bind fun label _ _ name =>
      (ConsumesAt.symbol _).bind fun _ _ _ last => .pure (.token found ?_))
    simpa using name.append last
  next found =>
    refine .take (by simp [found]) ((gives_word _).bind fun label _ _ name => .pure (.token found ?_))
    simpa using name
  next found => exact .take (by simp [found]) (.pure (.token found .nil))
  next => exact takes.assignmentOrCall _ _

theorem succ : Takes (fuel + 1) where
  expression := takes.expression_step
  operations := takes.operations_step
  operand := takes.operand_step
  suffixed := takes.suffixed_step
  suffixes := takes.suffixes_step
  arguments := takes.arguments_step
  expressions := takes.expressions_step
  fields := takes.fields_step
  field := takes.field_step
  functionBody := takes.functionBody_step
  block := takes.block_step
  statement := takes.statement_step
  branches := takes.branches_step
  loop := takes.loop_step
  assignmentOrCall := takes.assignmentOrCall_step
  moreTargets := takes.moreTargets_step

end Takes

theorem takes : ∀ fuel, Takes fuel
  | 0 => .zero
  | fuel + 1 => (takes fuel).succ

end Parser

/-- A tree has the items of the tokens it was read from, up to one that stands for the end of a text. -/
theorem Block.reads_of_ofTokens {lexed : Lexed} {body : Block Name} (read : Block.ofTokens lexed = .ok body) :
    ∃ used rest, lexed.tokens = used ++ rest ∧ Reads used body.items ∧ ∀ token ∈ rest.head?, token.kind = .eof := by
  obtain ⟨⟨rest, _⟩, run, finished⟩ := Block.run_of_ofTokens read
  obtain ⟨used, front, reads⟩ := (Parser.takes _).block _ _ _ run
  refine ⟨used, rest, front, reads, ?_⟩
  cases rest with
  | nil => simp
  | cons token others => simpa [Input.current] using finished

theorem Block.reads_all_of_ofTokens {lexed : Lexed} {body : Block Name}
    (inside : ∀ token ∈ lexed.tokens, token.kind ≠ .eof)
    (read : Block.ofTokens lexed = .ok body) : Reads lexed.tokens body.items := by
  obtain ⟨used, rest, split, reads, ended⟩ := Block.reads_of_ofTokens read
  cases rest with
  | nil => rwa [split, List.append_nil]
  | cons token others => exact absurd (ended token rfl) (inside token (by simp [split]))

theorem Block.length_items_le {lexed : Lexed} {body : Block Name} (read : Block.ofTokens lexed = .ok body) :
    body.items.length ≤ lexed.tokens.length := by
  obtain ⟨used, rest, split, reads, -⟩ := Block.reads_of_ofTokens read
  have bound := reads.length_le
  rw [split, List.length_append]
  omega

end LuaMinifier
