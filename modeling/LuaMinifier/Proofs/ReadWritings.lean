import LuaMinifier.Proofs.Climbing
import LuaMinifier.Proofs.ReadItems
import LuaMinifier.Proofs.Writings

/-!
What the readers of a tree take from a text. Main statement: the tokens of a text are one way to write the tree that is
read from it.
-/

namespace LuaMinifier

open Token

namespace Parser

/-- A text has been read up to some input, and what was read is one of some ways to write it. -/
def Reached (source : List Kind) (front : Language Kind) (input : Input) : Prop :=
  ∃ used ∈ front, source = used ++ input.tokens.map (·.kind)

namespace Reached

variable {source : List Kind} {front other : Language Kind} {input : Input}

theorem mono (reached : Reached source front input) (within : Within front other) : Reached source other input := by
  obtain ⟨used, member, split⟩ := reached
  exact ⟨used, within used member, split⟩

theorem congr (reached : Reached source front input) (same : front = other) : Reached source other input :=
  same ▸ reached

theorem take {kind : Kind} (reached : Reached source front input) (found : input.current.kind = kind)
    (inside : kind ≠ .eof) : Reached source (front * exactly [kind]) input.rest := by
  obtain ⟨used, member, split⟩ := reached
  have tokens := Input.tokens_of_current (found ▸ inside)
  refine ⟨used ++ [kind], Language.append_mem_mul member rfl, ?_⟩
  rw [split, tokens, List.map_cons, found, List.append_assoc]
  rfl

end Reached

attribute [local simp] listed listings mul_assoc

namespace EndsAt

variable {α : Type} {input : Input} {condition : α → Input → Prop}

theorem advance {next : Unit → Parser α} (ends : EndsAt input.rest (next ()) condition) :
    EndsAt input (Parser.advance >>= next) condition := ends

theorem get {next : Input → Parser α} (ends : EndsAt input (next input) condition) :
    EndsAt input (MonadState.get >>= next) condition := ends

theorem halt {expectation : SyntaxError.Expectation} {next : Unit → Parser α} :
    EndsAt input (Parser.unexpected expectation >>= next) condition := by
  have never : EndsAt input (Parser.unexpected expectation : Parser Unit) fun _ _ => False := unexpected
  exact never.bind fun _ _ impossible => impossible.elim

theorem sees {kind : Kind} {next : Bool → Parser α}
    (ends : EndsAt input (next (decide (input.current.kind = kind))) condition) :
    EndsAt input (Parser.sees kind >>= next) condition := ends

end EndsAt

/-- What is read is one of some ways to write the result. -/
def Writes {α : Type} (reader : Parser α) (kinds : α → Language Kind) : Prop :=
  ∀ ⦃source : List Kind⦄ ⦃front : Language Kind⦄ ⦃input : Input⦄, Reached source front input →
    EndsAt input reader fun value rest => Reached source (front * kinds value) rest

/-- What is read completes what was written in front of it to one of some ways to write the result. -/
def Completes {α : Type} (reader : Parser α) (written : Language Kind) (kinds : α → Language Kind) : Prop :=
  ∀ ⦃source : List Kind⦄ ⦃front : Language Kind⦄ ⦃input : Input⦄, Reached source (front * written) input →
    EndsAt input reader fun value rest => Reached source (front * kinds value) rest

theorem writes_accept {kind : Kind} (inside : kind ≠ .eof) :
    Writes (accept kind) fun accepted => exactly (if accepted then [kind] else []) := by
  intro source front input reached accepted rest run
  by_cases found : input.current.kind = kind
  · rw [run_accept found] at run
    cases run
    exact reached.take found inside
  · rw [run_accept_other found] at run
    cases run
    simpa using reached

theorem writes_keyword (reserved : Keyword) : Writes (keyword reserved) fun _ => exactly [.keyword reserved] := by
  intro source front input reached
  refine (writes_accept (by simp) reached).bind fun accepted rest reached => ?_
  cases accepted with
  | true => exact .pure reached
  | false => exact .unexpected

theorem writes_symbol (sign : Symbol) : Writes (symbol sign) fun _ => exactly [.symbol sign] := by
  intro source front input reached
  refine (writes_accept (by simp) reached).bind fun accepted rest reached => ?_
  cases accepted with
  | true => exact .pure reached
  | false => exact .unexpected

theorem writes_name : Writes name fun name => exactly [.name name.text] := by
  intro source front input reached
  refine .current ?_
  split
  next text found => exact .advance (.pure (reached.take found (by simp)))
  next => exact .unexpected

theorem writes_skip : Writes (skip (.symbol .semicolon)) fun _ => semicolons := by
  intro source front input reached value rest run
  cases run
  obtain ⟨used, member, split⟩ := reached
  refine ⟨used ++ (input.tokens.takeWhile (·.kind = .symbol .semicolon)).map (·.kind),
    Language.append_mem_mul member ?_, ?_⟩
  · intro kind inside
    obtain ⟨token, taken, rfl⟩ := List.mem_map.mp inside
    exact of_decide_eq_true (List.all_eq_true.mp List.all_takeWhile token taken)
  · rw [split, List.append_assoc, ← List.map_append, List.takeWhile_append_dropWhile]

theorem writes_fieldSeparator : Writes fieldSeparator fun separated => if separated then divider else 1 := by
  intro source front input reached
  refine (writes_accept (by simp) reached).bind fun accepted rest reached => ?_
  cases accepted with
  | true => exact .pure (reached.mono ((Within.refl front).mul (within_add_left _ _)))
  | false =>
      refine (writes_accept (by simp) reached).imp fun accepted rest reached => ?_
      cases accepted with
      | true => exact reached.mono (by simpa [divider] using (Within.refl front).mul (within_add_right _ _))
      | false => exact reached.congr (by simp)

theorem writes_moreNames : ∀ fuel, Writes (moreNames fuel) fun names =>
    exactly (listed false (nameItems Name.text names))
  | 0 => fun _ _ _ _ => .tooDeep
  | fuel + 1 => by
    intro source front input reached
    rw [moreNames]
    refine (writes_accept (by simp) reached).bind fun accepted _ reached => ?_
    cases accepted with
    | true =>
        refine (writes_name reached).bind fun first _ reached => (writes_moreNames fuel reached).bind
          fun further _ reached => .pure (reached.congr ?_)
        simp [nameItems]
    | false => exact .pure (reached.congr (by simp [nameItems]))

theorem writes_moreFields : ∀ fuel, Writes (moreFields fuel) fun fields =>
    exactly (fields.flatMap fun field => [.symbol .dot, .name field.text])
  | 0 => fun _ _ _ _ => .tooDeep
  | fuel + 1 => by
    intro source front input reached
    rw [moreFields]
    refine (writes_accept (by simp) reached).bind fun accepted _ reached => ?_
    cases accepted with
    | true =>
        refine (writes_name reached).bind fun first _ reached => (writes_moreFields fuel reached).bind
          fun further _ reached => .pure (reached.congr ?_)
        simp
    | false => exact .pure (reached.congr (by simp))

theorem writes_functionName (fuel : Nat) : Writes (functionName fuel) fun read => exactly (read.kinds Name.text) := by
  intro source front input reached
  refine (writes_name reached).bind fun root _ reached => (writes_moreFields fuel reached).bind fun fields _ reached =>
    (writes_accept (by simp) reached).bind fun accepted _ reached => ?_
  cases accepted with
  | true =>
      rw [if_pos rfl, ← bind_pure_comp, bind_assoc]
      refine (writes_name reached).bind fun method _ reached => .pure (reached.congr ?_)
      simp [FunctionName.kinds]
  | false => exact .pure (reached.congr (by simp [FunctionName.kinds]))

theorem reached_someParameters : ∀ fuel ⦃source : List Kind⦄ ⦃front : Language Kind⦄ ⦃input : Input⦄,
    Reached source front input → EndsAt input (someParameters fuel) fun read rest =>
      read.items Name.text ≠ [] ∧ Reached source (front * exactly (listed true (read.items Name.text))) rest
  | 0, _, _, _, _ => .tooDeep
  | fuel + 1, source, front, input, reached => by
    rw [someParameters]
    refine .current ((writes_accept (by simp) reached).bind fun accepted _ reached => ?_)
    cases accepted with
    | true => exact .pure ⟨by simp [Parameters.items], reached.congr (by simp [Parameters.items, nameItems])⟩
    | false =>
        refine (writes_name reached).bind fun first _ reached =>
          (writes_accept (by simp) reached).bind fun accepted _ reached => ?_
        cases accepted with
        | true =>
            refine (reached_someParameters fuel reached).bind fun further _ read =>
              .pure ⟨by simp [Parameters.items, nameItems], read.2.congr ?_⟩
            have items : ({ further with names := first :: further.names } : Parameters Name).items Name.text =
                [.name first.text] :: further.items Name.text := by simp [Parameters.items, nameItems]
            rw [items, listed, listed_behind read.1]
            simp
        | false =>
            exact .pure ⟨by simp [Parameters.items, nameItems],
              reached.congr (by simp [Parameters.items, nameItems])⟩

theorem writes_parameters (fuel : Nat) : Writes (parameters fuel) fun read =>
    exactly (.symbol .leftParen :: listed true (read.items Name.text) ++ [.symbol .rightParen]) := by
  intro source front input reached
  refine (writes_symbol .leftParen reached).bind fun _ _ reached => .sees ?_
  split
  · rw [pure_bind]
    refine (writes_symbol .rightParen reached).bind fun _ _ reached => .pure (reached.congr ?_)
    simp [Parameters.items, nameItems]
  · refine (reached_someParameters fuel reached).bind fun _ _ read =>
      (writes_symbol .rightParen read.2).bind fun _ _ reached => .pure (reached.congr ?_)
    simp

/-- What the readers take is one way to write what they give. -/
structure Retraces (fuel : Nat) : Prop where
  expression : ∀ limit, Writes (Parser.expression fuel limit) (·.writings Name.text)
  operations : ∀ limit position (left : Expr Name),
    Completes (Parser.operations fuel limit position left) (left.writings Name.text) (·.writings Name.text)
  operand : Writes (Parser.operand fuel) (·.writings Name.text)
  suffixed : Writes (Parser.suffixed fuel) (·.writings Name.text)
  suffixes : ∀ base : Expr Name,
    Completes (Parser.suffixes fuel base) (base.writings Name.text) (·.writings Name.text)
  arguments : ∀ callee : Expr Name,
    Completes (Parser.arguments fuel callee) (callee.writings Name.text) (·.writings Name.text)
  expressions : ∀ ⦃source front input⦄, Reached source front input →
    EndsAt input (Parser.expressions fuel) fun read rest =>
      read ≠ [] ∧ Reached source (front * listings true (Expr.writingsAll Name.text read)) rest
  fields : Writes (Parser.fields fuel) fun read =>
    dividing (Field.writingsAll Name.text read) * exactly [.symbol .rightBrace]
  field : Writes (Parser.field fuel) (·.writings Name.text)
  functionBody : Writes (Parser.functionBody fuel) fun read =>
    functionWritings (read.1.items Name.text) (read.2.writings Name.text)
  block : Writes (Parser.block fuel) (·.writings Name.text)
  statement : Writes (Parser.statement fuel) (·.writings Name.text)
  branches : Writes (Parser.branches fuel) (·.writings Name.text)
  loop : ∀ position, Completes (Parser.loop fuel position) (exactly [.keyword .kFor]) (·.writings Name.text)
  assignmentOrCall : ∀ position, Writes (Parser.assignmentOrCall fuel position) (·.writings Name.text)
  moreTargets : Writes (Parser.moreTargets fuel) fun read => listings false (Expr.writingsAll Name.text read)

namespace Retraces

variable {fuel : Nat}

theorem zero : Retraces 0 where
  expression _ _ _ _ _ := .tooDeep
  operations _ _ _ _ _ _ _ := .tooDeep
  operand _ _ _ _ := .tooDeep
  suffixed _ _ _ _ := .tooDeep
  suffixes _ _ _ _ _ := .tooDeep
  arguments _ _ _ _ _ := .tooDeep
  expressions _ _ _ _ := .tooDeep
  fields _ _ _ _ := .tooDeep
  field _ _ _ _ := .tooDeep
  functionBody _ _ _ _ := .tooDeep
  block _ _ _ _ := .tooDeep
  statement _ _ _ _ := .tooDeep
  branches _ _ _ _ := .tooDeep
  loop _ _ _ _ _ := .tooDeep
  assignmentOrCall _ _ _ _ _ := .tooDeep
  moreTargets _ _ _ _ := .tooDeep

variable (retraces : Retraces fuel)
include retraces

theorem expression_step (limit : Nat) : Writes (Parser.expression (fuel + 1) limit) (·.writings Name.text) := by
  intro source front input reached
  rw [Parser.expression]
  refine .current ?_
  split
  next operator found =>
    have token := reached.take (UnaryOp.token_of_ofToken found) (by cases operator <;> simp [UnaryOp.token])
    refine .advance ((retraces.expression _ token).bind fun operand _ reached => retraces.operations _ _ _ ?_)
    exact reached.congr (by simp [Expr.writings])
  next => exact (retraces.operand reached).bind fun left _ reached => retraces.operations _ _ _ reached

theorem operations_step (limit : Nat) (position : Position) (left : Expr Name) :
    Completes (Parser.operations (fuel + 1) limit position left) (left.writings Name.text) (·.writings Name.text) := by
  intro source front input reached
  rw [Parser.operations]
  refine .current ?_
  split
  next => exact .pure reached
  next operator found =>
    split
    next => exact .pure reached
    next =>
      have token := reached.take (BinaryOp.token_of_ofToken found) (by cases operator <;> simp [BinaryOp.token])
      refine .advance ((retraces.expression _ token).bind fun right _ reached => retraces.operations _ _ _ ?_)
      exact reached.congr (by simp [Expr.writings])

theorem operand_step : Writes (Parser.operand (fuel + 1)) (·.writings Name.text) := by
  intro source front input reached
  rw [Parser.operand]
  refine .current ?_
  split
  next kind raw found =>
    have inside : kind.token raw ≠ .eof := by
      rw [← LiteralKind.token_of_literalOf found]
      intro isEnd
      rw [isEnd] at found
      cases found
    have token := reached.take (LiteralKind.token_of_literalOf found) inside
    exact .advance (.pure (token.congr (by simp [Expr.writings])))
  next =>
    split
    next found =>
      refine .advance ((retraces.fields (reached.take found (by simp))).bind fun given _ reached => .pure ?_)
      exact reached.congr (by simp [Expr.writings])
    next found =>
      refine .advance ((retraces.functionBody (reached.take found (by simp))).bind fun read _ reached => .pure ?_)
      exact reached.congr (by simp [Expr.writings])
    next => exact retraces.suffixed reached

theorem suffixed_step : Writes (Parser.suffixed (fuel + 1)) (·.writings Name.text) := by
  intro source front input reached
  rw [Parser.suffixed]
  refine .current ?_
  split
  next text found =>
    refine .advance (retraces.suffixes _ ?_)
    exact (reached.take found (by simp)).congr (by simp [Expr.writings])
  next found =>
    refine .advance ((retraces.expression 0 (reached.take found (by simp))).bind fun inner _ reached =>
      (writes_symbol .rightParen reached).bind fun _ _ reached => retraces.suffixes _ ?_)
    refine reached.mono ?_
    simpa using (Within.refl front).mul (inner.writings_parenthesize Name.text)
  next => exact .unexpected

theorem suffixes_step (base : Expr Name) :
    Completes (Parser.suffixes (fuel + 1) base) (base.writings Name.text) (·.writings Name.text) := by
  intro source front input reached
  rw [Parser.suffixes]
  have applied : EndsAt input (do Parser.suffixes fuel (← Parser.arguments fuel base)) fun read rest =>
      Reached source (front * read.writings Name.text) rest :=
    (retraces.arguments base reached).bind fun call _ reached => retraces.suffixes call reached
  refine .current ?_
  split
  next found =>
    refine .advance ((writes_name (reached.take found (by simp))).bind fun field _ reached => retraces.suffixes _ ?_)
    exact reached.congr (by simp [Expr.writings, Access.token])
  next found =>
    refine .advance ((retraces.expression 0 (reached.take found (by simp))).bind fun key _ reached =>
      (writes_symbol .rightBracket reached).bind fun _ _ reached => retraces.suffixes _ ?_)
    exact reached.congr (by simp [Expr.writings])
  next found =>
    refine .advance ((writes_name (reached.take found (by simp))).bind fun method _ reached =>
      (retraces.arguments _ ?_).bind fun call _ reached => retraces.suffixes call reached)
    exact reached.congr (by simp [Expr.writings, Access.token])
  next => exact applied
  next => exact applied
  next => exact applied
  next => exact .pure reached

theorem arguments_step (callee : Expr Name) :
    Completes (Parser.arguments (fuel + 1) callee) (callee.writings Name.text) (·.writings Name.text) := by
  intro source front input reached
  rw [Parser.arguments]
  refine .current ?_
  split
  next found =>
    refine .advance (.sees ?_)
    have opened := reached.take found (by simp)
    split
    · rw [pure_bind]
      refine (writes_symbol .rightParen opened).bind fun _ _ reached => .pure (reached.congr ?_)
      simp [Expr.writings, Expr.writingsAll]
    · refine (retraces.expressions opened).bind fun _ _ read =>
        (writes_symbol .rightParen read.2).bind fun _ _ reached => .pure (reached.congr ?_)
      simp [Expr.writings]
  next found =>
    refine .advance ((retraces.fields (reached.take found (by simp))).bind fun given _ reached => .pure ?_)
    exact reached.congr (by simp [Expr.writings])
  next raw found =>
    refine .advance (.pure ((reached.take found (by simp)).congr ?_))
    simp [Expr.writings]
  next => exact .unexpected

theorem expressions_step ⦃source : List Kind⦄ ⦃front : Language Kind⦄ ⦃input : Input⦄
    (reached : Reached source front input) :
    EndsAt input (Parser.expressions (fuel + 1)) fun read rest =>
      read ≠ [] ∧ Reached source (front * listings true (Expr.writingsAll Name.text read)) rest := by
  rw [Parser.expressions]
  refine (retraces.expression 0 reached).bind fun first _ reached =>
    (writes_accept (by simp) reached).bind fun accepted _ reached => ?_
  cases accepted with
  | true =>
      refine (retraces.expressions reached).bind fun further _ read => .pure ⟨by simp, read.2.congr ?_⟩
      simp [Expr.writingsAll, listings_behind (Expr.writingsAll_ne_nil Name.text read.1)]
  | false => exact .pure ⟨by simp, reached.congr (by simp [Expr.writingsAll])⟩

theorem fields_step : Writes (Parser.fields (fuel + 1)) fun read =>
    dividing (Field.writingsAll Name.text read) * exactly [.symbol .rightBrace] := by
  intro source front input reached
  rw [Parser.fields]
  refine (writes_accept (by simp) reached).bind fun closed _ reached => ?_
  cases closed with
  | true => exact .pure (reached.congr (by simp [Field.writingsAll, dividing]))
  | false =>
      refine (retraces.field reached).bind fun first _ reached =>
        (writes_fieldSeparator reached).bind fun separated _ reached => ?_
      cases separated with
      | true =>
          refine (retraces.fields reached).bind fun further _ reached => .pure (reached.mono ?_)
          have longer := within_dividing_cons (first.writings Name.text) (Field.writingsAll Name.text further)
          simpa [Field.writingsAll] using
            (Within.refl front).mul (longer.mul (.refl (exactly [.symbol .rightBrace])))
      | false =>
          refine (writes_symbol .rightBrace reached).bind fun _ _ reached => .pure (reached.mono ?_)
          have plain : Within (first.writings Name.text * 1) (first.writings Name.text * (1 + divider)) :=
            (Within.refl _).mul (within_add_left _ _)
          simpa [Field.writingsAll, dividing] using
            (Within.refl front).mul (plain.mul (.refl (exactly [.symbol .rightBrace])))

theorem field_step : Writes (Parser.field (fuel + 1)) (·.writings Name.text) := by
  intro source front input reached
  rw [Parser.field]
  refine .get ?_
  split
  next tokens found =>
    have bracket : input.current.kind = .symbol .leftBracket := by simp [Input.current, found]
    refine .advance ((retraces.expression 0 (reached.take bracket (by simp))).bind fun key _ reached =>
      (writes_symbol .rightBracket reached).bind fun _ _ reached =>
        (writes_symbol .assign reached).bind fun _ _ reached =>
          (retraces.expression 0 reached).bind fun value _ reached => .pure (reached.congr ?_))
    simp [Field.writings]
  next text _ _ _ found =>
    have word : input.current.kind = .name text := by simp [Input.current, found]
    have assign : input.rest.current.kind = .symbol .assign := by simp [Input.rest, Input.current, found]
    refine .advance (.advance ((retraces.expression 0
      ((reached.take word (by simp)).take assign (by simp))).bind fun value _ reached => .pure (reached.congr ?_)))
    simp [Field.writings]
  next => exact (retraces.expression 0 reached).bind fun value _ reached => .pure reached

theorem functionBody_step : Writes (Parser.functionBody (fuel + 1)) fun read =>
    functionWritings (read.1.items Name.text) (read.2.writings Name.text) := by
  intro source front input reached
  rw [Parser.functionBody]
  refine (writes_parameters fuel reached).bind fun given _ reached =>
    (retraces.block reached).bind fun body _ reached =>
      (writes_keyword .kEnd reached).bind fun _ _ reached => .pure (reached.congr ?_)
  simp [functionWritings]

theorem block_step : Writes (Parser.block (fuel + 1)) (·.writings Name.text) := by
  intro source front input reached
  rw [Parser.block]
  refine (writes_skip reached).bind fun _ start reached => .current ?_
  split
  next found =>
    have opened := reached.take found (by simp)
    let given (values : List (Expr Name)) : Language Kind :=
      front * (semicolons * exactly [.keyword .kReturn] * listings true (Expr.writingsAll Name.text values))
    have closed : ∀ (values : List (Expr Name)) ⦃rest : Input⦄, Reached source (given values) rest →
        EndsAt rest (do
          let _ ← Parser.accept (.symbol .semicolon)
          unless Parser.endsBlock (← Parser.current).kind do Parser.unexpected (.keyword .kEnd)
          return Block.ret start.current.position values) fun read rest =>
            Reached source (front * read.writings Name.text) rest := by
      intro values rest reached
      refine (writes_accept (by simp) reached).bind fun accepted _ reached => .current ?_
      split
      · refine .pure (reached.mono ?_)
        simpa [Block.writings, given] using
          (Within.refl (given values)).mul (within_optional accepted (.symbol .semicolon))
      · exact .halt
    refine .advance (.current ?_)
    dsimp only
    split
    · rw [pure_bind]
      exact closed [] (opened.congr (by simp [given, Expr.writingsAll]))
    · exact (retraces.expressions opened).bind fun values _ read =>
        closed values (read.2.congr (by simp [given]))
  next =>
    split
    · exact .pure (reached.congr (by simp [Block.writings]))
    · refine (retraces.statement reached).bind fun head _ reached => (retraces.block reached).bind
        fun tail _ reached => .pure (reached.congr ?_)
      simp [Block.writings]

theorem branches_step : Writes (Parser.branches (fuel + 1)) (·.writings Name.text) := by
  intro source front input reached
  rw [Parser.branches]
  refine .current ?_
  split
  next found =>
    refine .advance ((retraces.expression 0 (reached.take found (by simp))).bind fun condition _ reached =>
      (writes_keyword .kThen reached).bind fun _ _ reached => (retraces.block reached).bind fun body _ reached =>
        (retraces.branches reached).bind fun others _ reached => .pure (reached.congr ?_))
    simp [Else.writings]
  next found =>
    refine .advance ((retraces.block (reached.take found (by simp))).bind fun body _ reached =>
      (writes_keyword .kEnd reached).bind fun _ _ reached => .pure (reached.congr ?_))
    simp [Else.writings]
  next => exact (writes_keyword .kEnd reached).bind fun _ _ reached => .pure reached

theorem loop_step (position : Position) :
    Completes (Parser.loop (fuel + 1) position) (exactly [.keyword .kFor]) (·.writings Name.text) := by
  intro source front input reached
  rw [Parser.loop]
  refine (writes_name reached).bind fun counter _ reached =>
    (writes_accept (by simp) reached).bind fun accepted _ reached => ?_
  cases accepted with
  | true =>
      refine (retraces.expression 0 reached).bind fun first _ reached =>
        (writes_symbol .comma reached).bind fun _ _ reached =>
          (retraces.expression 0 reached).bind fun limit _ reached =>
            (writes_accept (by simp) reached).bind fun more _ reached => ?_
      cases more with
      | true =>
          rw [if_pos rfl, ← bind_pure_comp, bind_assoc]
          refine (retraces.expression 0 reached).bind fun step _ reached => ?_
          rw [pure_bind]
          refine (writes_keyword .kDo reached).bind fun _ _ reached =>
            (retraces.block reached).bind fun body _ reached =>
              (writes_keyword .kEnd reached).bind fun _ _ reached => .pure (reached.congr ?_)
          simp [Stat.writings]
      | false =>
          rw [if_neg (by simp), pure_bind]
          refine (writes_keyword .kDo reached).bind fun _ _ reached =>
            (retraces.block reached).bind fun body _ reached =>
              (writes_keyword .kEnd reached).bind fun _ _ reached => .pure (reached.congr ?_)
          simp [Stat.writings]
  | false =>
      refine (writes_moreNames fuel reached).bind fun further _ reached => (writes_keyword .kIn reached).bind
        fun _ _ reached => (retraces.expressions reached).bind fun _ _ read =>
          (writes_keyword .kDo read.2).bind fun _ _ reached => (retraces.block reached).bind fun body _ reached =>
            (writes_keyword .kEnd reached).bind fun _ _ reached => .pure (reached.congr ?_)
      simp [Stat.writings, nameItems]

theorem moreTargets_step : Writes (Parser.moreTargets (fuel + 1)) fun read =>
    listings false (Expr.writingsAll Name.text read) := by
  intro source front input reached
  rw [Parser.moreTargets]
  refine (writes_accept (by simp) reached).bind fun accepted _ reached => ?_
  cases accepted with
  | true =>
      refine (retraces.suffixed reached).bind fun target _ reached => (retraces.moreTargets reached).bind
        fun further _ reached => .pure (reached.congr ?_)
      simp [Expr.writingsAll]
  | false => exact .pure (reached.congr (by simp [Expr.writingsAll]))

theorem assignmentOrCall_step (position : Position) :
    Writes (Parser.assignmentOrCall (fuel + 1) position) (·.writings Name.text) := by
  intro source front input reached
  rw [Parser.assignmentOrCall]
  refine (retraces.suffixed reached).bind fun first _ reached => .current ?_
  dsimp only
  split
  · refine (retraces.moreTargets reached).bind fun targets _ reached => (writes_symbol .assign reached).bind
      fun _ _ reached => (retraces.expressions reached).bind fun _ _ read => ?_
    split
    · exact .fail
    · exact .pure (read.2.congr (by simp [Stat.writings, Expr.writingsAll]))
  · split
    · exact .pure reached
    · exact .fail

theorem statement_step : Writes (Parser.statement (fuel + 1)) (·.writings Name.text) := by
  intro source front input reached
  rw [Parser.statement]
  refine .current ?_
  dsimp only
  split
  next found =>
    refine .advance ((retraces.expression 0 (reached.take found (by simp))).bind fun condition _ reached =>
      (writes_keyword .kThen reached).bind fun _ _ reached => (retraces.block reached).bind fun body _ reached =>
        (retraces.branches reached).bind fun others _ reached => .pure (reached.congr ?_))
    simp [Stat.writings]
  next found =>
    refine .advance ((retraces.expression 0 (reached.take found (by simp))).bind fun condition _ reached =>
      (writes_keyword .kDo reached).bind fun _ _ reached => (retraces.block reached).bind fun body _ reached =>
        (writes_keyword .kEnd reached).bind fun _ _ reached => .pure (reached.congr ?_))
    simp [Stat.writings]
  next found =>
    refine .advance ((retraces.block (reached.take found (by simp))).bind fun body _ reached =>
      (writes_keyword .kEnd reached).bind fun _ _ reached => .pure (reached.congr ?_))
    simp [Stat.writings]
  next found => exact .advance (retraces.loop _ (reached.take found (by simp)))
  next found =>
    refine .advance ((retraces.block (reached.take found (by simp))).bind fun body _ reached =>
      (writes_keyword .kUntil reached).bind fun _ _ reached =>
        (retraces.expression 0 reached).bind fun condition _ reached => .pure (reached.congr ?_))
    simp [Stat.writings]
  next found =>
    refine .advance ((writes_functionName fuel (reached.take found (by simp))).bind fun called _ reached =>
      (retraces.functionBody reached).bind fun read _ reached => .pure (reached.congr ?_))
    simp [Stat.writings]
  next found =>
    refine .advance ((writes_accept (by simp) (reached.take found (by simp))).bind fun accepted _ reached => ?_)
    cases accepted with
    | true =>
        refine (writes_name reached).bind fun called _ reached => (retraces.functionBody reached).bind
          fun read _ reached => .pure (reached.congr ?_)
        simp [Stat.writings]
    | false =>
        refine (writes_name reached).bind fun first _ reached => (writes_moreNames fuel reached).bind
          fun further _ reached => (writes_accept (by simp) reached).bind fun given _ reached => ?_
        cases given with
        | true =>
            refine (retraces.expressions reached).bind fun values _ read => .pure (read.2.congr ?_)
            obtain ⟨value, others, rfl⟩ := List.exists_cons_of_ne_nil read.1
            simp [Stat.writings, Expr.writingsAll, nameItems]
        | false => exact .pure (reached.congr (by simp [Stat.writings, nameItems]))
  next found =>
    refine .advance ((writes_name (reached.take found (by simp))).bind fun label _ reached =>
      (writes_symbol .colonColon reached).bind fun _ _ reached => .pure (reached.congr ?_))
    simp [Stat.writings]
  next found =>
    refine .advance ((writes_name (reached.take found (by simp))).bind fun label _ reached => .pure (reached.congr ?_))
    simp [Stat.writings]
  next found => exact .advance (.pure (reached.take found (by simp)))
  next => exact retraces.assignmentOrCall _ reached

theorem step : Retraces (fuel + 1) where
  expression := retraces.expression_step
  operations := retraces.operations_step
  operand := retraces.operand_step
  suffixed := retraces.suffixed_step
  suffixes := retraces.suffixes_step
  arguments := retraces.arguments_step
  expressions := retraces.expressions_step
  fields := retraces.fields_step
  field := retraces.field_step
  functionBody := retraces.functionBody_step
  block := retraces.block_step
  statement := retraces.statement_step
  branches := retraces.branches_step
  loop := retraces.loop_step
  assignmentOrCall := retraces.assignmentOrCall_step
  moreTargets := retraces.moreTargets_step

end Retraces

theorem retraces : ∀ fuel, Retraces fuel
  | 0 => .zero
  | fuel + 1 => (retraces fuel).step

end Parser

/-- The tokens of a text are one way to write the tree that is read from it. -/
theorem Block.mem_writings_of_ofTokens {lexed : Lexed} {body : Block Name}
    (inside : ∀ token ∈ lexed.tokens, token.kind ≠ .eof) (read : Block.ofTokens lexed = .ok body) :
    lexed.tokens.map (·.kind) ∈ body.writings Name.text := by
  obtain ⟨⟨rest, _⟩, run, ended⟩ := Block.run_of_ofTokens read
  have start : Parser.Reached (lexed.tokens.map (·.kind)) 1 ⟨lexed.tokens, lexed.finish⟩ := ⟨[], rfl, rfl⟩
  obtain ⟨used, member, split⟩ := (Parser.retraces _).block start _ _ run
  cases rest with
  | nil =>
      rw [List.map_nil, List.append_nil] at split
      rwa [split, ← one_mul (Block.writings _ _)]
  | cons token others =>
      have listed : token.kind ∈ lexed.tokens.map (·.kind) := by
        rw [split]
        simp
      obtain ⟨found, isFound, same⟩ := List.mem_map.mp listed
      exact absurd (same.trans ended) (inside found isFound)

end LuaMinifier
