import LuaMinifier.Ast.Parser
import LuaMinifier.Proofs.Formed

/-!
Every tree that the readers give has the shape that the grammar asks for: it is made of the tokens it was read from,
suffixes stand behind what can carry them, and nothing is missing that has to be there.
-/

namespace LuaMinifier

open Token

/-- Whether all tokens still to be read are valid. -/
def Input.Valid (valid : Kind → Prop) (input : Input) : Prop := ∀ token ∈ input.tokens, valid token.kind

namespace Parser

variable {α β : Type} {valid : Kind → Prop}

/-- What is read from valid tokens satisfies a condition. -/
def Yields (valid : Kind → Prop) (reader : Parser α) (condition : α → Prop) : Prop :=
  ∀ input value rest, input.Valid valid → reader.run input = .ok (value, rest) → condition value ∧ rest.Valid valid

namespace Yields

theorem pure {value : α} {condition : α → Prop} (holds : condition value) :
    Yields valid (Pure.pure value : Parser α) condition := by
  intro input result rest allValid run
  cases run
  exact ⟨holds, allValid⟩

theorem imp {reader : Parser α} {condition weaker : α → Prop} (yields : Yields valid reader condition)
    (weaken : ∀ value, condition value → weaker value) : Yields valid reader weaker := by
  intro input value rest allValid run
  obtain ⟨holds, stillValid⟩ := yields input value rest allValid run
  exact ⟨weaken value holds, stillValid⟩

theorem bind {reader : Parser α} {next : α → Parser β} {first : α → Prop} {condition : β → Prop}
    (start : Yields valid reader first) (more : ∀ value, first value → Yields valid (next value) condition) :
    Yields valid (reader >>= next) condition := by
  intro input result rest allValid run
  rw [StateT.run_bind] at run
  cases ran : reader.run input with
  | error failure =>
      rw [ran] at run
      cases run
  | ok pair =>
      rw [ran] at run
      obtain ⟨holds, stillValid⟩ := start input pair.1 pair.2 allValid ran
      exact more pair.1 holds pair.2 result rest stillValid run

theorem map {reader : Parser α} {change : α → β} {first : α → Prop} {condition : β → Prop}
    (start : Yields valid reader first) (holds : ∀ value, first value → condition (change value)) :
    Yields valid (change <$> reader) condition := by
  rw [← bind_pure_comp]
  exact start.bind fun value known => .pure (holds value known)

theorem fail {cause : SyntaxError.Cause} {position : Position} {condition : α → Prop} :
    Yields valid (Parser.fail cause position : Parser α) condition := by
  intro input result rest _ run
  cases run

theorem current : Yields valid Parser.current fun token => valid token.kind ∨ token.kind = .eof := by
  intro input token rest allValid run
  cases run
  refine ⟨?_, allValid⟩
  obtain ⟨tokens, finish⟩ := input
  cases tokens with
  | nil => exact .inr rfl
  | cons token tokens => exact .inl (allValid token (by simp))

theorem get : Yields valid (MonadState.get : Parser Input) (·.Valid valid) := by
  intro input result rest allValid run
  cases run
  exact ⟨allValid, allValid⟩

theorem advance : Yields valid Parser.advance fun _ => True := by
  intro input result rest allValid run
  cases run
  exact ⟨trivial, fun token member => allValid token (List.mem_of_mem_tail member)⟩

theorem unexpected {expectation : SyntaxError.Expectation} {condition : α → Prop} :
    Yields valid (Parser.unexpected expectation : Parser α) condition :=
  current.bind fun _ _ => fail

theorem tooDeep {condition : α → Prop} : Yields valid (Parser.tooDeep : Parser α) condition :=
  current.bind fun _ _ => fail

theorem sees {kind : Kind} : Yields valid (Parser.sees kind) fun _ => True :=
  current.bind fun _ _ => .pure trivial

theorem accept {kind : Kind} : Yields valid (Parser.accept kind) fun _ => True := by
  refine sees.bind fun seen _ => ?_
  split
  · exact advance.bind fun _ _ => .pure trivial
  · exact .pure trivial

theorem keyword {reserved : Keyword} : Yields valid (Parser.keyword reserved) fun _ => True := by
  refine accept.bind fun accepted _ => ?_
  split
  · exact .pure trivial
  · exact unexpected

theorem symbol {sign : Symbol} : Yields valid (Parser.symbol sign) fun _ => True := by
  refine accept.bind fun accepted _ => ?_
  split
  · exact .pure trivial
  · exact unexpected

theorem skip {kind : Kind} : Yields valid (Parser.skip kind) fun _ => True := by
  intro input result rest allValid run
  cases run
  exact ⟨trivial, fun token member => allValid token ((List.dropWhile_suffix _).subset member)⟩

theorem name : Yields valid Parser.name fun read => valid (.name read.text) := by
  refine current.bind fun token known => ?_
  split
  next text found =>
    rw [found] at known
    exact advance.bind fun _ _ => .pure (by simpa using known)
  next => exact unexpected

theorem moreNames : ∀ fuel, Yields valid (Parser.moreNames fuel) fun read => ∀ name ∈ read, valid (.name name.text)
  | 0 => tooDeep
  | fuel + 1 => by
    refine accept.bind fun accepted _ => ?_
    split
    · refine name.bind fun first known => (moreNames fuel).bind fun further others => .pure ?_
      exact List.forall_mem_cons.mpr ⟨known, others⟩
    · exact .pure (by simp)

theorem moreFields : ∀ fuel, Yields valid (Parser.moreFields fuel) fun read => ∀ name ∈ read, valid (.name name.text)
  | 0 => tooDeep
  | fuel + 1 => by
    refine accept.bind fun accepted _ => ?_
    split
    · refine name.bind fun first known => (moreFields fuel).bind fun further others => .pure ?_
      exact List.forall_mem_cons.mpr ⟨known, others⟩
    · exact .pure (by simp)

theorem functionName (fuel : Nat) : Yields valid (Parser.functionName fuel) fun read =>
    read.Formed valid fun name => valid (.name name.text) := by
  refine name.bind fun root known => (moreFields fuel).bind fun fields others => accept.bind fun accepted _ => ?_
  split
  · refine (name.map fun method called => ?_ : Yields valid _ fun method => ∀ name ∈ method, valid (.name name.text)).bind
      fun method called => .pure ⟨known, others, called⟩
    simpa using called
  · rw [pure_bind]
    exact .pure ⟨known, others, by simp⟩

theorem someParameters : ∀ fuel, Yields valid (Parser.someParameters fuel) fun read =>
    ∀ name ∈ read.names, valid (.name name.text)
  | 0 => tooDeep
  | fuel + 1 => by
    refine current.bind fun token _ => accept.bind fun accepted _ => ?_
    split
    · exact .pure (by simp)
    · refine name.bind fun first known => accept.bind fun accepted _ => ?_
      split
      · refine (someParameters fuel).bind fun further others => .pure ?_
        exact List.forall_mem_cons.mpr ⟨known, others⟩
      · exact .pure (by simpa using known)

theorem parameters (fuel : Nat) : Yields valid (Parser.parameters fuel) fun read =>
    ∀ name ∈ read.names, valid (.name name.text) := by
  refine symbol.bind fun _ _ => sees.bind fun seen _ => ?_
  split
  · rw [pure_bind]
    exact symbol.bind fun _ _ => .pure (by simp)
  · exact (someParameters fuel).bind fun read known => symbol.bind fun _ _ => .pure known

theorem fieldSeparator : Yields valid Parser.fieldSeparator fun _ => True := by
  refine accept.bind fun accepted _ => ?_
  split
  · exact .pure trivial
  · exact accept

end Yields
end Parser

namespace Expr

variable {ι : Type} {valid : Kind → Prop} {named : ι → Prop}

theorem Formed.called {expression : Expr ι} (formed : expression.Formed valid named false) :
    expression.Formed valid named true := by
  cases expression with
  | member site base access name => exact ⟨fun colon => absurd (formed.1 colon).1 (by simp), formed.2⟩
  | _ => exact formed

theorem Formed.parenthesize {expression : Expr ι} (formed : expression.Formed valid named false) :
    expression.parenthesize.Formed valid named false := by
  cases expression with
  | member site base access name => exact ⟨fun colon => absurd (formed.1 colon).1 (by simp), formed.2⟩
  | _ => exact formed

end Expr

theorem LiteralKind.formed_of_literalOf {valid : Kind → Prop} {token : Kind} {kind : LiteralKind} {raw : String}
    (found : Parser.literalOf? token = some (kind, raw)) (known : valid token ∨ token = .eof) :
    kind.Formed valid raw := by
  unfold Parser.literalOf? at found
  split at found <;> cases found <;> exact ⟨by simpa [LiteralKind.token] using known, rfl⟩

namespace Parser

/-- A name that is read is a valid token. -/
def Named (valid : Kind → Prop) (name : Name) : Prop := valid (.name name.text)

/-- What the readers give with some fuel. -/
structure Sound (valid : Kind → Prop) (fuel : Nat) : Prop where
  expression : ∀ limit, Yields valid (Parser.expression fuel limit) (·.Formed valid (Named valid) false)
  operations : ∀ limit position left, left.Formed valid (Named valid) false →
    Yields valid (Parser.operations fuel limit position left) (·.Formed valid (Named valid) false)
  operand : Yields valid (Parser.operand fuel) (·.Formed valid (Named valid) false)
  suffixed : Yields valid (Parser.suffixed fuel) fun read =>
    read.isSuffixable = true ∧ read.Formed valid (Named valid) false
  suffixes : ∀ base, base.isSuffixable = true → base.Formed valid (Named valid) false →
    Yields valid (Parser.suffixes fuel base) fun read =>
      read.isSuffixable = true ∧ read.Formed valid (Named valid) false
  arguments : ∀ callee, callee.isSuffixable = true → callee.Formed valid (Named valid) true →
    Yields valid (Parser.arguments fuel callee) fun read =>
      read.isSuffixable = true ∧ read.Formed valid (Named valid) false
  expressions : Yields valid (Parser.expressions fuel) fun read =>
    read ≠ [] ∧ Expr.FormedAll valid (Named valid) read
  fields : Yields valid (Parser.fields fuel) (Field.FormedAll valid (Named valid))
  field : Yields valid (Parser.field fuel) (·.Formed valid (Named valid))
  functionBody : Yields valid (Parser.functionBody fuel) fun read =>
    (∀ name ∈ read.1.names, Named valid name) ∧ read.2.Formed valid (Named valid)
  block : Yields valid (Parser.block fuel) (·.Formed valid (Named valid))
  statement : Yields valid (Parser.statement fuel) (·.Formed valid (Named valid))
  branches : Yields valid (Parser.branches fuel) (·.Formed valid (Named valid))
  loop : ∀ position, Yields valid (Parser.loop fuel position) (·.Formed valid (Named valid))
  assignmentOrCall : ∀ position, Yields valid (Parser.assignmentOrCall fuel position) (·.Formed valid (Named valid))
  moreTargets : Yields valid (Parser.moreTargets fuel) (Expr.FormedAll valid (Named valid))

namespace Sound

variable {valid : Kind → Prop} {fuel : Nat}

theorem zero : Sound valid 0 where
  expression _ := .tooDeep
  operations _ _ _ _ := .tooDeep
  operand := .tooDeep
  suffixed := .tooDeep
  suffixes _ _ _ := .tooDeep
  arguments _ _ _ := .tooDeep
  expressions := .tooDeep
  fields := .tooDeep
  field := .tooDeep
  functionBody := .tooDeep
  block := .tooDeep
  statement := .tooDeep
  branches := .tooDeep
  loop _ := .tooDeep
  assignmentOrCall _ := .tooDeep
  moreTargets := .tooDeep

variable (sound : Sound valid fuel)
include sound

theorem expression_step (limit : Nat) :
    Yields valid (Parser.expression (fuel + 1) limit) (·.Formed valid (Named valid) false) := by
  rw [Parser.expression]
  refine Yields.current.bind fun token _ => ?_
  split
  · exact Yields.advance.bind fun _ _ => (sound.expression _).bind fun _ formed => sound.operations _ _ _ formed
  · exact sound.operand.bind fun _ formed => sound.operations _ _ _ formed

theorem operations_step (limit : Nat) (position : Position) (left : Expr Name)
    (formed : left.Formed valid (Named valid) false) :
    Yields valid (Parser.operations (fuel + 1) limit position left) (·.Formed valid (Named valid) false) := by
  rw [Parser.operations]
  refine Yields.current.bind fun token _ => ?_
  split
  · exact .pure formed
  · split
    · exact .pure formed
    · exact Yields.advance.bind fun _ _ => (sound.expression _).bind fun _ right => sound.operations _ _ _ ⟨formed, right⟩

theorem operand_step : Yields valid (Parser.operand (fuel + 1)) (·.Formed valid (Named valid) false) := by
  rw [Parser.operand]
  refine Yields.current.bind fun token known => ?_
  split
  next found => exact Yields.advance.bind fun _ _ => .pure (LiteralKind.formed_of_literalOf found known)
  next =>
    split
    · exact Yields.advance.bind fun _ _ => sound.fields.bind fun _ formed => .pure formed
    · exact Yields.advance.bind fun _ _ => sound.functionBody.bind fun _ formed => .pure formed
    · exact sound.suffixed.imp fun _ formed => formed.2

theorem suffixed_step : Yields valid (Parser.suffixed (fuel + 1)) fun read =>
    read.isSuffixable = true ∧ read.Formed valid (Named valid) false := by
  rw [Parser.suffixed]
  refine Yields.current.bind fun token known => ?_
  split
  next text found =>
    rw [found] at known
    refine Yields.advance.bind fun _ _ => sound.suffixes _ rfl ?_
    simpa [Expr.Formed, Named] using known
  next =>
    exact Yields.advance.bind fun _ _ => (sound.expression _).bind fun inner formed => Yields.symbol.bind fun _ _ =>
      sound.suffixes _ inner.isSuffixable_parenthesize formed.parenthesize
  next => exact .unexpected

theorem suffixes_step (base : Expr Name) (suffixable : base.isSuffixable = true)
    (formed : base.Formed valid (Named valid) false) : Yields valid (Parser.suffixes (fuel + 1) base) fun read =>
      read.isSuffixable = true ∧ read.Formed valid (Named valid) false := by
  rw [Parser.suffixes]
  refine Yields.current.bind fun token _ => ?_
  have applied : Yields valid (do Parser.suffixes fuel (← Parser.arguments fuel base)) fun read =>
      read.isSuffixable = true ∧ read.Formed valid (Named valid) false :=
    (sound.arguments base suffixable formed.called).bind fun call known => sound.suffixes call known.1 known.2
  split
  · exact Yields.advance.bind fun _ _ => Yields.name.bind fun field known =>
      sound.suffixes _ rfl ⟨by simp, suffixable, formed, known⟩
  · exact Yields.advance.bind fun _ _ => (sound.expression _).bind fun key known => Yields.symbol.bind fun _ _ =>
      sound.suffixes _ rfl ⟨suffixable, formed, known⟩
  · refine Yields.advance.bind fun _ _ => Yields.name.bind fun method known =>
      (sound.arguments _ rfl ?_).bind fun call called => sound.suffixes call called.1 called.2
    exact ⟨fun _ => ⟨rfl, rfl⟩, suffixable, formed, known⟩
  · exact applied
  · exact applied
  · exact applied
  · exact .pure ⟨suffixable, formed⟩

theorem arguments_step (callee : Expr Name) (suffixable : callee.isSuffixable = true)
    (formed : callee.Formed valid (Named valid) true) : Yields valid (Parser.arguments (fuel + 1) callee) fun read =>
      read.isSuffixable = true ∧ read.Formed valid (Named valid) false := by
  rw [Parser.arguments]
  refine Yields.current.bind fun token known => ?_
  split
  next =>
    refine Yields.advance.bind fun _ _ => Yields.sees.bind fun seen _ => ?_
    split
    · rw [pure_bind]
      exact Yields.symbol.bind fun _ _ => .pure ⟨rfl, suffixable, formed, trivial⟩
    · exact sound.expressions.bind fun given listed => Yields.symbol.bind fun _ _ =>
        .pure ⟨rfl, suffixable, formed, listed.2⟩
  next =>
    exact Yields.advance.bind fun _ _ => sound.fields.bind fun given listed => .pure ⟨rfl, suffixable, formed, listed⟩
  next raw found =>
    rw [found] at known
    exact Yields.advance.bind fun _ _ => .pure ⟨rfl, suffixable, formed, by simpa using known⟩
  next => exact .unexpected

theorem expressions_step : Yields valid (Parser.expressions (fuel + 1)) fun read =>
    read ≠ [] ∧ Expr.FormedAll valid (Named valid) read := by
  rw [Parser.expressions]
  refine (sound.expression 0).bind fun first formed => Yields.accept.bind fun accepted _ => ?_
  split
  · exact sound.expressions.bind fun further listed => .pure ⟨by simp, formed, listed.2⟩
  · exact .pure ⟨by simp, formed, trivial⟩

theorem fields_step : Yields valid (Parser.fields (fuel + 1)) (Field.FormedAll valid (Named valid)) := by
  rw [Parser.fields]
  refine Yields.accept.bind fun accepted _ => ?_
  split
  · exact .pure trivial
  · refine sound.field.bind fun first formed => Yields.fieldSeparator.bind fun separated _ => ?_
    split
    · exact sound.fields.bind fun further listed => .pure ⟨formed, listed⟩
    · exact Yields.symbol.bind fun _ _ => .pure ⟨formed, trivial⟩

theorem functionBody_step : Yields valid (Parser.functionBody (fuel + 1)) fun read =>
    (∀ name ∈ read.1.names, Named valid name) ∧ read.2.Formed valid (Named valid) := by
  rw [Parser.functionBody]
  exact (Yields.parameters fuel).bind fun given known => sound.block.bind fun body formed =>
    Yields.keyword.bind fun _ _ => .pure ⟨known, formed⟩

theorem field_step : Yields valid (Parser.field (fuel + 1)) (·.Formed valid (Named valid)) := by
  rw [Parser.field]
  refine Yields.get.bind fun input allValid => ?_
  split
  next =>
    exact Yields.advance.bind fun _ _ => (sound.expression _).bind fun key known => Yields.symbol.bind fun _ _ =>
      Yields.symbol.bind fun _ _ => (sound.expression _).bind fun value formed => .pure ⟨known, formed⟩
  next text position _ _ found =>
    have known : valid (.name text) := allValid ⟨.name text, position⟩ (by simp [found])
    exact Yields.advance.bind fun _ _ => Yields.advance.bind fun _ _ => (sound.expression _).bind fun value formed =>
      .pure ⟨known, formed⟩
  next => exact (sound.expression _).bind fun value formed => .pure formed

theorem block_step : Yields valid (Parser.block (fuel + 1)) (·.Formed valid (Named valid)) := by
  rw [Parser.block]
  refine Yields.skip.bind fun _ _ => Yields.current.bind fun token _ => ?_
  split
  next =>
    refine Yields.advance.bind fun _ _ => Yields.current.bind fun next _ => ?_
    have closed : ∀ values : List (Expr Name), Expr.FormedAll valid (Named valid) values → Yields valid (do
        let _ ← Parser.accept (.symbol .semicolon)
        unless Parser.endsBlock (← Parser.current).kind do Parser.unexpected (.keyword .kEnd)
        return Block.ret token.position values) (·.Formed valid (Named valid)) := by
      intro values formed
      refine Yields.accept.bind fun _ _ => Yields.current.bind fun last _ => ?_
      split
      · exact .pure formed
      · exact Yields.unexpected.bind fun _ (_ : True) => .pure formed
    dsimp only
    split
    · rw [pure_bind]
      exact closed [] trivial
    · exact sound.expressions.bind fun values listed => closed values listed.2
  next =>
    split
    · exact .pure trivial
    · exact sound.statement.bind fun head first => sound.block.bind fun tail others => .pure ⟨first, others⟩

theorem branches_step : Yields valid (Parser.branches (fuel + 1)) (·.Formed valid (Named valid)) := by
  rw [Parser.branches]
  refine Yields.current.bind fun token _ => ?_
  split
  · exact Yields.advance.bind fun _ _ => (sound.expression _).bind fun condition test => Yields.keyword.bind fun _ _ =>
      sound.block.bind fun body formed => sound.branches.bind fun rest others => .pure ⟨test, formed, others⟩
  · exact Yields.advance.bind fun _ _ => sound.block.bind fun body formed => Yields.keyword.bind fun _ _ => .pure formed
  · exact Yields.keyword.bind fun _ _ => .pure trivial

theorem loop_step (position : Position) :
    Yields valid (Parser.loop (fuel + 1) position) (·.Formed valid (Named valid)) := by
  rw [Parser.loop]
  refine Yields.name.bind fun counter known => Yields.accept.bind fun accepted _ => ?_
  split
  next =>
    refine (sound.expression _).bind fun first start => Yields.symbol.bind fun _ _ =>
      (sound.expression _).bind fun limit stop => Yields.accept.bind fun accepted _ => ?_
    split
    · refine (Yields.map (sound.expression 0) (fun step stride => ?_) :
        Yields valid _ fun step => ∃ expression, step = some expression ∧ expression.Formed valid (Named valid) false).bind
          fun step stride => Yields.keyword.bind fun _ _ => sound.block.bind fun body formed =>
            Yields.keyword.bind fun _ _ => .pure ?_
      · exact ⟨step, rfl, stride⟩
      · obtain ⟨expression, rfl, stride⟩ := stride
        exact ⟨known, start, stop, stride, formed⟩
    · rw [pure_bind]
      exact Yields.keyword.bind fun _ _ => sound.block.bind fun body formed => Yields.keyword.bind fun _ _ =>
        .pure ⟨known, start, stop, formed⟩
  next =>
    refine (Yields.moreNames fuel).bind fun further others => Yields.keyword.bind fun _ _ =>
      sound.expressions.bind fun iterators listed => Yields.keyword.bind fun _ _ => sound.block.bind fun body formed =>
        Yields.keyword.bind fun _ _ => .pure ?_
    exact ⟨by simp, List.forall_mem_cons.mpr ⟨known, others⟩, listed.1, listed.2, formed⟩

theorem moreTargets_step : Yields valid (Parser.moreTargets (fuel + 1)) (Expr.FormedAll valid (Named valid)) := by
  rw [Parser.moreTargets]
  refine Yields.accept.bind fun accepted _ => ?_
  split
  · exact sound.suffixed.bind fun target known => sound.moreTargets.bind fun further others => .pure ⟨known.2, others⟩
  · exact .pure trivial

theorem assignmentOrCall_step (position : Position) :
    Yields valid (Parser.assignmentOrCall (fuel + 1) position) (·.Formed valid (Named valid)) := by
  rw [Parser.assignmentOrCall]
  refine sound.suffixed.bind fun first known => Yields.current.bind fun next _ => ?_
  dsimp only
  split
  next =>
    refine sound.moreTargets.bind fun targets others => Yields.symbol.bind fun _ _ =>
      sound.expressions.bind fun values listed => ?_
    split
    next => exact .fail
    next none =>
      have assignable : ∀ target ∈ first :: targets, target.isAssignable = true := by simpa using none
      exact .pure ⟨by simp, assignable, ⟨known.2, others⟩, listed.1, listed.2⟩
  next =>
    split
    next called =>
      rw [Bool.and_eq_true, Bool.not_eq_true'] at called
      exact .pure ⟨called.1, called.2, known.2⟩
    next => exact .fail

theorem statement_step : Yields valid (Parser.statement (fuel + 1)) (·.Formed valid (Named valid)) := by
  rw [Parser.statement]
  refine Yields.current.bind fun token _ => ?_
  split
  · exact Yields.advance.bind fun _ _ => (sound.expression _).bind fun condition test => Yields.keyword.bind fun _ _ =>
      sound.block.bind fun body formed => sound.branches.bind fun rest others => .pure ⟨test, formed, others⟩
  · exact Yields.advance.bind fun _ _ => (sound.expression _).bind fun condition test => Yields.keyword.bind fun _ _ =>
      sound.block.bind fun body formed => Yields.keyword.bind fun _ _ => .pure ⟨test, formed⟩
  · exact Yields.advance.bind fun _ _ => sound.block.bind fun body formed => Yields.keyword.bind fun _ _ => .pure formed
  · exact Yields.advance.bind fun _ _ => sound.loop _
  · exact Yields.advance.bind fun _ _ => sound.block.bind fun body formed => Yields.keyword.bind fun _ _ =>
      (sound.expression _).bind fun condition test => .pure ⟨formed, test⟩
  · exact Yields.advance.bind fun _ _ => (Yields.functionName fuel).bind fun called named =>
      sound.functionBody.bind fun _ formed => .pure ⟨named, formed.1, formed.2⟩
  · refine Yields.advance.bind fun _ _ => Yields.accept.bind fun accepted _ => ?_
    split
    · exact Yields.name.bind fun called named => sound.functionBody.bind fun _ formed =>
        .pure ⟨named, formed.1, formed.2⟩
    · refine Yields.name.bind fun first named => (Yields.moreNames fuel).bind fun further others =>
        Yields.accept.bind fun accepted _ => ?_
      have known : ∀ name ∈ first :: further, Named valid name := List.forall_mem_cons.mpr ⟨named, others⟩
      split
      · exact sound.expressions.bind fun values listed => .pure ⟨by simp, known, listed.2⟩
      · rw [pure_bind]
        exact .pure ⟨by simp, known, trivial⟩
  · exact Yields.advance.bind fun _ _ => Yields.name.bind fun label known => Yields.symbol.bind fun _ _ => .pure known
  · exact Yields.advance.bind fun _ _ => Yields.name.bind fun label known => .pure known
  · exact Yields.advance.bind fun _ _ => .pure trivial
  · exact sound.assignmentOrCall _

theorem step : Sound valid (fuel + 1) where
  expression := sound.expression_step
  operations := sound.operations_step
  operand := sound.operand_step
  suffixed := sound.suffixed_step
  suffixes := sound.suffixes_step
  arguments := sound.arguments_step
  expressions := sound.expressions_step
  fields := sound.fields_step
  field := sound.field_step
  functionBody := sound.functionBody_step
  block := sound.block_step
  statement := sound.statement_step
  branches := sound.branches_step
  loop := sound.loop_step
  assignmentOrCall := sound.assignmentOrCall_step
  moreTargets := sound.moreTargets_step

end Sound

theorem sound (valid : Kind → Prop) : ∀ fuel, Sound valid fuel
  | 0 => .zero
  | fuel + 1 => (sound valid fuel).step

end Parser

/-- What is read from valid tokens has the shape that the grammar asks for. -/
theorem Block.formed_of_ofTokens {valid : Kind → Prop} {lexed : Lexed} {body : Block Name}
    (allValid : ∀ token ∈ lexed.tokens, valid token.kind) (read : Block.ofTokens lexed = .ok body) :
    body.Formed valid (Parser.Named valid) := by
  obtain ⟨rest, run, _⟩ := Block.run_of_ofTokens read
  exact ((Parser.sound valid _).block ⟨lexed.tokens, lexed.finish⟩ _ _ allValid run).1

end LuaMinifier
