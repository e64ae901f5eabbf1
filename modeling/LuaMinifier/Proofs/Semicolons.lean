import LuaMinifier.Proofs.Shedding

/-!
Layout leaves no trace in trees: positions are forgotten by their views, and semicolons between statements are not
kept. Main statement: tokens that differ only in semicolons that could be left out are read as the same tree.
-/

namespace LuaMinifier

open Token

variable {α β : Type}

namespace Expr

theorem IsReadAs.base {first second : Expr Name} (same : first.IsReadAs Name.text second) :
    second.view .exact Name.text true = first.view .exact Name.text true := by
  rw [view_exact_base, view_exact_base Name.text first]
  exact same

theorem view_parenthesize {ι κ : Type} (see : ι → κ) (expression : Expr ι) (asBase : Bool) :
    expression.parenthesize.view .exact see asBase = (expression.view .exact see asBase).parenthesize := by
  cases expression <;> rfl

theorem IsReadAs.enclose {first second : Expr Name} (same : first.IsReadAs Name.text second) :
    first.parenthesize.IsReadAs Name.text second.parenthesize := by
  unfold IsReadAs
  rw [view_parenthesize, view_parenthesize, same]

end Expr

namespace Parser

theorem run_fieldSeparator (input : Input) : fieldSeparator.run input =
    if input.current.kind = .symbol .comma ∨ input.current.kind = .symbol .semicolon then .ok (true, input.rest)
    else .ok (false, input) := by
  by_cases comma : input.current.kind = .symbol .comma
  · simp only [fieldSeparator, StateT.run_bind, run_accept comma, ok_bind, comma, true_or, ↓reduceIte, run_pure]
  · by_cases semicolon : input.current.kind = .symbol .semicolon
    · simp [fieldSeparator, run_accept_other comma, run_accept semicolon, semicolon]
    · simp [fieldSeparator, run_accept_other comma, run_accept_other semicolon, comma, semicolon]

/-- Between fields no semicolon can be left out: what stands behind it cannot follow a field. -/
theorem Agree.fieldSeparator_bind {same : α → β → Prop} {next : Bool → Parser α} {nextOther : Bool → Parser β}
    (yes : Agree Input.Sheds (next true) (nextOther true) same)
    (no : Agree Input.Sheds (next false) (nextOther false) same)
    (refused : ∀ {lighter result others}, lighter.current.kind.parts = true →
      (nextOther false).run lighter ≠ .ok (result, others)) :
    Agree Input.Sheds (fieldSeparator >>= next) (fieldSeparator >>= nextOther) same := by
  intro input lighter _ _ _ _ sheds run runOther
  rw [StateT.run_bind, run_fieldSeparator] at run runOther
  rcases sheds.cases with faces | parts
  · rw [faces.same] at run
    split at run
    next found =>
      rw [if_pos found] at runOther
      exact yes _ _ _ _ _ _ faces.rest run runOther
    next found =>
      rw [if_neg found] at runOther
      exact no _ _ _ _ _ _ sheds run runOther
  · have closed := (Kind.parts_cases parts.parts).2.2.2
    rw [if_neg (by rintro (same | same) <;> simp [same] at closed)] at runOther
    exact absurd runOther (refused parts.parts)

/-- A field starts with a bracket, with a name and an equals sign, or with anything else that starts an expression. -/
theorem field_cases (fuel : Nat) (input : Input) :
    (input.current.kind = .symbol .leftBracket ∧ (field (fuel + 1)).run input = (do
      advance
      let key ← expression fuel 0
      symbol .rightBracket
      symbol .assign
      return Field.keyed key (← expression fuel 0)).run input) ∨
    (∃ text, input.current.kind = .name text ∧ input.rest.current.kind = .symbol .assign ∧
      (field (fuel + 1)).run input = (do
        advance
        symbol .assign
        return Field.named ⟨text, input.current.position⟩ (← expression fuel 0)).run input) ∨
    (input.current.kind ≠ .symbol .leftBracket ∧
      (∀ text, input.current.kind = .name text → input.rest.current.kind ≠ .symbol .assign) ∧
      (field (fuel + 1)).run input = (do return Field.item (← expression fuel 0)).run input) := by
  rw [field, StateT.run_bind, run_get, ok_bind]
  dsimp only
  split
  next found => exact .inl ⟨by simp [Input.current, found], rfl⟩
  next text position _ _ found =>
    have assigned : input.rest.current.kind = .symbol .assign := by simp [Input.current, Input.rest, found]
    refine .inr (.inl ⟨text, by simp [Input.current, found], assigned, ?_⟩)
    rw [StateT.run_bind, StateT.run_bind, run_advance, ok_bind, ok_bind, StateT.run_bind, StateT.run_bind, run_advance,
      run_symbol assigned, ok_bind, ok_bind]
    simp [Input.current, found]
  next bracket named =>
    refine .inr (.inr ⟨?_, ?_, rfl⟩)
    · intro opened
      obtain ⟨_ | ⟨⟨kind, position⟩, rest⟩, finish⟩ := input
      · cases opened
      · cases opened
        exact bracket position rest rfl
    · intro text found assigned
      obtain ⟨_ | ⟨⟨kind, position⟩, _ | ⟨⟨next, behind⟩, rest⟩⟩, finish⟩ := input
      · cases found
      · cases assigned
      · cases found
        cases assigned
        exact named text position behind rest rfl

/-- What two readers with some fuel agree on. -/
structure Alike (fuel other : Nat) : Prop where
  expression : ∀ limit, Agree Input.Sheds (Parser.expression fuel limit) (Parser.expression other limit)
    (Expr.IsReadAs Name.text)
  operations : ∀ limit position positionOther {left leftOther}, left.IsReadAs Name.text leftOther →
    Agree Input.Sheds (Parser.operations fuel limit position left)
      (Parser.operations other limit positionOther leftOther) (Expr.IsReadAs Name.text)
  operand : Agree Input.Sheds (Parser.operand fuel) (Parser.operand other) (Expr.IsReadAs Name.text)
  suffixed : Agree Input.Sheds (Parser.suffixed fuel) (Parser.suffixed other) (Expr.IsReadAs Name.text)
  suffixes : ∀ {base baseOther}, base.IsReadAs Name.text baseOther →
    Agree Input.Sheds (Parser.suffixes fuel base) (Parser.suffixes other baseOther) (Expr.IsReadAs Name.text)
  arguments : ∀ {callee calleeOther}, callee.IsReadAs Name.text calleeOther →
    Agree Input.Sheds (Parser.arguments fuel callee) (Parser.arguments other calleeOther) (Expr.IsReadAs Name.text)
  expressions : Agree Input.Sheds (Parser.expressions fuel) (Parser.expressions other) (Expr.AllReadAs Name.text)
  fields : Agree Input.Sheds (Parser.fields fuel) (Parser.fields other) (Field.AllReadAs Name.text)
  field : Agree Input.Sheds (Parser.field fuel) (Parser.field other) (Field.IsReadAs Name.text)
  functionBody : Agree Input.Sheds (Parser.functionBody fuel) (Parser.functionBody other) fun read others =>
    others.1.view Name.text = read.1.view Name.text ∧ read.2.IsReadAs Name.text others.2
  block : Agree Input.Sheds (Parser.block fuel) (Parser.block other) (Block.IsReadAs Name.text)
  statement : Agree Input.Sheds (Parser.statement fuel) (Parser.statement other) (Stat.IsReadAs Name.text)
  branches : Agree Input.Sheds (Parser.branches fuel) (Parser.branches other) fun read others =>
    others.view .exact Name.text = read.view .exact Name.text
  loop : ∀ position positionOther,
    Agree Input.Sheds (Parser.loop fuel position) (Parser.loop other positionOther) (Stat.IsReadAs Name.text)
  assignmentOrCall : ∀ position positionOther, Agree Input.Sheds (Parser.assignmentOrCall fuel position)
    (Parser.assignmentOrCall other positionOther) (Stat.IsReadAs Name.text)
  moreTargets : Agree Input.Sheds (Parser.moreTargets fuel) (Parser.moreTargets other) (Expr.AllReadAs Name.text)

namespace Alike

theorem zero (other : Nat) : Alike 0 other where
  expression _ := .of_first tooDeep_ne_ok
  operations _ _ _ _ _ _ := .of_first tooDeep_ne_ok
  operand := .of_first tooDeep_ne_ok
  suffixed := .of_first tooDeep_ne_ok
  suffixes _ := .of_first tooDeep_ne_ok
  arguments _ := .of_first tooDeep_ne_ok
  expressions := .of_first tooDeep_ne_ok
  fields := .of_first tooDeep_ne_ok
  field := .of_first tooDeep_ne_ok
  functionBody := .of_first tooDeep_ne_ok
  block := .of_first tooDeep_ne_ok
  statement := .of_first tooDeep_ne_ok
  branches := .of_first tooDeep_ne_ok
  loop _ _ := .of_first tooDeep_ne_ok
  assignmentOrCall _ _ := .of_first tooDeep_ne_ok
  moreTargets := .of_first tooDeep_ne_ok

theorem other_zero (fuel : Nat) : Alike fuel 0 where
  expression _ := .of_second tooDeep_ne_ok
  operations _ _ _ _ _ _ := .of_second tooDeep_ne_ok
  operand := .of_second tooDeep_ne_ok
  suffixed := .of_second tooDeep_ne_ok
  suffixes _ := .of_second tooDeep_ne_ok
  arguments _ := .of_second tooDeep_ne_ok
  expressions := .of_second tooDeep_ne_ok
  fields := .of_second tooDeep_ne_ok
  field := .of_second tooDeep_ne_ok
  functionBody := .of_second tooDeep_ne_ok
  block := .of_second tooDeep_ne_ok
  statement := .of_second tooDeep_ne_ok
  branches := .of_second tooDeep_ne_ok
  loop _ _ := .of_second tooDeep_ne_ok
  assignmentOrCall _ _ := .of_second tooDeep_ne_ok
  moreTargets := .of_second tooDeep_ne_ok

attribute [local simp] Expr.IsReadAs Expr.AllReadAs Field.IsReadAs Field.AllReadAs Stat.IsReadAs Block.IsReadAs
  Expr.view Expr.viewAll Field.view Field.viewAll Stat.view Else.view Block.view Name.view Site.view Site.plain
  Detail.keeps

variable {fuel other : Nat} (alike : Alike fuel other)
include alike

theorem expression_step (limit : Nat) :
    Agree Input.Sheds (Parser.expression (fuel + 1) limit) (Parser.expression (other + 1) limit)
      (Expr.IsReadAs Name.text) := by
  rw [Parser.expression, Parser.expression]
  refine .current (fun kind position positionOther => ?_) fun position kind positionOther parts => ?_
  · dsimp only
    split
    · refine Agree.advance.bind fun _ => (alike.expression _).bind fun same => alike.operations _ _ _ ?_
      simpa using same
    · exact (alike.operand.start_mono Input.Faces.sheds).bind fun same => alike.operations _ _ _ same
  · exact .of_refuses (Refuses.operand fuel).bind

theorem operations_step (limit : Nat) (position positionOther : Position) {left leftOther : Expr Name}
    (same : left.IsReadAs Name.text leftOther) :
    Agree Input.Sheds (Parser.operations (fuel + 1) limit position left)
      (Parser.operations (other + 1) limit positionOther leftOther) (Expr.IsReadAs Name.text) := by
  rw [Parser.operations, Parser.operations]
  refine .current (fun kind _ _ => ?_) fun _ kind _ parts => ?_
  · dsimp only
    split
    · exact .pure Input.Faces.sheds same
    · split
      · exact .pure Input.Faces.sheds same
      · refine Agree.advance.bind fun _ => (alike.expression _).bind fun right => alike.operations _ _ _ ?_
        simp_all
  · have boundary := (Kind.parts_cases parts).1
    have stop : BinaryOp.ofToken? kind = none := by simp_all [isBoundary]
    simp only [stop]
    exact .pure Input.Parts.sheds same

theorem operand_step : Agree Input.Sheds (Parser.operand (fuel + 1)) (Parser.operand (other + 1))
    (Expr.IsReadAs Name.text) := by
  rw [Parser.operand, Parser.operand]
  refine .current (fun kind position positionOther => ?_) fun _ _ _ _ => .of_refuses (Refuses.suffixed fuel)
  dsimp only
  split
  · exact Agree.advance.bind fun _ => .pure id (by simp)
  · split
    · exact Agree.advance.bind fun _ => alike.fields.bind fun same => .pure id (by simpa using same)
    · exact Agree.advance.bind fun _ => alike.functionBody.bind fun same => .pure id (by simpa using same)
    · exact alike.suffixed.start_mono Input.Faces.sheds

theorem suffixed_step : Agree Input.Sheds (Parser.suffixed (fuel + 1)) (Parser.suffixed (other + 1))
    (Expr.IsReadAs Name.text) := by
  rw [Parser.suffixed, Parser.suffixed]
  refine .current (fun kind position positionOther => ?_) fun _ _ _ _ => .of_first unexpected_ne_ok
  dsimp only
  split
  · exact Agree.advance.bind fun _ => alike.suffixes (by simp)
  · exact Agree.advance.bind fun _ => (alike.expression _).bind fun same =>
      (Agree.symbol (by decide)).bind fun _ => alike.suffixes same.enclose
  · exact .of_first unexpected_ne_ok

theorem suffixes_step {base baseOther : Expr Name} (same : base.IsReadAs Name.text baseOther) :
    Agree Input.Sheds (Parser.suffixes (fuel + 1) base) (Parser.suffixes (other + 1) baseOther)
      (Expr.IsReadAs Name.text) := by
  have front := same.base
  have applied : Agree Input.Faces (do Parser.suffixes fuel (← Parser.arguments fuel base))
      (do Parser.suffixes other (← Parser.arguments other baseOther)) (Expr.IsReadAs Name.text) :=
    ((alike.arguments same).start_mono Input.Faces.sheds).bind fun call => alike.suffixes call
  rw [Parser.suffixes, Parser.suffixes]
  refine .current (fun kind position positionOther => ?_) fun position kind positionOther parts => ?_
  · dsimp only
    split
    · refine Agree.advance.bind fun _ => Agree.name.bind fun field => alike.suffixes ?_
      simp [front, field]
    · refine Agree.advance.bind fun _ => (alike.expression _).bind fun key => (Agree.symbol (by decide)).bind fun _ =>
        alike.suffixes ?_
      simp_all
    · refine Agree.advance.bind fun _ => Agree.name.bind fun method => (alike.arguments ?_).bind fun call =>
        alike.suffixes call
      simp [front, method]
    · exact applied
    · exact applied
    · exact applied
    · exact .pure Input.Faces.sheds same
  · have boundary := (Kind.parts_cases parts).1
    dsimp only
    split <;> first | exact .pure Input.Parts.sheds same | simp [isBoundary, startsSuffix, startsArguments] at boundary

theorem arguments_step {callee calleeOther : Expr Name} (same : callee.IsReadAs Name.text calleeOther) :
    Agree Input.Sheds (Parser.arguments (fuel + 1) callee) (Parser.arguments (other + 1) calleeOther)
      (Expr.IsReadAs Name.text) := by
  have front := same.base
  rw [Parser.arguments, Parser.arguments]
  refine .current (fun kind position positionOther => ?_) fun _ _ _ _ => .of_first unexpected_ne_ok
  dsimp only
  split
  · refine Agree.advance.bind fun _ => .sees_bind (by decide) ?_ ?_
    · simp only [↓reduceIte, pure_bind]
      exact (Agree.symbol (by decide)).bind fun _ => .pure id (by simp [front])
    · exact alike.expressions.bind fun given => (Agree.symbol (by decide)).bind fun _ => .pure id (by simp_all)
  · exact Agree.advance.bind fun _ => alike.fields.bind fun given => .pure id (by simp_all)
  · exact Agree.advance.bind fun _ => .pure id (by simp [front])
  · exact .of_first unexpected_ne_ok

theorem expressions_step : Agree Input.Sheds (Parser.expressions (fuel + 1)) (Parser.expressions (other + 1))
    (Expr.AllReadAs Name.text) := by
  rw [Parser.expressions, Parser.expressions]
  refine (alike.expression 0).bind fun first => .accept_bind (by decide) ?_ (.pure id (by simpa using first))
  exact alike.expressions.bind fun further => .pure id (by simp_all)

theorem functionBody_step : Agree Input.Sheds (Parser.functionBody (fuel + 1)) (Parser.functionBody (other + 1))
    fun read others => others.1.view Name.text = read.1.view Name.text ∧ read.2.IsReadAs Name.text others.2 := by
  rw [Parser.functionBody, Parser.functionBody]
  exact (Agree.parameters fuel other).bind fun given => alike.block.bind fun body => Agree.keyword.bind fun _ =>
    .pure id ⟨given, body⟩

theorem branches_step : Agree Input.Sheds (Parser.branches (fuel + 1)) (Parser.branches (other + 1))
    fun read others => others.view .exact Name.text = read.view .exact Name.text := by
  rw [Parser.branches, Parser.branches]
  refine .current (fun kind position positionOther => ?_) fun _ _ _ _ => .of_refuses Refuses.keyword.bind
  dsimp only
  split
  · exact Agree.advance.bind fun _ => (alike.expression _).bind fun condition => Agree.keyword.bind fun _ =>
      alike.block.bind fun body => alike.branches.bind fun rest => .pure id (by simp_all)
  · exact Agree.advance.bind fun _ => alike.block.bind fun body => Agree.keyword.bind fun _ => .pure id (by simp_all)
  · exact (Agree.keyword.start_mono Input.Faces.sheds).bind fun _ => .pure id rfl

theorem moreTargets_step : Agree Input.Sheds (Parser.moreTargets (fuel + 1)) (Parser.moreTargets (other + 1))
    (Expr.AllReadAs Name.text) := by
  rw [Parser.moreTargets, Parser.moreTargets]
  refine .accept_bind (by decide) ?_ (.pure id rfl)
  exact alike.suffixed.bind fun target => alike.moreTargets.bind fun further => .pure id (by simp_all)

theorem fields_step : Agree Input.Sheds (Parser.fields (fuel + 1)) (Parser.fields (other + 1))
    (Field.AllReadAs Name.text) := by
  rw [Parser.fields, Parser.fields]
  refine .accept_bind (by decide) (.pure id rfl) (alike.field.bind fun first => .fieldSeparator_bind ?_ ?_ ?_)
  · exact alike.fields.bind fun further => .pure id (by simp_all)
  · exact (Agree.symbol (by decide)).bind fun _ => .pure id (by simpa using first)
  · intro lighter result others parts run
    have closed := (Kind.parts_cases parts).2.2.2
    obtain ⟨_, _, front, _⟩ := run_bind_ok run
    rw [Parser.symbol, StateT.run_bind, run_accept_other (by intro same; simp [same] at closed), ok_bind] at front
    exact unexpected_ne_ok front

theorem field_step : Agree Input.Sheds (Parser.field (fuel + 1)) (Parser.field (other + 1))
    (Field.IsReadAs Name.text) := by
  have keyed : Agree Input.Faces (do
      advance
      let key ← Parser.expression fuel 0
      symbol .rightBracket
      symbol .assign
      return Field.keyed key (← Parser.expression fuel 0)) (do
      advance
      let key ← Parser.expression other 0
      symbol .rightBracket
      symbol .assign
      return Field.keyed key (← Parser.expression other 0)) (Field.IsReadAs Name.text) :=
    Agree.advance.bind fun _ => (alike.expression 0).bind fun key => (Agree.symbol (by decide)).bind fun _ =>
      (Agree.symbol (by decide)).bind fun _ => (alike.expression 0).bind fun value => .pure id (by simp_all)
  have named (text : String) (position positionOther : Position) : Agree Input.Faces (do
      advance
      symbol .assign
      return Field.named ⟨text, position⟩ (← Parser.expression fuel 0)) (do
      advance
      symbol .assign
      return Field.named ⟨text, positionOther⟩ (← Parser.expression other 0)) (Field.IsReadAs Name.text) :=
    Agree.advance.bind fun _ => (Agree.symbol (by decide)).bind fun _ => (alike.expression 0).bind fun value =>
      .pure id (by simp_all)
  have item : Agree Input.Sheds (do return Field.item (← Parser.expression fuel 0))
      (do return Field.item (← Parser.expression other 0)) (Field.IsReadAs Name.text) :=
    (alike.expression 0).bind fun value => .pure id (by simpa using value)
  intro input lighter _ _ _ _ sheds run runOther
  rcases sheds.cases with faces | parts
  · -- The second token decides between a name and an expression, and is an equals sign for both or for neither.
    have second : input.rest.current.kind = .symbol .assign ↔ lighter.rest.current.kind = .symbol .assign := by
      rcases faces.rest.cases with further | further
      · rw [further.same]
      · have closed := (Kind.parts_cases further.parts).2.2.2
        constructor <;> intro same
        · exact absurd further.semicolon (by simp [same])
        · simp [same] at closed
    rcases field_cases fuel input with ⟨opened, same⟩ | ⟨text, found, assigned, same⟩ | ⟨other₁, unnamed, same⟩ <;>
      rcases field_cases other lighter with
        ⟨opened', same'⟩ | ⟨text', found', assigned', same'⟩ | ⟨other₂, unnamed', same'⟩ <;>
      rw [same] at run <;> rw [same'] at runOther
    · exact keyed _ _ _ _ _ _ faces run runOther
    · simp [← faces.same, opened] at found'
    · exact absurd (faces.same ▸ opened) other₂
    · simp [faces.same, opened'] at found
    · obtain rfl : text = text' := Kind.name.inj (found.symm.trans (faces.same.trans found'))
      exact named _ _ _ _ _ _ _ _ _ faces run runOther
    · exact absurd (second.mp assigned) (unnamed' text (faces.same ▸ found))
    · exact absurd (faces.same.trans opened') other₁
    · exact absurd (second.mpr assigned') (unnamed text' (faces.same.trans found'))
    · exact item _ _ _ _ _ _ sheds run runOther
  · rcases field_cases fuel input with ⟨opened, _⟩ | ⟨text, found, _⟩ | ⟨_, _, same⟩
    · simp [parts.semicolon] at opened
    · simp [parts.semicolon] at found
    · rw [same] at run
      exact absurd run ((Refuses.expression fuel 0).bind _ _ _ parts.semicolon)

theorem loop_step (position positionOther : Position) :
    Agree Input.Sheds (Parser.loop (fuel + 1) position) (Parser.loop (other + 1) positionOther)
      (Stat.IsReadAs Name.text) := by
  rw [Parser.loop, Parser.loop]
  refine Agree.name.bind fun counter => .accept_bind (by decide) ?_ ?_
  · refine (alike.expression 0).bind fun first => (Agree.symbol (by decide)).bind fun _ =>
      (alike.expression 0).bind fun limit => .accept_bind (by decide) ?_ ?_
    · refine ((alike.expression 0).map fun step => ?_ : Agree _ _ _ fun read others =>
        ∃ first second, read = some first ∧ others = some second ∧ first.IsReadAs Name.text second).bind fun step =>
          Agree.keyword.bind fun _ => alike.block.bind fun body => Agree.keyword.bind fun _ => .pure id ?_
      · exact ⟨_, _, rfl, rfl, step⟩
      · obtain ⟨_, _, rfl, rfl, step⟩ := step
        simp_all
    · simp only [Bool.false_eq_true, ↓reduceIte, pure_bind]
      exact Agree.keyword.bind fun _ => alike.block.bind fun body => Agree.keyword.bind fun _ => .pure id (by simp_all)
  · exact (Agree.moreNames fuel other).bind fun further => Agree.keyword.bind fun _ =>
      alike.expressions.bind fun iterators => Agree.keyword.bind fun _ => alike.block.bind fun body =>
        Agree.keyword.bind fun _ => .pure id (by simp_all)

theorem assignmentOrCall_step (position positionOther : Position) :
    Agree Input.Sheds (Parser.assignmentOrCall (fuel + 1) position) (Parser.assignmentOrCall (other + 1) positionOther)
      (Stat.IsReadAs Name.text) := by
  have called {first second : Expr Name} (same : first.IsReadAs Name.text second) {start : Input → Input → Prop}
      (sheds : ∀ {input lighter}, start input lighter → input.Sheds lighter) : Agree start
      (if first.isCall && !first.site.parenthesized then return .call position first
        else fail .expectedStatement position)
      (if second.isCall && !second.site.parenthesized then return .call positionOther second
        else fail .expectedStatement positionOther) (Stat.IsReadAs Name.text) := by
    split
    · split
      · exact .pure sheds (by simpa using same)
      · exact .of_second fail_ne_ok
    · exact .of_first fail_ne_ok
  rw [Parser.assignmentOrCall, Parser.assignmentOrCall]
  refine alike.suffixed.bind fun first => .current (fun kind _ _ => ?_) fun _ kind _ parts => ?_
  · dsimp only
    split
    · refine (alike.moreTargets.start_mono Input.Faces.sheds).bind fun targets =>
        (Agree.symbol (by decide)).bind fun _ => alike.expressions.bind fun values => ?_
      split
      · exact .of_first fail_ne_ok
      · split
        · exact .of_second fail_ne_ok
        · exact .pure id (by simp_all)
    · exact called first Input.Faces.sheds
  · have closed := (Kind.parts_cases parts).2.2.2
    have stop : ¬(decide (kind = .symbol .assign) || decide (kind = .symbol .comma)) = true := by
      simp only [List.mem_cons, not_or] at closed
      simp [closed.1, closed.2.1]
    simp only [stop]
    exact called first Input.Parts.sheds

theorem statement_step : Agree Input.Sheds (Parser.statement (fuel + 1)) (Parser.statement (other + 1))
    (Stat.IsReadAs Name.text) := by
  rw [Parser.statement, Parser.statement]
  refine .current (fun kind position positionOther => ?_) fun _ _ _ _ => .of_refuses (Refuses.assignmentOrCall fuel _)
  dsimp only
  split
  · exact Agree.advance.bind fun _ => (alike.expression _).bind fun condition => Agree.keyword.bind fun _ =>
      alike.block.bind fun body => alike.branches.bind fun rest => .pure id (by simp_all)
  · exact Agree.advance.bind fun _ => (alike.expression _).bind fun condition => Agree.keyword.bind fun _ =>
      alike.block.bind fun body => Agree.keyword.bind fun _ => .pure id (by simp_all)
  · exact Agree.advance.bind fun _ => alike.block.bind fun body => Agree.keyword.bind fun _ => .pure id (by simp_all)
  · exact Agree.advance.bind fun _ => alike.loop _ _
  · exact Agree.advance.bind fun _ => alike.block.bind fun body => Agree.keyword.bind fun _ =>
      (alike.expression _).bind fun condition => .pure id (by simp_all)
  · exact Agree.advance.bind fun _ => (Agree.functionName fuel other).bind fun called =>
      alike.functionBody.bind fun body => .pure id (by simp_all)
  · refine Agree.advance.bind fun _ => .accept_refusing (by decide) ?_ ?_ fun _ => Refuses.name.bind
    · exact Agree.name.bind fun called => alike.functionBody.bind fun body => .pure id (by simp_all)
    · refine Agree.name.bind fun first => (Agree.moreNames fuel other).bind fun further =>
        .accept_bind (by decide) ?_ ?_
      · exact alike.expressions.bind fun values => .pure id (by simp_all)
      · simp only [Bool.false_eq_true, ↓reduceIte, pure_bind]
        exact .pure id (by simp_all)
  · exact Agree.advance.bind fun _ => Agree.name.bind fun label => (Agree.symbol (by decide)).bind fun _ =>
      .pure id (by simp_all)
  · exact Agree.advance.bind fun _ => Agree.name.bind fun label => .pure id (by simp_all)
  · exact Agree.advance.bind fun _ => .pure id (by simp)
  · exact (alike.assignmentOrCall _ _).start_mono Input.Faces.sheds

omit alike in
theorem closing_ne_ok {kind : Kind} {input lighter rest : Input} (parts : input.Parts kind lighter)
    (goesOn : endsBlock kind = false) {position : Position} {values : List (Expr Name)} {result : Block Name} :
    (do
      let _ ← accept (.symbol .semicolon)
      unless endsBlock (← current).kind do unexpected (.keyword .kEnd)
      return Block.ret position values : Parser (Block Name)).run input ≠ .ok (result, rest) := by
  have behind : endsBlock input.rest.current.kind = false := by
    rcases parts.rest.cases with faces | further
    · rw [faces.same, parts.found, goesOn]
    · rw [further.semicolon]
      rfl
  intro run
  rw [StateT.run_bind, run_accept parts.semicolon, ok_bind, StateT.run_bind, run_current, ok_bind] at run
  simp only [behind, Bool.false_eq_true, ↓reduceIte] at run
  obtain ⟨_, _, front, _⟩ := run_bind_ok run
  exact unexpected_ne_ok front

omit alike in
theorem closing {position positionOther : Position} {values others : List (Expr Name)}
    (same : Expr.AllReadAs Name.text values others) : Agree Input.Sheds (do
      let _ ← accept (.symbol .semicolon)
      unless endsBlock (← current).kind do unexpected (.keyword .kEnd)
      return Block.ret position values) (do
      let _ ← accept (.symbol .semicolon)
      unless endsBlock (← current).kind do unexpected (.keyword .kEnd)
      return Block.ret positionOther others) (Block.IsReadAs Name.text) := by
  refine Agree.accept_semicolon.bind fun _ => .current (fun kind _ _ => ?_) fun _ _ _ _ => .of_refuses ?_
  · dsimp only
    split
    · exact .pure Input.Faces.sheds (by simpa using same)
    · exact .of_first unexpected_ne_ok
  · exact Refuses.unexpected.bind

theorem block_step : Agree Input.Sheds (Parser.block (fuel + 1)) (Parser.block (other + 1))
    (Block.IsReadAs Name.text) := by
  rw [Parser.block, Parser.block]
  refine Agree.skip.bind fun _ => .current (fun kind position positionOther => ?_) fun _ _ _ _ =>
    .of_refuses (Refuses.statement fuel).bind
  dsimp only
  split
  · refine Agree.advance.bind fun _ => .current (fun next _ _ => ?_) fun _ next _ parts => ?_
    · dsimp only
      split
      · rw [pure_bind, pure_bind]
        exact (closing rfl).start_mono Input.Faces.sheds
      · exact (alike.expressions.start_mono Input.Faces.sheds).bind fun values => closing values
    · -- Without its semicolon the return would go on with values.
      have closed :
          (endsBlock (.symbol .semicolon) || decide (Kind.symbol .semicolon = .symbol .semicolon)) = true := by
        decide
      dsimp only
      rw [if_pos closed, pure_bind]
      split
      next =>
        rw [pure_bind]
        exact (closing rfl).start_mono Input.Parts.sheds
      next goesOn =>
        simp only [Bool.or_eq_true, not_or, Bool.not_eq_true] at goesOn
        exact fun _ _ _ _ _ _ parts run => absurd run (closing_ne_ok parts goesOn.1)
  · split
    · exact .pure Input.Faces.sheds rfl
    · exact (alike.statement.start_mono Input.Faces.sheds).bind fun head => alike.block.bind fun tail =>
        .pure id (by simp_all)

theorem step : Alike (fuel + 1) (other + 1) where
  expression := alike.expression_step
  operations := alike.operations_step
  operand := alike.operand_step
  suffixed := alike.suffixed_step
  suffixes := alike.suffixes_step
  arguments := alike.arguments_step
  expressions := alike.expressions_step
  fields := alike.fields_step
  field := alike.field_step
  functionBody := alike.functionBody_step
  block := alike.block_step
  statement := alike.statement_step
  branches := alike.branches_step
  loop := alike.loop_step
  assignmentOrCall := alike.assignmentOrCall_step
  moreTargets := alike.moreTargets_step

end Alike

theorem alike : ∀ fuel other, Alike fuel other
  | 0, other => .zero other
  | fuel + 1, 0 => .other_zero (fuel + 1)
  | fuel + 1, other + 1 => (alike fuel other).step

end Parser

/-- Tokens that differ only in positions, and in semicolons that could be left out, are read as the same tree. -/
theorem Block.view_of_sheds {lexed lighter : Lexed} {tree other : Block Name} (read : Block.ofTokens lexed = .ok tree)
    (readOther : Block.ofTokens lighter = .ok other)
    (sheds : Sheds (lexed.tokens.map (·.kind)) (lighter.tokens.map (·.kind))) :
    other.view .exact Name.text = tree.view .exact Name.text := by
  obtain ⟨_, run, _⟩ := Block.run_of_ofTokens read
  obtain ⟨_, runOther, _⟩ := Block.run_of_ofTokens readOther
  exact ((Parser.alike _ _).block ⟨_, _⟩ ⟨_, _⟩ _ _ _ _ sheds run runOther).1

end LuaMinifier
