import LuaMinifier.Proofs.ReadExpressions

/-!
Reading statements and blocks back from their tokens, and with them every tree whose operators group as they are
written: the tokens of a block are read as the block.
-/

namespace LuaMinifier

open Token

variable {ι : Type} {text : ι → String} {condition : Expr ι} {parameters : Parameters ι} {body : Block ι}
  {input rest : Input}

theorem listed_cons_cons (first second : List Kind) (others : List (List Kind)) :
    listed true (first :: second :: others) = first ++ .symbol .comma :: listed true (second :: others) := by
  simp [listed]

theorem reads_someParameters {vararg : Option Position} {names : List ι} (fuel : Nat)
    (given : (Parameters.mk names vararg).items text ≠ [])
    (enough : (listed true ((Parameters.mk names vararg).items text)).length ≤ fuel)
    (begins : input.Begins (listed true ((Parameters.mk names vararg).items text)) rest)
    (stop : rest.current.kind ≠ .symbol .comma) :
    ∃ read : Parameters Name, read.view Name.text = (Parameters.mk names vararg).view text ∧
      (Parser.someParameters fuel).run input = .ok (read, rest) := by
  induction names generalizing fuel input with
  | nil =>
      cases vararg with
      | none => simp [Parameters.items, nameItems] at given
      | some position =>
          simp only [Parameters.items, nameItems, List.map_nil, List.nil_append, Option.map_some, Option.toList_some,
            listed, List.append_nil] at enough begins
          obtain ⟨fuel, rfl⟩ := exists_spare fuel 1 (by simp at enough; omega)
          refine ⟨_, ?_, by rw [Parser.run_someParameters_vararg begins.current, begins.tail.nil]⟩
          rfl
  | cons name others ih =>
      have items : (Parameters.mk (name :: others) vararg).items text =
          [.name (text name)] :: (Parameters.mk others vararg).items text := rfl
      rw [items] at enough begins
      by_cases last : (Parameters.mk others vararg).items text = []
      · simp only [last, listed, List.append_nil] at enough begins
        obtain ⟨fuel, rfl⟩ := exists_spare fuel 1 (by simp at enough; omega)
        have none : others = [] ∧ vararg = none := by
          simpa [Parameters.items, nameItems] using last
        obtain ⟨rfl, rfl⟩ := none
        have behind := begins.tail.nil
        refine ⟨_, ?_, by rw [Parser.run_someParameters_last begins.current (by rwa [behind]), behind]⟩
        rfl
      · obtain ⟨second, more, split⟩ := List.exists_cons_of_ne_nil last
        rw [split, listed_cons_cons, ← split] at enough begins
        simp only [List.length_append, List.length_cons, List.length_nil] at enough
        obtain ⟨fuel, rfl⟩ := exists_spare fuel 1 (by omega)
        obtain ⟨read, same, run⟩ := ih fuel last (by omega) begins.tail.tail
        refine ⟨_, ?_, Parser.run_someParameters_more begins.current begins.tail.current run⟩
        simp_all [Parameters.view]

theorem Parameters.items_head (parameters : Parameters ι) (given : parameters.items text ≠ []) :
    HeadIs (· ≠ .symbol .rightParen) (listed true (parameters.items text)) := by
  obtain ⟨names, vararg⟩ := parameters
  cases names with
  | cons name others => exact ⟨_, _, rfl, rfl⟩
  | nil =>
      cases vararg with
      | none => simp [Parameters.items, nameItems] at given
      | some position => exact ⟨_, _, rfl, rfl⟩

theorem reads_parameters (parameters : Parameters ι) (fuel : Nat)
    (enough : (listed true (parameters.items text)).length ≤ fuel)
    (begins : input.Begins (.symbol .leftParen :: listed true (parameters.items text) ++ [.symbol .rightParen]) rest) :
    ∃ read : Parameters Name, read.view Name.text = parameters.view text ∧
      (Parser.parameters fuel).run input = .ok (read, rest) := by
  obtain ⟨names, vararg⟩ := parameters
  by_cases none : (Parameters.mk names vararg).items text = []
  · rw [none] at begins
    obtain ⟨rfl, rfl⟩ : names = [] ∧ vararg = Option.none := by simpa [Parameters.items, nameItems] using none
    exact ⟨⟨[], Option.none⟩, rfl, by
      rw [Parser.run_parameters_none begins.current begins.tail.current, begins.tail.tail.nil]⟩
  · have opened := begins.current
    obtain ⟨middle, inner, closed⟩ := begins.tail.split
    obtain ⟨read, same, run⟩ := reads_someParameters fuel none enough inner (by simp [closed.current])
    have other : input.rest.current.kind ≠ .symbol .rightParen := by
      simpa using inner.head (Parameters.items_head _ none)
    exact ⟨read, same, by rw [Parser.run_parameters_some opened other run closed.current, closed.tail.nil]⟩

theorem reads_moreFields {fields : List Name} (fuel : Nat)
    (enough : (fields.flatMap fun field => [Kind.symbol .dot, .name field.text]).length < fuel)
    (begins : input.Begins (fields.flatMap fun field => [.symbol .dot, .name field.text]) rest)
    (stop : rest.current.kind ≠ .symbol .dot) :
    ∃ read : List Name, read.map Name.view = fields.map Name.view ∧
      (Parser.moreFields fuel).run input = .ok (read, rest) := by
  induction fields generalizing fuel input with
  | nil =>
      obtain ⟨fuel, rfl⟩ := exists_spare fuel 1 (by simp at enough; omega)
      obtain rfl := begins.nil
      exact ⟨[], rfl, Parser.run_moreFields_stop stop⟩
  | cons field others ih =>
      obtain ⟨fuel, rfl⟩ := exists_spare fuel 1 (by omega)
      rw [List.flatMap_cons] at enough begins
      simp only [List.length_append, List.length_cons, List.length_nil] at enough
      obtain ⟨read, same, run⟩ := ih fuel (by omega) begins.tail.tail
      refine ⟨_, ?_, Parser.run_moreFields_step begins.current begins.tail.current run⟩
      simp_all [Name.view]

theorem reads_functionName (name : FunctionName ι) (fuel : Nat)
    (enough : (name.kinds text).length ≤ fuel) (begins : input.Begins (name.kinds text) rest)
    (opened : rest.current.kind = .symbol .leftParen) :
    ∃ read : FunctionName Name, read.view Name.text = name.view text ∧
      (Parser.functionName fuel).run input = .ok (read, rest) := by
  obtain ⟨root, fields, method⟩ := name
  simp only [FunctionName.kinds, List.cons_append, List.length_cons, List.length_append] at enough begins
  have named := begins.current
  obtain ⟨middle, front, behind⟩ := begins.tail.split
  cases method with
  | none =>
      obtain rfl : middle = rest := behind.nil
      obtain ⟨read, same, run⟩ := reads_moreFields fuel (by omega) front (by simp [opened])
      refine ⟨_, ?_, Parser.run_functionName_plain named run (by simp [opened])⟩
      simp_all [FunctionName.view]
  | some method =>
      have colon : middle.current.kind = .symbol .colon := behind.current
      have called : middle.rest.current.kind = .name method.text := behind.tail.current
      have done : middle.rest.rest = rest := behind.tail.tail.nil
      obtain ⟨read, same, run⟩ := reads_moreFields fuel (by omega) front (by simp [colon])
      refine ⟨_, ?_, by rw [Parser.run_functionName_method named run colon called, done]⟩
      simp_all [FunctionName.view, Name.view]

theorem nameItems_cons (name : ι) (names : List ι) :
    nameItems text (name :: names) = [.name (text name)] :: nameItems text names := rfl

theorem reads_moreNames {names : List ι} (fuel : Nat) (enough : (listed false (nameItems text names)).length < fuel)
    (begins : input.Begins (listed false (nameItems text names)) rest) (stop : rest.current.kind ≠ .symbol .comma) :
    ∃ read : List Name, read.map Name.text = names.map text ∧
      (Parser.moreNames fuel).run input = .ok (read, rest) := by
  induction names generalizing fuel input with
  | nil =>
      obtain ⟨fuel, rfl⟩ := exists_spare fuel 1 (by omega)
      obtain rfl := begins.nil
      exact ⟨[], rfl, Parser.run_moreNames_stop stop⟩
  | cons name others ih =>
      obtain ⟨fuel, rfl⟩ := exists_spare fuel 1 (by omega)
      simp only [nameItems_cons, listed, List.cons_append, List.nil_append, List.length_cons] at enough
      obtain ⟨read, same, run⟩ := ih fuel (by omega) begins.tail.tail
      refine ⟨_, ?_, Parser.run_moreNames_step begins.current begins.tail.current run⟩
      simp_all

/-- A block read from tokens is a given one, positions apart. -/
def Block.IsReadAs (text : ι → String) (body : Block ι) (read : Block Name) : Prop :=
  read.view .exact Name.text = body.view .exact text

/-- With fuel for its tokens, a block is read up to what ends it. -/
def Block.Reads (text : ι → String) (body : Block ι) : Prop :=
  ∀ (isFirst : Bool) (fuel : Nat) {input rest : Input}, 8 * (body.kinds text isFirst).length + 4 ≤ fuel →
    input.Begins (body.kinds text isFirst) rest → Parser.endsBlock rest.current.kind = true →
    ∃ read, body.IsReadAs text read ∧ (Parser.block fuel).run input = .ok (read, rest)

theorem reads_functionBody (parameters : Parameters ι) (inner : body.Reads text) (fuel : Nat)
    (enough : 8 * (functionKinds (parameters.items text) (body.kinds text true)).length ≤ fuel + 8)
    (begins : input.Begins (functionKinds (parameters.items text) (body.kinds text true)) rest) :
    ∃ (given : Parameters Name) (read : Block Name), given.view Name.text = parameters.view text ∧
      body.IsReadAs text read ∧ (Parser.functionBody fuel).run input = .ok ((given, read), rest) := by
  have split : functionKinds (parameters.items text) (body.kinds text true) =
      (.symbol .leftParen :: listed true (parameters.items text) ++ [.symbol .rightParen])
        ++ (body.kinds text true ++ [.keyword .kEnd]) := by
    simp [functionKinds]
  rw [split] at enough begins
  simp only [List.length_append, List.length_cons, List.length_nil] at enough
  obtain ⟨fuel, rfl⟩ := exists_spare fuel 1 (by omega)
  obtain ⟨first, front, behind⟩ := begins.split
  obtain ⟨last, within, closed⟩ := behind.split
  obtain ⟨given, sameGiven, runGiven⟩ := reads_parameters parameters fuel (by omega) front
  obtain ⟨read, same, run⟩ := inner true fuel (by omega) within (by rw [closed.current]; rfl)
  exact ⟨given, read, sameGiven, same, by rw [Parser.run_functionBody runGiven run closed.current, closed.tail.nil]⟩

theorem Expr.reads_function {position : Position}
    (inner : body.Reads text) : (function ⟨position, false⟩ parameters body).ReadsExpression text := by
  intro fuel limit input rest enough begins _ _
  simp only [kinds, Site.enclose, Bool.false_eq_true, ↓reduceIte, List.length_cons] at enough begins ⊢
  obtain ⟨fuel, rfl⟩ := exists_spare fuel 2 (by omega)
  have found := begins.current
  obtain ⟨given, read, sameGiven, same, run⟩ := reads_functionBody parameters inner fuel (by omega) begins.tail
  have other : UnaryOp.ofToken? input.current.kind = none := by rw [found]; rfl
  refine ⟨fuel + 1, input.current.position, _, by omega, ?_, by
    rw [Parser.run_expression_operand other, Parser.run_operand_function found run]
    rfl⟩
  simp_all [IsReadAs, Block.IsReadAs, Expr.view, Site.view, Site.plain, Detail.keeps]

/-- Tokens that can follow a statement: no expression goes on with them. -/
def Parser.endsStatement (kind : Kind) : Bool :=
  endsBlock kind || kind = .symbol .semicolon || (kind.startsLine && kind ≠ .symbol .leftParen)

theorem Parser.isBoundary_of_endsStatement {kind : Kind} (ends : endsStatement kind = true) :
    isBoundary kind = true ∧ kind ≠ .symbol .comma ∧ kind ≠ .symbol .assign := by
  cases kind with
  | symbol sign => cases sign <;> revert ends <;> decide
  | keyword reserved => cases reserved <;> revert ends <;> decide
  | name text => exact ⟨rfl, by simp, by simp⟩
  | eof => exact ⟨rfl, by simp, by simp⟩
  | _ => simp [endsStatement, endsBlock, Kind.startsLine, Kind.startsStatement] at ends

theorem Parser.goesOn_of_opens {kind : Kind} (opens : kind.opens = true) :
    endsBlock kind = false ∧ kind ≠ .symbol .semicolon := by
  revert opens
  cases kind with
  | symbol sign => cases sign <;> decide
  | keyword reserved => cases reserved <;> decide
  | eof => decide
  | _ => simp [endsBlock]

theorem Parser.goesOn_of_startsStatement {kind : Kind} (starts : kind.startsStatement = true) :
    kind ≠ .symbol .semicolon ∧ kind ≠ .keyword .kReturn ∧ endsBlock kind = false := by
  revert starts
  cases kind with
  | symbol sign => cases sign <;> decide
  | keyword reserved => cases reserved <;> decide
  | eof => decide
  | _ => simp [endsBlock]

theorem Expr.ReadsSuffixed.bounded {expression : Expr ι} (reads : expression.ReadsSuffixed text) (fuel : Nat)
    (enough : 8 * (expression.kinds text).length + 1 ≤ fuel)
    (begins : input.Begins (expression.kinds text) rest) (stop : Parser.startsSuffix rest.current.kind = false) :
    ∃ read, expression.IsReadAs text read ∧ (Parser.suffixed fuel).run input = .ok (read, rest) := by
  obtain ⟨left, read, spent, same, run⟩ := reads fuel enough begins
  obtain ⟨left, rfl⟩ := exists_spare left 1 (by omega)
  exact ⟨read, same, by rw [run, Parser.run_suffixes_stop stop]⟩

theorem Expr.AllReadAs.isAssignable {expressions : List (Expr ι)} {read : List (Expr Name)}
    (same : AllReadAs text expressions read)
    (assignable : ∀ expression ∈ expressions, expression.isAssignable = true) :
    ∀ result ∈ read, result.isAssignable = true := by
  intro result member
  have seen : result.view .exact Name.text false ∈ Expr.viewAll .exact text expressions := by
    rw [← same]
    exact Expr.mem_viewAll.mpr ⟨result, member, rfl⟩
  obtain ⟨expression, among, alike⟩ := Expr.mem_viewAll.mp seen
  rw [← Expr.isAssignable_view Name.text false, ← alike, Expr.isAssignable_view]
  exact assignable expression among

theorem Expr.reads_moreTargets {targets : List (Expr ι)} (reads : ∀ target ∈ targets, target.ReadsSuffixed text)
    (fuel : Nat) (enough : 8 * (listed false (Expr.kindsAll text targets)).length + 1 ≤ fuel)
    (begins : input.Begins (listed false (Expr.kindsAll text targets)) rest)
    (assigned : rest.current.kind = .symbol .assign) :
    ∃ read, AllReadAs text targets read ∧ (Parser.moreTargets fuel).run input = .ok (read, rest) := by
  induction targets generalizing fuel input with
  | nil =>
      obtain ⟨fuel, rfl⟩ := exists_spare fuel 1 (by omega)
      obtain rfl := begins.nil
      exact ⟨[], rfl, Parser.run_moreTargets_stop (by simp [assigned])⟩
  | cons target others ih =>
      rw [List.forall_mem_cons] at reads
      obtain ⟨fuel, rfl⟩ := exists_spare fuel 1 (by omega)
      simp only [kindsAll, listed, List.cons_append, List.length_cons, List.length_append] at enough begins
      obtain ⟨middle, front, behind⟩ := begins.tail.split
      have stop : Parser.startsSuffix middle.current.kind = false := by
        cases others with
        | nil => rw [behind.nil, assigned]; rfl
        | cons second others => rw [behind.current]; rfl
      obtain ⟨read, same, run⟩ := reads.1.bounded fuel (by omega) front stop
      obtain ⟨further, sameFurther, runFurther⟩ := ih reads.2 fuel (by omega) behind
      refine ⟨_, ?_, Parser.run_moreTargets_step begins.current run runFurther⟩
      simp_all [AllReadAs, IsReadAs, Expr.viewAll]

namespace Stat

/-- A statement read from tokens is a given one, positions apart. -/
def IsReadAs (text : ι → String) (statement : Stat ι) (read : Stat Name) : Prop :=
  read.view .exact Name.text = statement.view .exact text

/-- With fuel for its tokens, a statement is read up to what can follow it. -/
def Reads (text : ι → String) (statement : Stat ι) : Prop :=
  ∀ (fuel : Nat) {input rest : Input}, 8 * (statement.kinds text).length + 3 ≤ fuel →
    input.Begins (statement.kinds text) rest → Parser.endsStatement rest.current.kind = true →
    ∃ read, statement.IsReadAs text read ∧ (Parser.statement fuel).run input = .ok (read, rest)

variable {position : Position}

theorem reads_assign {target : Expr ι} {targets values : List (Expr ι)}
    (first : target.ReadsSuffixed text) (start : HeadIs Kind.startsSuffixed (target.kinds text))
    (more : ∀ other ∈ targets, other.ReadsSuffixed text)
    (assignable : ∀ other ∈ target :: targets, other.isAssignable = true) (given : Expr.ReadsList text values) :
    (assign position (target :: targets) values).Reads text := by
  intro fuel input rest enough begins ends
  obtain ⟨boundary, comma, _⟩ := Parser.isBoundary_of_endsStatement ends
  simp only [kinds, Expr.kindsAll, listed, List.append_assoc, List.length_append, List.length_cons] at enough begins
  obtain ⟨fuel, rfl⟩ := exists_spare fuel 2 (by omega)
  obtain ⟨next, front, behind⟩ := begins.split
  obtain ⟨last, others, assigned⟩ := behind.split
  have found : next.current.kind = .symbol .assign ∨ next.current.kind = .symbol .comma := by
    cases targets with
    | nil => exact .inl (by rw [others.nil, assigned.current])
    | cons second targets => exact .inr others.current
  have stop : Parser.startsSuffix next.current.kind = false := by rcases found with found | found <;> rw [found] <;> rfl
  obtain ⟨read, same, run⟩ := first.bounded fuel (by omega) front stop
  obtain ⟨further, sameFurther, runFurther⟩ := Expr.reads_moreTargets more fuel (by omega) others assigned.current
  obtain ⟨results, sameResults, runResults⟩ := given fuel (by omega) assigned.tail boundary comma
  have all : Expr.AllReadAs text (target :: targets) (read :: further) := by
    simp_all [Expr.IsReadAs, Expr.AllReadAs, Expr.viewAll]
  refine ⟨_, ?_, by
    rw [Parser.run_statement_suffixed (front.head start),
      Parser.run_assignment run found runFurther assigned.current runResults (all.isAssignable assignable)]⟩
  simp_all [IsReadAs, Expr.AllReadAs, Stat.view]

theorem reads_call {applied : Expr ι} (inner : applied.ReadsSuffixed text)
    (start : HeadIs Kind.startsSuffixed (applied.kinds text)) (isCall : applied.isCall = true)
    (bare : applied.site.parenthesized = false) : (call position applied).Reads text := by
  intro fuel input rest enough begins ends
  obtain ⟨boundary, comma, assign⟩ := Parser.isBoundary_of_endsStatement ends
  simp only [kinds] at enough begins
  obtain ⟨fuel, rfl⟩ := exists_spare fuel 2 (by omega)
  obtain ⟨read, same, run⟩ := inner.bounded fuel (by omega) begins (Expr.stopsAt_boundary boundary applied).1
  have called : read.isCall = true := by simpa [isCall] using congrArg Expr.isCall same
  have unmarked : read.site.parenthesized = false := by
    simpa [bare] using congrArg (·.site.parenthesized) same
  refine ⟨_, ?_, by
    rw [Parser.run_statement_suffixed (begins.head start), Parser.run_call run assign comma called unmarked]⟩
  simp_all [IsReadAs, Expr.IsReadAs, Stat.view]

theorem reads_localVars {name : ι} {names : List ι} {values : List (Expr ι)}
    (given : values ≠ [] → Expr.ReadsList text values) : (localVars position (name :: names) values).Reads text := by
  intro fuel input rest enough begins ends
  obtain ⟨boundary, comma, assign⟩ := Parser.isBoundary_of_endsStatement ends
  cases values with
  | nil =>
      simp only [kinds, nameItems_cons, listed, List.cons_append, List.nil_append, List.append_nil, List.length_cons,
        List.isEmpty_nil, ↓reduceIte] at enough begins
      obtain ⟨fuel, rfl⟩ := exists_spare fuel 1 (by omega)
      obtain ⟨read, same, run⟩ := reads_moreNames fuel (by omega) begins.tail.tail comma
      refine ⟨_, ?_, Parser.run_statement_localNames begins.current begins.tail.current run assign⟩
      simp_all [IsReadAs, Stat.view, Expr.viewAll]
  | cons value others =>
      simp only [kinds, nameItems_cons, listed, List.cons_append, List.nil_append, List.length_cons,
        List.length_append, List.isEmpty_cons, Bool.false_eq_true, ↓reduceIte] at enough begins
      obtain ⟨fuel, rfl⟩ := exists_spare fuel 1 (by omega)
      have found := begins.current
      have named := begins.tail.current
      obtain ⟨middle, more, assigned⟩ := begins.tail.tail.split
      obtain ⟨read, same, run⟩ := reads_moreNames fuel (by omega) more (by simp [assigned.current])
      obtain ⟨results, sameResults, runResults⟩ := given (by simp) fuel (by omega) assigned.tail boundary comma
      refine ⟨_, ?_, Parser.run_statement_localValues found named run assigned.current runResults⟩
      simp_all [IsReadAs, Expr.AllReadAs, Stat.view]

theorem reads_whileLoop (test : condition.ReadsExpression text)
    (inner : body.Reads text) : (whileLoop position condition body).Reads text := by
  intro fuel input rest enough begins _
  simp only [kinds, List.append_assoc, List.cons_append, List.length_append, List.length_cons,
    List.length_nil] at enough begins
  obtain ⟨fuel, rfl⟩ := exists_spare fuel 1 (by omega)
  obtain ⟨first, front, opened⟩ := begins.tail.split
  obtain ⟨second, within, closed⟩ := opened.tail.split
  obtain ⟨tested, sameTest, runTest⟩ := test.bounded fuel (by omega) front (by rw [opened.current]; rfl)
  obtain ⟨read, same, run⟩ := inner true fuel (by omega) within (by rw [closed.current]; rfl)
  refine ⟨_, ?_, by
    rw [Parser.run_statement_while begins.current runTest opened.current run closed.current, closed.tail.nil]⟩
  simp_all [IsReadAs, Expr.IsReadAs, Block.IsReadAs, Stat.view]

theorem reads_doBlock (inner : body.Reads text) : (doBlock position body).Reads text := by
  intro fuel input rest enough begins _
  simp only [kinds, List.cons_append, List.length_append, List.length_cons, List.length_nil] at enough begins
  obtain ⟨fuel, rfl⟩ := exists_spare fuel 1 (by omega)
  obtain ⟨first, within, closed⟩ := begins.tail.split
  obtain ⟨read, same, run⟩ := inner true fuel (by omega) within (by rw [closed.current]; rfl)
  refine ⟨_, ?_, by rw [Parser.run_statement_do begins.current run closed.current, closed.tail.nil]⟩
  simp_all [IsReadAs, Block.IsReadAs, Stat.view]

theorem reads_repeatLoop (inner : body.Reads text)
    (test : condition.ReadsExpression text) : (repeatLoop position body condition).Reads text := by
  intro fuel input rest enough begins ends
  simp only [kinds, List.cons_append, List.length_append, List.length_cons] at enough begins
  obtain ⟨fuel, rfl⟩ := exists_spare fuel 1 (by omega)
  obtain ⟨first, within, closed⟩ := begins.tail.split
  obtain ⟨read, same, run⟩ := inner true fuel (by omega) within (by rw [closed.current]; rfl)
  obtain ⟨tested, sameTest, runTest⟩ := test.bounded fuel (by omega) closed.tail
    (Parser.isBoundary_of_endsStatement ends).1
  refine ⟨_, ?_, Parser.run_statement_repeat begins.current run closed.current runTest⟩
  simp_all [IsReadAs, Expr.IsReadAs, Block.IsReadAs, Stat.view]

theorem reads_function {name : FunctionName ι} (inner : body.Reads text) :
    (function position name parameters body).Reads text := by
  intro fuel input rest enough begins _
  simp only [kinds, List.cons_append, List.length_append, List.length_cons] at enough begins
  obtain ⟨fuel, rfl⟩ := exists_spare fuel 1 (by omega)
  obtain ⟨first, front, behind⟩ := begins.tail.split
  obtain ⟨called, sameCalled, runCalled⟩ := reads_functionName name fuel (by omega) front behind.current
  obtain ⟨given, read, sameGiven, same, run⟩ := reads_functionBody parameters inner fuel (by omega) behind
  refine ⟨_, ?_, Parser.run_statement_function begins.current runCalled run⟩
  simp_all [IsReadAs, Block.IsReadAs, Stat.view]

theorem run_localFunction {name : ι} (inner : body.Reads text) (fuel : Nat)
    (enough : 8 * ((localFunction position name parameters body).kinds text).length + 3 ≤ fuel)
    (begins : input.Begins ((localFunction position name parameters body).kinds text) rest) :
    ∃ read, (localFunction position name parameters body).IsReadAs text read ∧
      (Parser.statement fuel).run input = .ok (read, rest) := by
  simp only [kinds, List.length_cons] at enough begins
  obtain ⟨fuel, rfl⟩ := exists_spare fuel 1 (by omega)
  obtain ⟨given, read, sameGiven, same, run⟩ := reads_functionBody parameters inner fuel (by omega)
    begins.tail.tail.tail
  refine ⟨_, ?_, Parser.run_statement_localFunction begins.current begins.tail.current begins.tail.tail.current run⟩
  simp_all [IsReadAs, Block.IsReadAs, Stat.view]

theorem reads_localFunction {name : ι} (inner : body.Reads text) :
    (localFunction position name parameters body).Reads text :=
  fun fuel _ _ enough begins _ => run_localFunction inner fuel enough begins

theorem reads_count {counter : ι} {start limit : Expr ι} (first : start.ReadsExpression text)
    (second : limit.ReadsExpression text) (inner : body.Reads text) :
    (numericFor position counter start limit none body).Reads text := by
  intro fuel input rest enough begins _
  simp only [kinds, List.append_assoc, List.cons_append, List.length_append, List.length_cons,
    List.length_nil] at enough begins
  obtain ⟨fuel, rfl⟩ := exists_spare fuel 2 (by omega)
  obtain ⟨behindStart, atStart, comma⟩ := begins.tail.tail.tail.split
  obtain ⟨behindLimit, atLimit, opened⟩ := comma.tail.split
  obtain ⟨behindBody, within, closed⟩ := opened.tail.split
  obtain ⟨readStart, sameStart, runStart⟩ := first.bounded fuel (by omega) atStart (by rw [comma.current]; rfl)
  obtain ⟨readLimit, sameLimit, runLimit⟩ := second.bounded fuel (by omega) atLimit (by rw [opened.current]; rfl)
  obtain ⟨read, same, run⟩ := inner true fuel (by omega) within (by rw [closed.current]; rfl)
  refine ⟨_, ?_, by
    rw [Parser.run_statement_loop begins.current, Parser.run_loop_count begins.tail.current begins.tail.tail.current
      runStart comma.current runLimit opened.current run closed.current, closed.tail.nil]⟩
  simp_all [IsReadAs, Expr.IsReadAs, Block.IsReadAs, Stat.view]

theorem reads_step {counter : ι} {start limit step : Expr ι} (first : start.ReadsExpression text)
    (second : limit.ReadsExpression text) (third : step.ReadsExpression text) (inner : body.Reads text) :
    (numericFor position counter start limit (some step) body).Reads text := by
  intro fuel input rest enough begins _
  simp only [kinds, List.append_assoc, List.cons_append, List.length_append, List.length_cons,
    List.length_nil] at enough begins
  obtain ⟨fuel, rfl⟩ := exists_spare fuel 2 (by omega)
  obtain ⟨behindStart, atStart, comma⟩ := begins.tail.tail.tail.split
  obtain ⟨behindLimit, atLimit, again⟩ := comma.tail.split
  obtain ⟨behindStep, atStep, opened⟩ := again.tail.split
  obtain ⟨behindBody, within, closed⟩ := opened.tail.split
  obtain ⟨readStart, sameStart, runStart⟩ := first.bounded fuel (by omega) atStart (by rw [comma.current]; rfl)
  obtain ⟨readLimit, sameLimit, runLimit⟩ := second.bounded fuel (by omega) atLimit (by rw [again.current]; rfl)
  obtain ⟨readStep, sameStep, runStep⟩ := third.bounded fuel (by omega) atStep (by rw [opened.current]; rfl)
  obtain ⟨read, same, run⟩ := inner true fuel (by omega) within (by rw [closed.current]; rfl)
  refine ⟨_, ?_, by
    rw [Parser.run_statement_loop begins.current, Parser.run_loop_step begins.tail.current begins.tail.tail.current
      runStart comma.current runLimit again.current runStep opened.current run closed.current, closed.tail.nil]⟩
  simp_all [IsReadAs, Expr.IsReadAs, Block.IsReadAs, Stat.view]

theorem reads_genericFor {name : ι} {names : List ι} {iterators : List (Expr ι)}
    (given : Expr.ReadsList text iterators) (inner : body.Reads text) :
    (genericFor position (name :: names) iterators body).Reads text := by
  intro fuel input rest enough begins _
  simp only [kinds, nameItems_cons, listed, List.append_assoc, List.cons_append, List.nil_append, List.length_append,
    List.length_cons, List.length_nil] at enough begins
  obtain ⟨fuel, rfl⟩ := exists_spare fuel 2 (by omega)
  obtain ⟨behindNames, more, within⟩ := begins.tail.tail.split
  obtain ⟨behindIterators, listing, opened⟩ := within.tail.split
  obtain ⟨behindBody, inside, closed⟩ := opened.tail.split
  have stop : input.rest.rest.current.kind ≠ .symbol .assign := by
    cases names with
    | nil => rw [more.nil, within.current]; simp
    | cons second names => rw [more.current]; simp
  obtain ⟨further, sameFurther, runFurther⟩ := reads_moreNames fuel (by omega) more (by simp [within.current])
  obtain ⟨results, sameResults, runResults⟩ := given fuel (by omega) listing (by rw [opened.current]; rfl)
    (by simp [opened.current])
  obtain ⟨read, same, run⟩ := inner true fuel (by omega) inside (by rw [closed.current]; rfl)
  refine ⟨_, ?_, by
    rw [Parser.run_statement_loop begins.current, Parser.run_loop_iterate begins.tail.current runFurther stop
      within.current runResults opened.current run closed.current, closed.tail.nil]⟩
  simp_all [IsReadAs, Expr.AllReadAs, Block.IsReadAs, Stat.view]

theorem reads_breakLoop : (breakLoop position).Reads text := by
  intro fuel input rest enough begins _
  obtain ⟨fuel, rfl⟩ := exists_spare fuel 1 (by omega)
  refine ⟨_, ?_, by rw [Parser.run_statement_break begins.current, begins.tail.nil]⟩
  rfl

theorem reads_label {name : Name} : (label position name).Reads text := by
  intro fuel input rest enough begins _
  obtain ⟨fuel, rfl⟩ := exists_spare fuel 1 (by omega)
  refine ⟨_, ?_, by
    rw [Parser.run_statement_label begins.current begins.tail.current begins.tail.tail.current,
      begins.tail.tail.tail.nil]⟩
  rfl

theorem reads_goto {name : Name} : (goto position name).Reads text := by
  intro fuel input rest enough begins _
  obtain ⟨fuel, rfl⟩ := exists_spare fuel 1 (by omega)
  refine ⟨_, ?_, by rw [Parser.run_statement_goto begins.current begins.tail.current, begins.tail.tail.nil]⟩
  rfl

end Stat

/-- What follows a branch is read, with fuel for its tokens, up to the end of the conditional. -/
def Else.Reads (text : ι → String) (branches : Else ι) : Prop :=
  ∀ (fuel : Nat) {input rest : Input}, 8 * (branches.kinds text).length ≤ fuel →
    input.Begins (branches.kinds text) rest →
    ∃ read, read.view .exact Name.text = branches.view .exact text ∧
      (Parser.branches fuel).run input = .ok (read, rest)

namespace Else

variable {position : Position}

theorem kinds_head (branches : Else ι) : HeadIs Parser.endsBlock (branches.kinds text) := by
  cases branches <;> exact ⟨_, _, rfl, rfl⟩

theorem reads_none : (none : Else ι).Reads text := by
  intro fuel input rest enough begins
  obtain ⟨fuel, rfl⟩ := exists_spare fuel 1 (by simp [kinds] at enough; omega)
  exact ⟨_, rfl, by rw [Parser.run_branches_end begins.current, begins.tail.nil]⟩

theorem reads_otherwise (inner : body.Reads text) : (otherwise position body).Reads text := by
  intro fuel input rest enough begins
  simp only [kinds, List.cons_append, List.length_append, List.length_cons, List.length_nil] at enough begins
  obtain ⟨fuel, rfl⟩ := exists_spare fuel 1 (by omega)
  obtain ⟨first, within, closed⟩ := begins.tail.split
  obtain ⟨read, same, run⟩ := inner true fuel (by omega) within (by rw [closed.current]; rfl)
  refine ⟨_, ?_, by rw [Parser.run_branches_else begins.current run closed.current, closed.tail.nil]⟩
  simp_all [Block.IsReadAs, Else.view]

theorem reads_elseif {branches : Else ι} (test : condition.ReadsExpression text)
    (inner : body.Reads text) (others : branches.Reads text) :
    (elseif position condition body branches).Reads text := by
  intro fuel input rest enough begins
  simp only [kinds, List.append_assoc, List.cons_append, List.length_append, List.length_cons] at enough begins
  obtain ⟨fuel, rfl⟩ := exists_spare fuel 1 (by omega)
  obtain ⟨first, front, opened⟩ := begins.tail.split
  obtain ⟨second, within, behind⟩ := opened.tail.split
  obtain ⟨tested, sameTest, runTest⟩ := test.bounded fuel (by omega) front (by rw [opened.current]; rfl)
  obtain ⟨read, same, run⟩ := inner true fuel (by omega) within (behind.head branches.kinds_head)
  obtain ⟨more, sameMore, runMore⟩ := others fuel (by omega) behind
  refine ⟨_, ?_, Parser.run_branches_elseif begins.current runTest opened.current run runMore⟩
  simp_all [Expr.IsReadAs, Block.IsReadAs, Else.view]

end Else

theorem Stat.reads_cond {position : Position} {branches : Else ι}
    (test : condition.ReadsExpression text) (inner : body.Reads text) (others : branches.Reads text) :
    (cond position condition body branches).Reads text := by
  intro fuel input rest enough begins _
  simp only [kinds, List.append_assoc, List.cons_append, List.length_append, List.length_cons] at enough begins
  obtain ⟨fuel, rfl⟩ := exists_spare fuel 1 (by omega)
  obtain ⟨first, front, opened⟩ := begins.tail.split
  obtain ⟨second, within, behind⟩ := opened.tail.split
  obtain ⟨tested, sameTest, runTest⟩ := test.bounded fuel (by omega) front (by rw [opened.current]; rfl)
  obtain ⟨read, same, run⟩ := inner true fuel (by omega) within (behind.head branches.kinds_head)
  obtain ⟨more, sameMore, runMore⟩ := others fuel (by omega) behind
  refine ⟨_, ?_, Parser.run_statement_cond begins.current runTest opened.current run runMore⟩
  simp_all [IsReadAs, Expr.IsReadAs, Block.IsReadAs, Stat.view]

namespace Block

theorem reads_nil : (nil : Block ι).Reads text := by
  intro isFirst fuel input rest enough begins ends
  obtain ⟨fuel, rfl⟩ := exists_spare fuel 1 (by omega)
  obtain rfl := begins.nil
  exact ⟨.nil, rfl, Parser.run_block_end ends⟩

theorem reads_ret {position : Position} {values : List (Expr ι)} (given : values ≠ [] → Expr.ReadsList text values) :
    (ret position values).Reads text := by
  intro isFirst fuel input rest enough begins ends
  simp only [kinds, List.length_cons] at enough begins
  obtain ⟨fuel, rfl⟩ := exists_spare fuel 1 (by omega)
  cases values with
  | nil =>
      have done : input.rest = rest := begins.tail.nil
      refine ⟨_, ?_, by rw [Parser.run_block_return_none begins.current (by rwa [done]), done]⟩
      rfl
  | cons value others =>
      have separate : Parser.endsStatement rest.current.kind = true := by simp [Parser.endsStatement, ends]
      obtain ⟨boundary, comma, _⟩ := Parser.isBoundary_of_endsStatement separate
      obtain ⟨results, same, run⟩ := given (by simp) fuel (by omega) begins.tail boundary comma
      have opens := begins.tail.head (Expr.listed_head text others (value.kinds_head text))
      obtain ⟨goesOn, other⟩ := Parser.goesOn_of_opens opens
      refine ⟨_, ?_, Parser.run_block_return begins.current goesOn other run ends⟩
      simp_all [IsReadAs, Expr.AllReadAs, Block.view]

theorem endsStatement_of_begins {valid : Kind → Prop} {named : ι → Prop}
    (formed : body.Formed valid named) (begins : input.Begins (body.kinds text false) rest)
    (ends : Parser.endsBlock rest.current.kind = true) : Parser.endsStatement input.current.kind = true := by
  cases body with
  | nil =>
      obtain rfl := begins.nil
      simp [Parser.endsStatement, ends]
  | ret position values =>
      rw [kinds] at begins
      rw [begins.current]
      rfl
  | cons head tail =>
      obtain ⟨first, more, split, start⟩ := head.kinds_head text formed.1
      rw [kinds, separated, split] at begins
      split at begins
      next =>
        rw [List.cons_append] at begins
        rw [begins.current]
        rfl
      next other =>
        rw [List.cons_append] at begins
        rw [begins.current]
        simp_all [Parser.endsStatement, Kind.startsLine]

theorem run_cons {head : Stat ι} {tail : Block ι} (start : HeadIs Kind.startsStatement (head.kinds text))
    {fuel : Nat} {input middle rest : Input} (front : input.Begins (head.kinds text) middle)
    (first : ∃ read, head.IsReadAs text read ∧ (Parser.statement fuel).run input = .ok (read, middle))
    (others : ∃ read, tail.IsReadAs text read ∧ (Parser.block fuel).run middle = .ok (read, rest)) :
    ∃ read, (cons head tail).IsReadAs text read ∧ (Parser.block (fuel + 1)).run input = .ok (read, rest) := by
  obtain ⟨read, same, run⟩ := first
  obtain ⟨more, sameMore, runMore⟩ := others
  obtain ⟨other, going, goesOn⟩ := Parser.goesOn_of_startsStatement (front.head start)
  refine ⟨_, ?_, Parser.run_block_statement other going goesOn run runMore⟩
  simp_all [IsReadAs, Stat.IsReadAs, Block.view]

theorem reads_statement {valid : Kind → Prop} {named : ι → Prop} {head : Stat ι} {tail : Block ι}
    (formedHead : head.Formed valid named) (formedTail : tail.Formed valid named) (first : head.Reads text)
    (others : tail.Reads text) (fuel : Nat)
    (enough : 8 * (head.kinds text ++ tail.kinds text false).length + 4 ≤ fuel)
    (begins : input.Begins (head.kinds text ++ tail.kinds text false) rest)
    (ends : Parser.endsBlock rest.current.kind = true) :
    ∃ read, (cons head tail).IsReadAs text read ∧ (Parser.block fuel).run input = .ok (read, rest) := by
  obtain ⟨middle, front, behind⟩ := begins.split
  have start := head.kinds_head text formedHead
  have some : 0 < (head.kinds text).length := List.length_pos_iff.mpr start.ne_nil
  rw [List.length_append] at enough
  obtain ⟨fuel, rfl⟩ := exists_spare fuel 1 (by omega)
  exact run_cons start front (first fuel (by omega) front (endsStatement_of_begins formedTail behind ends))
    (others false fuel (by omega) behind ends)

theorem reads_cons {valid : Kind → Prop} {named : ι → Prop} {head : Stat ι} {tail : Block ι}
    (formedHead : head.Formed valid named) (formedTail : tail.Formed valid named) (first : head.Reads text)
    (others : tail.Reads text) : (cons head tail).Reads text := by
  intro isFirst fuel input rest enough begins ends
  rw [kinds, separated] at enough begins
  split at begins
  next semicolon =>
    rw [if_pos semicolon, List.cons_append, List.length_cons] at enough
    obtain ⟨fuel, rfl⟩ := exists_spare fuel 1 (by omega)
    rw [Parser.run_block_semicolon begins.current]
    exact reads_statement formedHead formedTail first others (fuel + 1) (by omega) begins.tail ends
  next joined =>
    rw [if_neg joined] at enough
    exact reads_statement formedHead formedTail first others fuel enough begins ends

end Block

namespace Expr

theorem isMethod_of_formed {valid : Kind → Prop} {named : ι → Prop} {expression : Expr ι}
    (formed : expression.Formed valid named false) : expression.isMethod = false := by
  cases expression with
  | member site base access name =>
      cases access with
      | dot => rfl
      | colon => simpa using (formed.1 rfl).1
  | _ => rfl

theorem Readable.reads {valid : Kind → Prop} {named : ι → Prop} {expression : Expr ι}
    (readable : expression.Readable text) (formed : expression.Formed valid named false) :
    expression.ReadsExpression text :=
  readable.operand (isMethod_of_formed formed)

theorem Readable.carries {valid : Kind → Prop} {named : ι → Prop} {expression : Expr ι}
    (readable : expression.Readable text) (formed : expression.Formed valid named false)
    (suffixable : expression.isSuffixable = true) : expression.ReadsSuffixed text :=
  readable.suffixed (isMethod_of_formed formed) suffixable

/-- An operand that is no method, which can be read in all ways. -/
def IsRead (text : ι → String) (expression : Expr ι) : Prop :=
  expression.Readable text ∧ expression.isMethod = false

theorem ReadsList.of_each {expressions : List (Expr ι)} (given : expressions ≠ [])
    (each : ∀ expression ∈ expressions, expression.IsRead text) : ReadsList text expressions := by
  induction expressions with
  | nil => exact absurd rfl given
  | cons expression others ih =>
      rw [List.forall_mem_cons] at each
      exact reads_list (each.1.1.operand each.1.2) fun more => ih more each.2

end Expr

section Trees

variable {valid : Kind → Prop} {named : ι → Prop} (text)

mutual

/-- An expression whose operators group as they are written can be read back from its tokens. -/
theorem Expr.readable : ∀ (expression : Expr ι) {called : Bool}, expression.Formed valid named called →
    expression.All Expr.Grouped → expression.Readable text
  | .identifier _ occurrence, _, _, _ => .of_bare_suffixed (Expr.reads_identifier occurrence) ⟨_, _, rfl, rfl⟩
  | .literal _ _ _, _, formed, _ => .of_bare_expression (Expr.reads_literal formed.2) rfl
  | .binary _ _ left right, _, ⟨formedLeft, formedRight⟩, ⟨grouped, allLeft, allRight⟩ =>
    .of_bare_expression (Expr.reads_binary ((left.readable formedLeft allLeft).reads formedLeft)
      ((right.readable formedRight allRight).reads formedRight) grouped.1 grouped.2) rfl
  | .unary _ _ operand, _, formed, ⟨grouped, all⟩ =>
    .of_bare_expression (Expr.reads_unary ((operand.readable formed all).reads formed) grouped) rfl
  | .call _ callee arguments, _, ⟨suffixable, formed, given⟩, ⟨_, all, every⟩ =>
    .of_bare_suffixed (Expr.reads_call ((callee.readable formed all).called suffixable) fun more =>
      .of_each more (Expr.readable_each arguments given every))
      (((callee.suffixed_head text suffixable formed).append _).append _)
  | .callTable _ callee _ fields, _, ⟨suffixable, formed, given⟩, ⟨_, all, every⟩ =>
    .of_bare_suffixed (Expr.reads_callTable ((callee.readable formed all).called suffixable)
      (Field.readable_each fields given every)) ((callee.suffixed_head text suffixable formed).append _)
  | .callString _ callee _ _, _, ⟨suffixable, formed, _⟩, ⟨_, all⟩ =>
    .of_bare_suffixed (Expr.reads_callString ((callee.readable formed all).called suffixable))
      ((callee.suffixed_head text suffixable formed).append _)
  | .index _ base key, _, ⟨suffixable, formed, formedKey⟩, ⟨_, all, allKey⟩ =>
    .of_bare_suffixed (Expr.reads_index ((base.readable formed all).carries formed suffixable)
      ((key.readable formedKey allKey).reads formedKey))
      (((base.suffixed_head text suffixable formed).append _).append _)
  | .member _ base .dot _, _, ⟨_, suffixable, formed, _⟩, ⟨_, all⟩ =>
    .of_bare_suffixed (Expr.reads_field ((base.readable formed all).carries formed suffixable))
      ((base.suffixed_head text suffixable formed).append _)
  | .member site base .colon _, _, ⟨method, suffixable, formed, _⟩, ⟨_, all⟩ => by
    obtain ⟨position, marked⟩ := site
    obtain rfl : marked = false := (method rfl).2
    exact ⟨by simp [Expr.isMethod], by simp [Expr.isMethod], fun _ =>
      Expr.reads_method ((base.readable formed all).carries formed suffixable)⟩
  | .function _ _ body, _, ⟨_, formed⟩, ⟨_, all⟩ =>
    .of_bare_expression (Expr.reads_function (body.reads formed all)) rfl
  | .table _ fields, _, formed, ⟨_, every⟩ =>
    .of_bare_expression (Expr.reads_table (Field.readable_each fields formed every)) rfl

theorem Expr.readable_each : ∀ expressions : List (Expr ι), Expr.FormedAll valid named expressions →
    Expr.Every Expr.Grouped expressions → ∀ expression ∈ expressions, expression.IsRead text
  | [], _, _ => by simp
  | expression :: others, ⟨formed, formedOthers⟩, ⟨all, every⟩ => by
    rw [List.forall_mem_cons]
    exact ⟨⟨expression.readable formed all, Expr.isMethod_of_formed formed⟩,
      Expr.readable_each others formedOthers every⟩

theorem Field.readable : ∀ field : Field ι, field.Formed valid named → field.All Expr.Grouped → field.Reads text
  | .keyed key value, ⟨formedKey, formed⟩, ⟨allKey, all⟩ =>
    Field.reads_keyed ((key.readable formedKey allKey).reads formedKey)
      ((value.readable formed all).reads formed)
  | .named _ value, ⟨_, formed⟩, all =>
    Field.reads_named ((value.readable formed all).reads formed)
  | .item value, formed, all => Field.reads_item ((value.readable formed all).reads formed)

theorem Field.readable_each : ∀ fields : List (Field ι), Field.FormedAll valid named fields →
    Field.Every Expr.Grouped fields → ∀ field ∈ fields, field.Reads text
  | [], _, _ => by simp
  | field :: others, ⟨formed, formedOthers⟩, ⟨all, every⟩ => by
    rw [List.forall_mem_cons]
    exact ⟨field.readable formed all, Field.readable_each others formedOthers every⟩

theorem Stat.reads : ∀ statement : Stat ι, statement.Formed valid named → statement.All Expr.Grouped →
    statement.Reads text
  | .assign _ [] _, formed, _ => absurd rfl formed.1
  | .assign _ (target :: targets) values, ⟨_, assignable, formed, given, formedValues⟩, ⟨every, everyValue⟩ => by
    have each := Expr.readable_each (target :: targets) formed every
    have suffixed : ∀ other ∈ target :: targets, other.ReadsSuffixed text := fun other member =>
      (each other member).1.suffixed (each other member).2 (Expr.isSuffixable_of_isAssignable (assignable other member))
    rw [List.forall_mem_cons] at suffixed
    exact Stat.reads_assign suffixed.1
      (target.suffixed_head text (Expr.isSuffixable_of_isAssignable (assignable target (by simp))) formed.1)
      suffixed.2 assignable (.of_each given (Expr.readable_each values formedValues everyValue))
  | .localVars _ [] _, formed, _ => absurd rfl formed.1
  | .localVars _ (_ :: _) values, ⟨_, _, formed⟩, every =>
    Stat.reads_localVars fun given => .of_each given (Expr.readable_each values formed every)
  | .call _ applied, ⟨isCall, bare, formed⟩, all =>
    have suffixable := Expr.isSuffixable_of_isCall isCall
    Stat.reads_call ((applied.readable formed all).carries formed suffixable)
      (applied.suffixed_head text suffixable formed) isCall bare
  | .cond _ condition body rest, ⟨formed, formedBody, formedRest⟩, ⟨all, allBody, allRest⟩ =>
    Stat.reads_cond ((condition.readable formed all).reads formed)
      (body.reads formedBody allBody) (rest.reads formedRest allRest)
  | .whileLoop _ condition body, ⟨formed, formedBody⟩, ⟨all, allBody⟩ =>
    Stat.reads_whileLoop ((condition.readable formed all).reads formed)
      (body.reads formedBody allBody)
  | .doBlock _ body, formed, all => Stat.reads_doBlock (body.reads formed all)
  | .breakLoop _, _, _ => Stat.reads_breakLoop
  | .repeatLoop _ body condition, ⟨formedBody, formed⟩, ⟨allBody, all⟩ =>
    Stat.reads_repeatLoop (body.reads formedBody allBody)
      ((condition.readable formed all).reads formed)
  | .function _ _ _ body, ⟨_, _, formed⟩, all => Stat.reads_function (body.reads formed all)
  | .localFunction _ _ _ body, ⟨_, _, formed⟩, all => Stat.reads_localFunction (body.reads formed all)
  | .numericFor _ _ first limit none body, ⟨_, formedFirst, formedLimit, formed⟩, ⟨allFirst, allLimit, all⟩ =>
    Stat.reads_count ((first.readable formedFirst allFirst).reads formedFirst)
      ((limit.readable formedLimit allLimit).reads formedLimit) (body.reads formed all)
  | .numericFor _ _ first limit (some step) body, ⟨_, formedFirst, formedLimit, formedStep, formed⟩,
      ⟨allFirst, allLimit, allStep, all⟩ =>
    Stat.reads_step ((first.readable formedFirst allFirst).reads formedFirst)
      ((limit.readable formedLimit allLimit).reads formedLimit)
      ((step.readable formedStep allStep).reads formedStep) (body.reads formed all)
  | .genericFor _ [] _ _, formed, _ => absurd rfl formed.1
  | .genericFor _ (_ :: _) iterators body, ⟨_, _, given, formedIterators, formed⟩, ⟨every, all⟩ =>
    Stat.reads_genericFor (.of_each given (Expr.readable_each iterators formedIterators every)) (body.reads formed all)
  | .label .., _, _ => Stat.reads_label
  | .goto .., _, _ => Stat.reads_goto

theorem Else.reads : ∀ branches : Else ι, branches.Formed valid named → branches.All Expr.Grouped →
    branches.Reads text
  | .none, _, _ => Else.reads_none
  | .otherwise _ body, formed, all => Else.reads_otherwise (body.reads formed all)
  | .elseif _ condition body rest, ⟨formed, formedBody, formedRest⟩, ⟨all, allBody, allRest⟩ =>
    Else.reads_elseif ((condition.readable formed all).reads formed)
      (body.reads formedBody allBody) (rest.reads formedRest allRest)

/-- A block whose operators group as they are written is read back from its tokens. -/
theorem Block.reads : ∀ body : Block ι, body.Formed valid named → body.All Expr.Grouped → body.Reads text
  | .nil, _, _ => Block.reads_nil
  | .ret _ values, formed, every => Block.reads_ret fun given => .of_each given (Expr.readable_each values formed every)
  | .cons head tail, ⟨formedHead, formedTail⟩, ⟨allHead, allTail⟩ =>
    Block.reads_cons formedHead formedTail (head.reads formedHead allHead) (tail.reads formedTail allTail)

end
end Trees

theorem Block.ofTokens_of_run {lexed : Lexed} {read : Block Name} (same : body.IsReadAs text read)
    (run : (Parser.block (8 * lexed.tokens.length + 8)).run ⟨lexed.tokens, lexed.finish⟩ =
      .ok (read, ⟨[], lexed.finish⟩)) :
    ∃ read, body.IsReadAs text read ∧ Block.ofTokens lexed = .ok read := by
  refine ⟨read, same, ?_⟩
  rw [Block.ofTokens, Parser.run_chunk run rfl]
  rfl

theorem Input.begins_tokens {lexed : Lexed} {kinds : List Kind} (same : lexed.tokens.map (·.kind) = kinds) :
    Input.Begins ⟨lexed.tokens, lexed.finish⟩ kinds ⟨[], lexed.finish⟩ :=
  ⟨lexed.tokens, same, by simp⟩

theorem Block.ofTokens_kinds {valid : Kind → Prop} {named : ι → Prop}
    (formed : body.Formed valid named) (grouped : body.All Expr.Grouped) {lexed : Lexed}
    (same : lexed.tokens.map (·.kind) = body.kinds text true) :
    ∃ read, body.IsReadAs text read ∧ Block.ofTokens lexed = .ok read := by
  have count : lexed.tokens.length = (body.kinds text true).length := by rw [← same, List.length_map]
  obtain ⟨read, isRead, run⟩ := body.reads text formed grouped true (8 * lexed.tokens.length + 8) (by omega)
    (Input.begins_tokens same) rfl
  exact Block.ofTokens_of_run isRead run

/-- Behind a local function a block of its own can stand without a separator. -/
theorem Block.ofTokens_spliced {valid : Kind → Prop} {named : ι → Prop} {head : Stat ι} {position : Position}
    {name : ι} {inner body : Block ι}
    (formed : (cons head (cons (.localFunction position name parameters inner) body)).Formed valid named)
    (grouped : (cons head (cons (.localFunction position name parameters inner) body)).All Expr.Grouped)
    {lexed : Lexed}
    (same : lexed.tokens.map (·.kind) = head.kinds text ++
      ((Stat.localFunction position name parameters inner).kinds text ++ body.kinds text true)) :
    ∃ read, (cons head (cons (.localFunction position name parameters inner) body)).IsReadAs text read ∧
      Block.ofTokens lexed = .ok read := by
  obtain ⟨formedHead, formedFunction, formedBody⟩ := formed
  obtain ⟨groupedHead, groupedInner, groupedBody⟩ := grouped
  have count := congrArg List.length same
  rw [List.length_map, List.length_append, List.length_append] at count
  obtain ⟨middle, front, behind⟩ := (Input.begins_tokens same).split
  obtain ⟨last, function, rest⟩ := behind.split
  have filled : 0 < (head.kinds text).length := List.length_pos_iff.mpr (head.kinds_head text formedHead).ne_nil
  have separate : Parser.endsStatement middle.current.kind = true := by
    rw [function.current]
    rfl
  have tail := run_cons ⟨_, _, rfl, rfl⟩ function
    (Stat.run_localFunction (inner.reads text formedFunction.2.2 groupedInner) (8 * lexed.tokens.length + 6)
      (by omega) function)
    (body.reads text formedBody groupedBody true (8 * lexed.tokens.length + 6) (by omega) rest rfl)
  obtain ⟨read, isRead, run⟩ := run_cons (head.kinds_head text formedHead) front
    (head.reads text formedHead groupedHead (8 * lexed.tokens.length + 7) (by omega) front separate) tail
  exact Block.ofTokens_of_run isRead run

end LuaMinifier
