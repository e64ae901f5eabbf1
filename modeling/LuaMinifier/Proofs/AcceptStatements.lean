import LuaMinifier.Proofs.AcceptExpressions

/-!
Tokens of statements and blocks are read. A statement is read up to a token that no expression goes on with; in a
block whose statements stand apart, the next statement starts with such a token.
-/

namespace LuaMinifier

open Token

namespace Parser

section Names

variable {kinds ending : List Kind} {first : String} {texts : List String}

/-- Names with a sign in front of each. -/
def namesBehind (sign : Symbol) (texts : List String) : List Kind :=
  texts.flatMap fun text => [.symbol sign, .name text]

theorem exists_namesBehind {sign : Symbol} {parts : List (List Kind)}
    (each : ∀ part ∈ parts, ∃ text, part = [.symbol sign, .name text]) :
    ∃ texts, parts.flatten = namesBehind sign texts := by
  induction parts with
  | nil => exact ⟨[], rfl⟩
  | cons part parts ih =>
      obtain ⟨⟨text, rfl⟩, later⟩ := List.forall_mem_cons.mp each
      obtain ⟨texts, same⟩ := ih later
      exact ⟨text :: texts, by rw [List.flatten_cons, same]; rfl⟩

theorem accepts_namesBehind {reader : Nat → Parser (List Name)} {sign : Symbol}
    (stop : ∀ (fuel : Nat) {input : Input}, input.current.kind ≠ .symbol sign →
      (reader (fuel + 1)).run input = .ok ([], input))
    (step : ∀ (fuel : Nat) {input rest : Input} {text : String} {further : List Name},
      input.current.kind = .symbol sign → input.rest.current.kind = .name text →
        (reader fuel).run input.rest.rest = .ok (further, rest) →
          ∃ value, (reader (fuel + 1)).run input = .ok (value, rest)) :
    Accepts reader 1 (· ≠ .symbol sign) (namesBehind sign texts) := by
  intro fuel input rest enough begins other
  induction texts generalizing fuel input with
  | nil =>
      obtain ⟨fuel, rfl⟩ := exists_spare fuel 1 (by omega)
      obtain rfl := begins.nil
      exact ⟨[], stop fuel (by simpa using other)⟩
  | cons text texts ih =>
      rw [namesBehind, List.flatMap_cons, ← namesBehind, List.cons_append, List.cons_append, List.nil_append]
        at begins enough
      simp only [List.length_cons] at enough
      obtain ⟨fuel, rfl⟩ := exists_spare fuel 1 (by omega)
      obtain ⟨further, run⟩ := ih fuel (by omega) begins.tail.tail
      exact step fuel begins.current begins.tail.current run

theorem accepts_moreNames : Accepts moreNames 1 (· ≠ .symbol .comma) (namesBehind .comma texts) :=
  accepts_namesBehind (fun _ => run_moreNames_stop) fun _ _ _ _ _ sign named more =>
    ⟨_, run_moreNames_step sign named more⟩

theorem accepts_moreFields : Accepts moreFields 1 (· ≠ .symbol .dot) (namesBehind .dot texts) :=
  accepts_namesBehind (fun _ => run_moreFields_stop) fun _ _ _ _ _ sign named more =>
    ⟨_, run_moreFields_step sign named more⟩

theorem accepts_functionName (method : ending = [] ∨ ∃ text, ending = [.symbol .colon, .name text]) :
    Accepts functionName 1 (· = .symbol .leftParen) (.name first :: (namesBehind .dot texts ++ ending)) := by
  intro fuel input rest enough begins stop
  simp only [List.length_cons, List.length_append] at enough
  obtain ⟨middle, fields, behind⟩ := begins.tail.split
  obtain rfl | ⟨text, rfl⟩ := method
  · obtain rfl := behind.nil
    have opened : middle.current.kind = .symbol .leftParen := by simpa using stop
    obtain ⟨read, run⟩ := accepts_moreFields fuel (by omega) fields (by simp [opened])
    exact ⟨_, run_functionName_plain begins.current run (by simp [opened])⟩
  · obtain ⟨read, run⟩ := accepts_moreFields fuel (by omega) fields (by simp [behind.current])
    obtain rfl := behind.tail.tail.nil
    exact ⟨_, run_functionName_method begins.current run behind.current behind.tail.current⟩

def SomeParameters (kinds : List Kind) : Prop :=
  HeadIs (· ≠ .symbol .rightParen) kinds ∧ Accepts someParameters 1 (· = .symbol .rightParen) kinds

theorem someParameters_vararg : SomeParameters [.symbol .dotDotDot] := by
  refine ⟨⟨_, _, rfl, rfl⟩, fun fuel input rest enough begins _ => ?_⟩
  obtain ⟨fuel, rfl⟩ := exists_spare fuel 1 (by omega)
  exact ⟨_, by rw [run_someParameters_vararg begins.current, begins.tail.nil]⟩

theorem someParameters_last (text : String) : SomeParameters [.name text] := by
  refine ⟨⟨_, _, rfl, rfl⟩, fun fuel input rest enough begins stop => ?_⟩
  obtain ⟨fuel, rfl⟩ := exists_spare fuel 1 (by omega)
  obtain rfl := begins.tail.nil
  have closed : input.rest.current.kind = .symbol .rightParen := by simpa using stop
  exact ⟨_, run_someParameters_last begins.current (by simp [closed])⟩

theorem someParameters_more (text : String) (more : SomeParameters kinds) :
    SomeParameters (.name text :: .symbol .comma :: kinds) := by
  refine ⟨⟨_, _, rfl, rfl⟩, fun fuel input rest enough begins stop => ?_⟩
  simp only [List.length_cons] at enough
  obtain ⟨fuel, rfl⟩ := exists_spare fuel 1 (by omega)
  obtain ⟨further, run⟩ := more.2 fuel (by omega) begins.tail.tail stop
  exact ⟨_, run_someParameters_more begins.current begins.tail.current run⟩

theorem someParameters_names (vararg : ending = [] ∨ ending = [.symbol .comma, .symbol .dotDotDot]) :
    SomeParameters (.name first :: namesBehind .comma texts ++ ending) := by
  induction texts generalizing first with
  | nil =>
      obtain rfl | rfl := vararg
      · exact someParameters_last first
      · exact someParameters_more first someParameters_vararg
  | cons text texts ih => exact someParameters_more first ih

end Names

section Functions

variable {given body : List Kind}

def Body (kinds : List Kind) : Prop := Accepts block 4 endsBlock kinds

theorem Body.closed (inner : Body body) (fuel : Nat) {input rest : Input} (enough : 8 * body.length + 4 ≤ fuel)
    (begins : input.Begins (body ++ [.keyword .kEnd]) rest) :
    ∃ read last, (block fuel).run input = .ok (read, last) ∧ last.current.kind = .keyword .kEnd ∧ last.rest = rest := by
  obtain ⟨last, within, closed⟩ := begins.split
  obtain ⟨read, run⟩ := inner fuel enough within (by rw [closed.current]; rfl)
  exact ⟨read, last, run, closed.current, closed.tail.nil⟩

/-- Tokens of parameters and a body, with the closing keyword. -/
def FunctionBody (kinds : List Kind) : Prop :=
  HeadIs (· = .symbol .leftParen) kinds ∧ Accepts functionBody 1 (fun _ => true) kinds

theorem accepts_parameters (inner : given = [] ∨ SomeParameters given) :
    Accepts parameters 1 (fun _ => true) (.symbol .leftParen :: given ++ [.symbol .rightParen]) := by
  intro fuel input rest enough begins _
  simp only [List.length_append, List.length_cons, List.length_nil] at enough
  obtain rfl | some := inner
  · exact ⟨_, by rw [run_parameters_none begins.current begins.tail.current, begins.tail.tail.nil]⟩
  · obtain ⟨middle, within, closed⟩ := begins.tail.split
    obtain ⟨read, run⟩ := some.2 fuel (by omega) within (by simp [closed.current])
    have other : input.rest.current.kind ≠ .symbol .rightParen := by simpa using within.head some.1
    exact ⟨_, by rw [run_parameters_some begins.current other run closed.current, closed.tail.nil]⟩

theorem functionBody_block (inner : given = [] ∨ SomeParameters given) (within : Body body) :
    FunctionBody (.symbol .leftParen :: given ++ [.symbol .rightParen] ++ (body ++ [.keyword .kEnd])) := by
  refine ⟨⟨_, _, rfl, rfl⟩, fun fuel input rest enough begins _ => ?_⟩
  rw [List.length_append, @List.length_append _ body, List.length_singleton] at enough
  obtain ⟨fuel, rfl⟩ := exists_spare fuel 1 (by omega)
  obtain ⟨first, front, behind⟩ := begins.split
  obtain ⟨_, runGiven⟩ := accepts_parameters inner fuel (by omega) front rfl
  obtain ⟨_, last, runBody, closed, rfl⟩ := within.closed fuel (by omega) behind
  exact ⟨_, run_functionBody runGiven runBody closed⟩

theorem operand_function (inner : FunctionBody body) : Operand (.keyword .kFunction :: body) := by
  refine ⟨⟨_, _, rfl, rfl⟩, fun fuel input rest enough begins _ => ?_⟩
  rw [List.length_cons] at enough
  obtain ⟨fuel, rfl⟩ := exists_spare fuel 1 (by omega)
  obtain ⟨⟨_, _⟩, run⟩ := inner.2 fuel (by omega) begins.tail rfl
  exact ⟨_, run_operand_function begins.current run⟩

end Functions

section Statements

variable {kinds test body given first : List Kind} {parts : List (List Kind)} {text : String} {texts : List String}

/-- Tokens of a statement that is not empty. -/
def Statement (kinds : List Kind) : Prop :=
  HeadIs Kind.startsStatement kinds ∧ Accepts statement 3 endsStatement kinds

theorem endsList_of_endsStatement {kind : Kind} (ends : endsStatement kind = true) : endsList kind = true := by
  obtain ⟨boundary, comma, -⟩ := isBoundary_of_endsStatement ends
  simp [endsList, boundary, comma]

theorem statement_break : Statement [.keyword .kBreak] := by
  refine ⟨⟨_, _, rfl, rfl⟩, fun fuel input rest enough begins _ => ?_⟩
  obtain ⟨fuel, rfl⟩ := exists_spare fuel 1 (by omega)
  exact ⟨_, by rw [run_statement_break begins.current, begins.tail.nil]⟩

theorem statement_goto (text : String) : Statement [.keyword .kGoto, .name text] := by
  refine ⟨⟨_, _, rfl, rfl⟩, fun fuel input rest enough begins _ => ?_⟩
  obtain ⟨fuel, rfl⟩ := exists_spare fuel 1 (by omega)
  exact ⟨_, by rw [run_statement_goto begins.current begins.tail.current, begins.tail.tail.nil]⟩

theorem statement_label (text : String) : Statement [.symbol .colonColon, .name text, .symbol .colonColon] := by
  refine ⟨⟨_, _, rfl, rfl⟩, fun fuel input rest enough begins _ => ?_⟩
  obtain ⟨fuel, rfl⟩ := exists_spare fuel 1 (by omega)
  have closed := begins.tail.tail
  exact ⟨_, by rw [run_statement_label begins.current begins.tail.current closed.current, closed.tail.nil]⟩

theorem statement_do (inner : Body body) : Statement (.keyword .kDo :: body ++ [.keyword .kEnd]) := by
  refine ⟨⟨_, _, rfl, rfl⟩, fun fuel input rest enough begins _ => ?_⟩
  simp only [List.length_append, List.length_cons, List.length_nil] at enough
  obtain ⟨fuel, rfl⟩ := exists_spare fuel 1 (by omega)
  obtain ⟨_, last, run, closed, rfl⟩ := inner.closed fuel (by omega) begins.tail
  exact ⟨_, run_statement_do begins.current run closed⟩

theorem statement_while (tested : Chain test) (inner : Body body) :
    Statement (.keyword .kWhile :: test ++ .keyword .kDo :: body ++ [.keyword .kEnd]) := by
  refine ⟨⟨_, _, rfl, rfl⟩, fun fuel input rest enough begins _ => ?_⟩
  simp only [List.length_append, List.length_cons, List.length_nil] at enough
  obtain ⟨fuel, rfl⟩ := exists_spare fuel 1 (by omega)
  rw [List.append_assoc] at begins
  obtain ⟨middle, front, opened⟩ := begins.tail.split
  obtain ⟨_, runTest⟩ := tested.accepts fuel (by omega) front (by rw [opened.current]; rfl)
  obtain ⟨_, last, run, closed, rfl⟩ := inner.closed fuel (by omega) opened.tail
  exact ⟨_, run_statement_while begins.current runTest opened.current run closed⟩

theorem statement_repeat (inner : Body body) (tested : Chain test) :
    Statement (.keyword .kRepeat :: body ++ .keyword .kUntil :: test) := by
  refine ⟨⟨_, _, rfl, rfl⟩, fun fuel input rest enough begins ends => ?_⟩
  simp only [List.length_append, List.length_cons] at enough
  obtain ⟨fuel, rfl⟩ := exists_spare fuel 1 (by omega)
  obtain ⟨middle, within, closed⟩ := begins.tail.split
  obtain ⟨_, run⟩ := inner fuel (by omega) within (by rw [closed.current]; rfl)
  obtain ⟨_, runTest⟩ := tested.accepts fuel (by omega) closed.tail (isBoundary_of_endsStatement ends).1
  exact ⟨_, run_statement_repeat begins.current run closed.current runTest⟩

/-- Tokens of the branches behind the first, with the closing keyword. -/
def Branches (kinds : List Kind) : Prop := HeadIs endsBlock kinds ∧ Accepts branches 1 (fun _ => true) kinds

theorem branches_end : Branches [.keyword .kEnd] := by
  refine ⟨⟨_, _, rfl, rfl⟩, fun fuel input rest enough begins _ => ?_⟩
  obtain ⟨fuel, rfl⟩ := exists_spare fuel 1 (by omega)
  exact ⟨_, by rw [run_branches_end begins.current, begins.tail.nil]⟩

theorem branches_else (inner : Body body) : Branches (.keyword .kElse :: body ++ [.keyword .kEnd]) := by
  refine ⟨⟨_, _, rfl, rfl⟩, fun fuel input rest enough begins _ => ?_⟩
  simp only [List.length_append, List.length_cons, List.length_nil] at enough
  obtain ⟨fuel, rfl⟩ := exists_spare fuel 1 (by omega)
  obtain ⟨_, last, run, closed, rfl⟩ := inner.closed fuel (by omega) begins.tail
  exact ⟨_, run_branches_else begins.current run closed⟩

theorem run_branch (tested : Chain test) (inner : Body body) (more : Branches kinds) (fuel : Nat) {input rest : Input}
    (enough : 8 * (test.length + body.length + kinds.length) + 4 ≤ fuel)
    (begins : input.Begins (test ++ .keyword .kThen :: (body ++ kinds)) rest) :
    ∃ condition first, (Parser.expression fuel 0).run input = .ok (condition, first) ∧
      first.current.kind = .keyword .kThen ∧
      ∃ read second, (block fuel).run first.rest = .ok (read, second) ∧
        ∃ otherwise, (branches fuel).run second = .ok (otherwise, rest) := by
  obtain ⟨first, front, opened⟩ := begins.split
  obtain ⟨second, within, behind⟩ := opened.tail.split
  obtain ⟨condition, runTest⟩ := tested.accepts fuel (by omega) front (by rw [opened.current]; rfl)
  obtain ⟨read, run⟩ := inner fuel (by omega) within (behind.head more.1)
  exact ⟨condition, first, runTest, opened.current, read, second, run, more.2 fuel (by omega) behind rfl⟩

theorem branches_elseif (tested : Chain test) (inner : Body body) (more : Branches kinds) :
    Branches (.keyword .kElseif :: test ++ .keyword .kThen :: body ++ kinds) := by
  refine ⟨⟨_, _, rfl, rfl⟩, fun fuel input rest enough begins _ => ?_⟩
  simp only [List.length_append, List.length_cons] at enough
  obtain ⟨fuel, rfl⟩ := exists_spare fuel 1 (by omega)
  rw [List.append_assoc] at begins
  obtain ⟨_, _, runTest, opened, _, _, run, _, runMore⟩ := run_branch tested inner more fuel (by omega) begins.tail
  exact ⟨_, run_branches_elseif begins.current runTest opened run runMore⟩

theorem branches_of_parts (last : Branches kinds)
    (each : ∀ part ∈ parts, ∃ test body, Chain test ∧ Body body ∧
      part = .keyword .kElseif :: test ++ .keyword .kThen :: body) : Branches (parts.flatten ++ kinds) := by
  induction parts with
  | nil => exact last
  | cons part parts ih =>
      obtain ⟨⟨test, body, tested, inner, rfl⟩, later⟩ := List.forall_mem_cons.mp each
      simpa using branches_elseif tested inner (ih later)

theorem statement_if (tested : Chain test) (inner : Body body) (more : Branches kinds) :
    Statement (.keyword .kIf :: test ++ .keyword .kThen :: body ++ kinds) := by
  refine ⟨⟨_, _, rfl, rfl⟩, fun fuel input rest enough begins _ => ?_⟩
  simp only [List.length_append, List.length_cons] at enough
  obtain ⟨fuel, rfl⟩ := exists_spare fuel 1 (by omega)
  rw [List.append_assoc] at begins
  obtain ⟨_, _, runTest, opened, _, _, run, _, runMore⟩ := run_branch tested inner more fuel (by omega) begins.tail
  exact ⟨_, run_statement_cond begins.current runTest opened run runMore⟩

theorem statement_function {called : List Kind} (named : Accepts functionName 1 (· = .symbol .leftParen) called)
    (inner : FunctionBody body) : Statement (.keyword .kFunction :: called ++ body) := by
  refine ⟨⟨_, _, rfl, rfl⟩, fun fuel input rest enough begins _ => ?_⟩
  simp only [List.length_append, List.length_cons] at enough
  obtain ⟨fuel, rfl⟩ := exists_spare fuel 1 (by omega)
  obtain ⟨first, front, behind⟩ := begins.tail.split
  obtain ⟨_, runName⟩ := named fuel (by omega) front (behind.head inner.1)
  obtain ⟨⟨_, _⟩, run⟩ := inner.2 fuel (by omega) behind rfl
  exact ⟨_, run_statement_function begins.current runName run⟩

theorem statement_localFunction (text : String) (inner : FunctionBody body) :
    Statement (.keyword .kLocal :: .keyword .kFunction :: .name text :: body) := by
  refine ⟨⟨_, _, rfl, rfl⟩, fun fuel input rest enough begins _ => ?_⟩
  simp only [List.length_cons] at enough
  obtain ⟨fuel, rfl⟩ := exists_spare fuel 1 (by omega)
  obtain ⟨⟨_, _⟩, run⟩ := inner.2 fuel (by omega) begins.tail.tail.tail rfl
  exact ⟨_, run_statement_localFunction begins.current begins.tail.current begins.tail.tail.current run⟩

theorem statement_localNames : Statement (.keyword .kLocal :: .name text :: namesBehind .comma texts) := by
  refine ⟨⟨_, _, rfl, rfl⟩, fun fuel input rest enough begins ends => ?_⟩
  simp only [List.length_cons] at enough
  obtain ⟨fuel, rfl⟩ := exists_spare fuel 1 (by omega)
  obtain ⟨-, comma, assign⟩ := isBoundary_of_endsStatement ends
  obtain ⟨_, run⟩ := accepts_moreNames fuel (by omega) begins.tail.tail (by simpa using comma)
  exact ⟨_, run_statement_localNames begins.current begins.tail.current run assign⟩

theorem statement_localValues (values : Expressions given) :
    Statement (.keyword .kLocal :: .name text :: namesBehind .comma texts ++ .symbol .assign :: given) := by
  refine ⟨⟨_, _, rfl, rfl⟩, fun fuel input rest enough begins ends => ?_⟩
  simp only [List.length_append, List.length_cons] at enough
  obtain ⟨fuel, rfl⟩ := exists_spare fuel 1 (by omega)
  obtain ⟨middle, names, assigned⟩ := begins.tail.tail.split
  obtain ⟨_, run⟩ := accepts_moreNames fuel (by omega) names (by simp [assigned.current])
  obtain ⟨_, runValues⟩ := values.2 fuel (by omega) assigned.tail (endsList_of_endsStatement ends)
  exact ⟨_, run_statement_localValues begins.current begins.tail.current run assigned.current runValues⟩

theorem statement_loop (inner : ∀ position, Accepts (loop · position) 2 (fun _ => true) kinds) :
    Statement (.keyword .kFor :: kinds) := by
  refine ⟨⟨_, _, rfl, rfl⟩, fun fuel input rest enough begins _ => ?_⟩
  rw [List.length_cons] at enough
  obtain ⟨fuel, rfl⟩ := exists_spare fuel 1 (by omega)
  obtain ⟨_, run⟩ := inner input.current.position fuel (by omega) begins.tail rfl
  exact ⟨_, by rw [run_statement_loop begins.current, run]⟩

theorem accepts_loop_count {start limit : List Kind} (readStart : Chain start) (readLimit : Chain limit)
    (inner : Body body) (position : Position) : Accepts (loop · position) 2 (fun _ => true)
      (.name text :: .symbol .assign :: start ++ .symbol .comma :: limit ++ .keyword .kDo :: body ++
        [.keyword .kEnd]) := by
  intro fuel input rest enough begins _
  simp only [List.append_assoc, List.cons_append, List.length_append, List.length_cons, List.length_nil]
    at enough begins
  obtain ⟨fuel, rfl⟩ := exists_spare fuel 1 (by omega)
  obtain ⟨first, front, comma⟩ := begins.tail.tail.split
  obtain ⟨second, next, opened⟩ := comma.tail.split
  obtain ⟨_, runStart⟩ := readStart.accepts fuel (by omega) front (by rw [comma.current]; rfl)
  obtain ⟨_, runLimit⟩ := readLimit.accepts fuel (by omega) next (by rw [opened.current]; rfl)
  obtain ⟨_, last, run, closed, rfl⟩ := inner.closed fuel (by omega) opened.tail
  exact ⟨_, run_loop_count begins.current begins.tail.current runStart comma.current runLimit opened.current run
    closed⟩

theorem accepts_loop_step {start limit step : List Kind} (readStart : Chain start) (readLimit : Chain limit)
    (readStep : Chain step) (inner : Body body) (position : Position) : Accepts (loop · position) 2 (fun _ => true)
      (.name text :: .symbol .assign :: start ++ .symbol .comma :: limit ++ .symbol .comma :: step ++
        .keyword .kDo :: body ++ [.keyword .kEnd]) := by
  intro fuel input rest enough begins _
  simp only [List.append_assoc, List.cons_append, List.length_append, List.length_cons, List.length_nil]
    at enough begins
  obtain ⟨fuel, rfl⟩ := exists_spare fuel 1 (by omega)
  obtain ⟨first, front, comma⟩ := begins.tail.tail.split
  obtain ⟨second, next, again⟩ := comma.tail.split
  obtain ⟨third, late, opened⟩ := again.tail.split
  obtain ⟨_, runStart⟩ := readStart.accepts fuel (by omega) front (by rw [comma.current]; rfl)
  obtain ⟨_, runLimit⟩ := readLimit.accepts fuel (by omega) next (by rw [again.current]; rfl)
  obtain ⟨_, runStep⟩ := readStep.accepts fuel (by omega) late (by rw [opened.current]; rfl)
  obtain ⟨_, last, run, closed, rfl⟩ := inner.closed fuel (by omega) opened.tail
  exact ⟨_, run_loop_step begins.current begins.tail.current runStart comma.current runLimit again.current runStep
    opened.current run closed⟩

theorem accepts_loop_iterate (iterators : Expressions given) (inner : Body body) (position : Position) :
    Accepts (loop · position) 2 (fun _ => true)
      (.name text :: namesBehind .comma texts ++ .keyword .kIn :: given ++ .keyword .kDo :: body ++
        [.keyword .kEnd]) := by
  intro fuel input rest enough begins _
  simp only [List.append_assoc, List.cons_append, List.length_append, List.length_cons, List.length_nil]
    at enough begins
  obtain ⟨fuel, rfl⟩ := exists_spare fuel 1 (by omega)
  obtain ⟨first, names, within⟩ := begins.tail.split
  obtain ⟨second, next, opened⟩ := within.tail.split
  have stop : input.rest.current.kind ≠ .symbol .assign := by
    cases texts with
    | nil => simp [names.nil, within.current]
    | cons other texts => simp [names.current]
  obtain ⟨_, runNames⟩ := accepts_moreNames fuel (by omega) names (by simp [within.current])
  obtain ⟨_, runGiven⟩ := iterators.2 fuel (by omega) next (by rw [opened.current]; rfl)
  obtain ⟨_, last, run, closed, rfl⟩ := inner.closed fuel (by omega) opened.tail
  exact ⟨_, run_loop_iterate begins.current runNames stop within.current runGiven opened.current run closed⟩

theorem statement_call (call : Leads isDirectCall kinds) : Statement kinds := by
  refine ⟨call.1.imp Kind.startsStatement_of_startsSuffixed, fun fuel input rest enough begins ends => ?_⟩
  obtain ⟨fuel, rfl⟩ := exists_spare fuel 2 (by omega)
  obtain ⟨boundary, comma, assign⟩ := isBoundary_of_endsStatement ends
  obtain ⟨value, direct, run⟩ := call.bounded fuel (by omega) begins (Chain.boundary_iff boundary).1
  simp only [isDirectCall, Bool.and_eq_true, Bool.not_eq_true'] at direct
  exact ⟨_, by rw [run_statement_suffixed (begins.head call.1), run_call run assign comma direct.1 direct.2]⟩

def Targets (kinds : List Kind) : Prop :=
  ∃ first parts, kinds = first ++ List.flatten parts ∧ Leads Expr.isAssignable first ∧
    ∀ part ∈ parts, ∃ target, part = .symbol .comma :: target ∧ Leads Expr.isAssignable target

theorem run_moreTargets (each : ∀ part ∈ parts, ∃ target, part = .symbol .comma :: target ∧
      Leads Expr.isAssignable target) (fuel : Nat) {input rest : Input} (enough : 8 * parts.flatten.length + 1 ≤ fuel)
    (begins : input.Begins parts.flatten rest) (assigned : rest.current.kind = .symbol .assign) :
    ∃ targets, (moreTargets fuel).run input = .ok (targets, rest) ∧ ∀ target ∈ targets, target.isAssignable = true := by
  induction parts generalizing fuel input with
  | nil =>
      obtain ⟨fuel, rfl⟩ := exists_spare fuel 1 (by omega)
      obtain rfl := begins.nil
      exact ⟨[], run_moreTargets_stop (by simp [assigned]), by simp⟩
  | cons part parts ih =>
      obtain ⟨⟨target, rfl, leads⟩, later⟩ := List.forall_mem_cons.mp each
      simp only [List.flatten_cons, List.cons_append, List.length_cons, List.length_append] at enough begins
      obtain ⟨fuel, rfl⟩ := exists_spare fuel 1 (by omega)
      obtain ⟨middle, front, behind⟩ := begins.tail.split
      have stop : startsSuffix middle.current.kind = false := by
        cases parts with
        | nil => rw [behind.nil, assigned]; rfl
        | cons part parts =>
            obtain ⟨⟨_, rfl, -⟩, -⟩ := List.forall_mem_cons.mp later
            rw [behind.current]
            rfl
      obtain ⟨value, assignable, run⟩ := leads.bounded fuel (by omega) front stop
      obtain ⟨targets, runMore, all⟩ := ih later fuel (by omega) behind
      refine ⟨value :: targets, run_moreTargets_step begins.current run runMore, ?_⟩
      simpa [assignable] using all

theorem statement_assign (targets : Targets kinds) (values : Expressions given) :
    Statement (kinds ++ .symbol .assign :: given) := by
  obtain ⟨first, parts, rfl, leads, each⟩ := targets
  refine ⟨?_, fun fuel input rest enough begins ends => ?_⟩
  · exact ((leads.1.append _).append _).imp Kind.startsStatement_of_startsSuffixed
  simp only [List.append_assoc, List.length_append, List.length_cons] at enough begins
  obtain ⟨fuel, rfl⟩ := exists_spare fuel 2 (by omega)
  obtain ⟨next, front, behind⟩ := begins.split
  obtain ⟨last, others, assigned⟩ := behind.split
  have found : next.current.kind = .symbol .assign ∨ next.current.kind = .symbol .comma := by
    cases parts with
    | nil => exact .inl (by rw [others.nil, assigned.current])
    | cons part parts =>
        obtain ⟨⟨_, rfl, -⟩, -⟩ := List.forall_mem_cons.mp each
        exact .inr others.current
  have stop : startsSuffix next.current.kind = false := by rcases found with found | found <;> rw [found] <;> rfl
  obtain ⟨value, assignable, run⟩ := leads.bounded fuel (by omega) front stop
  obtain ⟨targets, runMore, all⟩ := run_moreTargets each fuel (by omega) others assigned.current
  obtain ⟨_, runValues⟩ := values.2 fuel (by omega) assigned.tail (endsList_of_endsStatement ends)
  rw [run_statement_suffixed (front.head leads.1)]
  exact ⟨_, run_assignment run found runMore assigned.current runValues (by simpa [assignable] using all)⟩

end Statements

section Blocks

variable {kinds given ending part : List Kind} {parts : List (List Kind)}

/-- Tokens of a return, which is read as the end of a block. -/
def Return (kinds : List Kind) : Prop := HeadIs (· = .keyword .kReturn) kinds ∧ Body kinds

theorem return_none (last : ending = [] ∨ ending = [.symbol .semicolon]) : Return (.keyword .kReturn :: ending) := by
  refine ⟨⟨_, _, rfl, rfl⟩, fun fuel input rest enough begins ends => ?_⟩
  obtain ⟨fuel, rfl⟩ := exists_spare fuel 1 (by omega)
  obtain rfl | rfl := last
  · obtain rfl := begins.tail.nil
    exact ⟨_, run_block_return_none begins.current ends⟩
  · obtain rfl := begins.tail.tail.nil
    exact ⟨_, run_block_return_none_semicolon begins.current begins.tail.current ends⟩

theorem return_values (values : Expressions given) (last : ending = [] ∨ ending = [.symbol .semicolon]) :
    Return (.keyword .kReturn :: given ++ ending) := by
  refine ⟨⟨_, _, rfl, rfl⟩, fun fuel input rest enough begins ends => ?_⟩
  simp only [List.length_append, List.length_cons] at enough
  obtain ⟨fuel, rfl⟩ := exists_spare fuel 1 (by omega)
  obtain ⟨middle, front, behind⟩ := begins.tail.split
  obtain ⟨goesOn, other⟩ := goesOn_of_opens (front.head values.1)
  obtain rfl | rfl := last
  · obtain rfl := behind.nil
    have separate : endsStatement middle.current.kind = true := by simp [endsStatement, ends]
    obtain ⟨_, run⟩ := values.2 fuel (by omega) front (endsList_of_endsStatement separate)
    exact ⟨_, run_block_return begins.current goesOn other run ends⟩
  · obtain rfl := behind.tail.nil
    obtain ⟨_, run⟩ := values.2 fuel (by omega) front (by rw [behind.current]; rfl)
    exact ⟨_, run_block_return_semicolon begins.current goesOn other run behind.current ends⟩

/-- One statement of a block. -/
def Line (kinds : List Kind) : Prop := kinds = [.symbol .semicolon] ∨ Statement kinds

theorem body_end : Body [] := by
  intro fuel input rest enough begins ends
  obtain ⟨fuel, rfl⟩ := exists_spare fuel 1 (by omega)
  obtain rfl := begins.nil
  exact ⟨_, run_block_end ends⟩

theorem body_semicolon (more : Body kinds) : Body (.symbol .semicolon :: kinds) := by
  intro fuel input rest enough begins ends
  rw [List.length_cons] at enough
  obtain ⟨fuel, rfl⟩ := exists_spare fuel 1 (by omega)
  obtain ⟨read, run⟩ := more (fuel + 1) (by omega) begins.tail ends
  exact ⟨read, by rw [run_block_semicolon begins.current, run]⟩

theorem body_statement (first : Statement part) (more : Body kinds)
    (apart : kinds = [] ∨ HeadIs endsStatement kinds) : Body (part ++ kinds) := by
  intro fuel input rest enough begins ends
  have positive := List.length_pos_iff.mpr first.1.ne_nil
  rw [List.length_append] at enough
  obtain ⟨fuel, rfl⟩ := exists_spare fuel 1 (by omega)
  obtain ⟨middle, front, behind⟩ := begins.split
  have stop : endsStatement middle.current.kind = true := by
    obtain rfl | head := apart
    · simp [behind.nil, endsStatement, ends]
    · exact behind.head head
  obtain ⟨other, going, goesOn⟩ := goesOn_of_startsStatement (front.head first.1)
  obtain ⟨_, run⟩ := first.2 fuel (by omega) front stop
  obtain ⟨_, runMore⟩ := more fuel (by omega) behind ends
  exact ⟨_, run_block_statement other going goesOn run runMore⟩

theorem endsStatement_of_apart (first : Statement part) (each : ∀ part ∈ parts, Line part)
    (apart : Apart (part :: parts)) (last : ending = [] ∨ Return ending) :
    parts.flatten ++ ending = [] ∨ HeadIs endsStatement (parts.flatten ++ ending) := by
  cases parts with
  | nil =>
      obtain rfl | returns := last
      · exact .inl rfl
      · exact .inr (returns.1.imp fun kind found => by simp at found; subst found; rfl)
  | cons next parts =>
      right
      rw [List.flatten_cons, List.append_assoc]
      refine HeadIs.append ?_ _
      obtain rfl | starts := each next (List.mem_cons_self ..)
      · exact ⟨_, _, rfl, rfl⟩
      · obtain ⟨kind, others, rfl, start⟩ := starts.1
        refine ⟨kind, others, rfl, ?_⟩
        have other : kind ≠ .symbol .leftParen := by
          rintro rfl
          obtain rfl := (List.isChain_cons_cons.mp apart).1 rfl
          obtain ⟨_, _, same, empty⟩ := first.1
          obtain rfl := (List.cons.inj same).1
          cases empty
        simp [endsStatement, Kind.startsLine, start, other]

theorem body_of_parts (each : ∀ part ∈ parts, Line part) (apart : Apart parts) (last : ending = [] ∨ Return ending) :
    Body (parts.flatten ++ ending) := by
  induction parts with
  | nil =>
      obtain rfl | returns := last
      · exact body_end
      · exact returns.2
  | cons part parts ih =>
      obtain ⟨line, later⟩ := List.forall_mem_cons.mp each
      have more := ih later apart.tail
      rw [List.flatten_cons, List.append_assoc]
      obtain rfl | first := line
      · exact body_semicolon more
      · exact body_statement first more (endsStatement_of_apart first later apart last)

end Blocks

end Parser
end LuaMinifier
