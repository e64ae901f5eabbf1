import LuaMinifier.Proofs.Productions
import LuaMinifier.Proofs.ReadStatements

/-!
What the grammar derives is read. For each nonterminal it is said what its reader does on tokens that come from it,
and every production keeps that. Operators are read as one flat chain, so that it does not matter how a derivation has
grouped them; a parenthesis behind an expression is read as a part of it, so that statements have to stand apart.
-/

namespace LuaMinifier

open Token

namespace Parser

variable {α : Type}

/-- With fuel for them, tokens of these kinds are read if the reader stops at the token behind them. -/
def Accepts (reader : Nat → Parser α) (spare : Nat) (stops : Kind → Bool) (kinds : List Kind) : Prop :=
  ∀ (fuel : Nat) {input rest : Input}, 8 * kinds.length + spare ≤ fuel → input.Begins kinds rest →
    stops rest.current.kind = true → ∃ value, (reader fuel).run input = .ok (value, rest)

def startsOperand (kind : Kind) : Bool := kind.opens && (UnaryOp.ofToken? kind).isNone

def Operand (kinds : List Kind) : Prop :=
  HeadIs startsOperand kinds ∧ Accepts operand 2 (!startsSuffix ·) kinds

/-- Tokens that are read up to the suffixes behind them, as a base of some shape. -/
def Leads (shape : Expr Name → Bool) (kinds : List Kind) : Prop :=
  HeadIs Kind.startsSuffixed kinds ∧ ∀ (fuel : Nat) {input rest : Input}, 8 * kinds.length + 1 ≤ fuel →
    input.Begins kinds rest → ∃ left base, fuel + 7 ≤ left + 8 * kinds.length ∧ shape base = true ∧
      (suffixed fuel).run input = (suffixes left base).run rest

/-- Operands with binary operators between them and unary ones in front of them. -/
inductive Chain : List Kind → Prop
  | operand {kinds : List Kind} : Operand kinds → Chain kinds
  | unary (operator : UnaryOp) {kinds : List Kind} : Chain kinds → Chain (operator.token :: kinds)
  | binary (operator : BinaryOp) {kinds more : List Kind} :
      Operand kinds → Chain more → Chain (kinds ++ operator.token :: more)

namespace Chain

variable {kinds more : List Kind}

theorem append (operator : BinaryOp) (first : Chain kinds) (second : Chain more) :
    Chain (kinds ++ operator.token :: more) := by
  induction first with
  | operand single => exact .binary operator single second
  | unary sign _ ih => exact .unary sign ih
  | binary sign single _ ih =>
      rw [List.append_assoc, List.cons_append]
      exact .binary sign single ih

theorem head (chain : Chain kinds) : HeadIs Kind.opens kinds := by
  have opens (kind : Kind) (start : startsOperand kind = true) : kind.opens = true :=
    ((Bool.and_eq_true ..).mp start).1
  cases chain with
  | operand single => exact single.1.imp opens
  | unary operator => exact ⟨_, _, rfl, by cases operator <;> rfl⟩
  | binary operator single => exact (single.1.imp opens).append _

/-- What is left of a chain behind an operand: nothing, or an operator of some sort and a chain. -/
def Tail (holds : BinaryOp → Prop) (kinds : List Kind) : Prop :=
  kinds = [] ∨ ∃ operator more, kinds = BinaryOp.token operator :: more ∧ holds operator ∧ Chain more

/-- A reader stops inside of a chain only where an operator does not hold against the limit. -/
def StopsIn (limit size : Nat) (result : Except SyntaxError (Expr Name × Input)) (rest : Input) : Prop :=
  ∃ value middle left, result = .ok (value, middle) ∧ middle.Begins left rest ∧ left.length < size ∧
    Tail (·.leftPower ≤ limit) left

/-- Chains that are shorter than a bound are read as far as their operators hold. -/
structure Climbs (bound : Nat) : Prop where
  expression : ∀ {kinds : List Kind}, kinds.length < bound → Chain kinds → ∀ (fuel limit : Nat) {input rest : Input},
    8 * kinds.length + 3 ≤ fuel → input.Begins kinds rest → isBoundary rest.current.kind = true →
      StopsIn limit kinds.length ((Parser.expression fuel limit).run input) rest
  operations : ∀ {kinds : List Kind}, kinds.length < bound → Tail (fun _ => True) kinds →
    ∀ (fuel limit : Nat) (position : Position) (left : Expr Name) {input rest : Input},
      8 * kinds.length + 1 ≤ fuel → input.Begins kinds rest → isBoundary rest.current.kind = true →
        StopsIn limit (kinds.length + 1) ((Parser.operations fuel limit position left).run input) rest

theorem ofToken?_token (operator : BinaryOp) : BinaryOp.ofToken? operator.token = some operator := by
  cases operator <;> rfl

theorem unary_ofToken?_token (operator : UnaryOp) : UnaryOp.ofToken? operator.token = some operator := by
  cases operator <;> rfl

theorem startsSuffix_token (operator : BinaryOp) : startsSuffix operator.token = false := by
  cases operator <;> rfl

theorem boundary_iff {kind : Kind} (boundary : isBoundary kind = true) :
    startsSuffix kind = false ∧ BinaryOp.ofToken? kind = none := by
  simpa [isBoundary] using boundary

theorem Tail.weaken {holds weaker : BinaryOp → Prop} (tail : Tail holds kinds)
    (weaken : ∀ operator, holds operator → weaker operator) : Tail weaker kinds := by
  obtain rfl | ⟨operator, more, rfl, held, chain⟩ := tail
  · exact .inl rfl
  · exact .inr ⟨operator, more, rfl, weaken operator held, chain⟩

theorem Climbs.operations_step {bound : Nat} (climbs : Climbs bound) {kinds : List Kind}
    (short : kinds.length < bound + 1)
    (tail : Tail (fun _ => True) kinds) (fuel limit : Nat) (position : Position) (left : Expr Name)
    {input rest : Input} (enough : 8 * kinds.length + 1 ≤ fuel) (begins : input.Begins kinds rest)
    (boundary : isBoundary rest.current.kind = true) :
    StopsIn limit (kinds.length + 1) ((Parser.operations fuel limit position left).run input) rest := by
  obtain ⟨fuel, rfl⟩ := exists_spare fuel 1 (by omega)
  obtain rfl | ⟨operator, more, rfl, -, chain⟩ := tail
  · obtain rfl := begins.nil
    have none := (boundary_iff boundary).2
    exact ⟨left, input, [], run_operations_stop (by simp [none]), begins, by simp, .inl rfl⟩
  · have found : BinaryOp.ofToken? input.current.kind = some operator := by
      rw [begins.current, ofToken?_token]
    rw [List.length_cons] at short enough
    by_cases weak : operator.leftPower ≤ limit
    · refine ⟨left, input, operator.token :: more, run_operations_stop ?_, begins, by simp, ?_⟩
      · simpa [found] using weak
      · exact .inr ⟨operator, more, rfl, weak, chain⟩
    · obtain ⟨right, middle, others, ran, behind, fewer, rest'⟩ := climbs.expression (by omega) chain fuel
        operator.rightPower (by omega) begins.tail boundary
      obtain ⟨value, last, final, finished, ending, least, stopped⟩ := climbs.operations (by omega)
        (rest'.weaken fun _ _ => trivial) fuel limit position (.binary (.plain position) operator left right) (by omega)
        behind boundary
      refine ⟨value, last, final, ?_, ending, by rw [List.length_cons]; omega, stopped⟩
      rw [run_operations_step found (Nat.lt_of_not_le weak), ran]
      exact finished

theorem Climbs.expression_step {bound : Nat} (climbs : Climbs bound) {kinds : List Kind}
    (short : kinds.length < bound + 1)
    (chain : Chain kinds) (fuel limit : Nat) {input rest : Input} (enough : 8 * kinds.length + 3 ≤ fuel)
    (begins : input.Begins kinds rest) (boundary : isBoundary rest.current.kind = true) :
    StopsIn limit kinds.length ((Parser.expression fuel limit).run input) rest := by
  obtain ⟨fuel, rfl⟩ := exists_spare fuel 1 (by omega)
  have operands {kinds more : List Kind} (single : Operand kinds) (size : 8 * (kinds.length + more.length) + 2 ≤ fuel)
      (few : more.length < bound) (tail : Tail (fun _ => True) more) (begins : input.Begins (kinds ++ more) rest) :
      StopsIn limit (kinds.length + more.length) ((Parser.expression (fuel + 1) limit).run input) rest := by
    obtain ⟨middle, front, behind⟩ := begins.split
    have start := front.head single.1
    simp only [startsOperand, Bool.and_eq_true, Option.isNone_iff_eq_none] at start
    have stops : startsSuffix middle.current.kind = false := by
      obtain rfl | ⟨operator, others, rfl, -⟩ := tail
      · rw [behind.nil]
        exact (boundary_iff boundary).1
      · rw [behind.current, startsSuffix_token]
    obtain ⟨left, ran⟩ := single.2 fuel (by omega) front (by simpa using stops)
    obtain ⟨value, last, final, finished, ending, least, stopped⟩ := climbs.operations few tail fuel limit
      input.current.position left (by omega) behind boundary
    have positive : 0 < kinds.length := List.length_pos_iff.mpr single.1.ne_nil
    refine ⟨value, last, final, ?_, ending, by omega, stopped⟩
    rw [run_expression_operand start.2, ran]
    exact finished
  cases chain with
  | operand single =>
      have positive := List.length_pos_iff.mpr single.1.ne_nil
      have none : ([] : List Kind).length < bound := by rw [List.length_nil]; omega
      simpa using operands single (by simpa using enough) none (.inl rfl) (by simpa using begins)
  | @unary operator kinds inner =>
      have found : UnaryOp.ofToken? input.current.kind = some operator := by
        rw [begins.current, unary_ofToken?_token]
      rw [List.length_cons] at short enough
      obtain ⟨value, middle, others, ran, behind, fewer, rest'⟩ := climbs.expression (by omega) inner fuel UnaryOp.power
        (by omega) begins.tail boundary
      obtain ⟨value', last, final, finished, ending, least, stopped⟩ := climbs.operations (by omega)
        (rest'.weaken fun _ _ => trivial) fuel limit input.current.position
        (.unary (.plain input.current.position) operator value) (by omega) behind boundary
      refine ⟨value', last, final, ?_, ending, by rw [List.length_cons]; omega, stopped⟩
      rw [run_expression_unary found, ran]
      exact finished
  | binary operator single inner =>
      have positive := List.length_pos_iff.mpr single.1.ne_nil
      rw [List.length_append] at short enough ⊢
      refine operands single (by omega) (by omega) (.inr ⟨operator, _, rfl, trivial, inner⟩) begins

theorem climbs : ∀ bound, Climbs bound
  | 0 => ⟨fun short => absurd short (Nat.not_lt_zero _), fun short => absurd short (Nat.not_lt_zero _)⟩
  | bound + 1 => ⟨(climbs bound).expression_step, (climbs bound).operations_step⟩

theorem accepts (chain : Chain kinds) : Accepts (Parser.expression · 0) 3 isBoundary kinds := by
  intro fuel input rest enough begins boundary
  obtain ⟨value, middle, left, ran, behind, -, stopped⟩ := (climbs (kinds.length + 1)).expression (by omega) chain
    fuel 0 enough begins boundary
  obtain rfl | ⟨operator, more, rfl, weak, -⟩ := stopped
  · exact ⟨value, by rw [ran, behind.nil]⟩
  · exact absurd weak (by cases operator <;> decide)

end Chain

section Suffixes

variable {shape : Expr Name → Bool} {kinds front back : List Kind}

theorem Leads.bounded (leads : Leads shape kinds) (fuel : Nat) {input rest : Input}
    (enough : 8 * kinds.length + 1 ≤ fuel) (begins : input.Begins kinds rest)
    (stop : startsSuffix rest.current.kind = false) :
    ∃ base, shape base = true ∧ (suffixed fuel).run input = .ok (base, rest) := by
  obtain ⟨left, base, spent, holds, run⟩ := leads.2 fuel enough begins
  obtain ⟨left, rfl⟩ := exists_spare left 1 (by omega)
  exact ⟨base, holds, by rw [run, run_suffixes_stop stop]⟩

theorem Leads.weaken {weaker : Expr Name → Bool} (leads : Leads shape kinds)
    (weaken : ∀ base, shape base = true → weaker base = true) : Leads weaker kinds := by
  refine ⟨leads.1, fun fuel input rest enough begins => ?_⟩
  obtain ⟨left, base, spent, holds, run⟩ := leads.2 fuel enough begins
  exact ⟨left, base, spent, weaken base holds, run⟩

/-- One more suffix behind what is read already. -/
theorem Leads.extend (leads : Leads (fun _ => true) front) (some : back ≠ [])
    (step : ∀ (left : Nat) (base : Expr Name) {input rest : Input}, 8 * back.length + 7 ≤ left →
      input.Begins back rest → ∃ result, shape result = true ∧
        (suffixes (left + 1) base).run input = (suffixes left result).run rest) : Leads shape (front ++ back) := by
  refine ⟨leads.1.append back, fun fuel input rest enough begins => ?_⟩
  have positive := List.length_pos_iff.mpr some
  rw [List.length_append] at enough ⊢
  obtain ⟨middle, before, behind⟩ := begins.split
  obtain ⟨left, base, spent, -, run⟩ := leads.2 fuel (by omega) before
  obtain ⟨left, rfl⟩ := exists_spare left 1 (by omega)
  obtain ⟨result, holds, suffix⟩ := step left base (by omega) behind
  exact ⟨left, result, by omega, holds, by rw [run, suffix]⟩

theorem leads_name (text : String) : Leads Expr.isAssignable [.name text] := by
  refine ⟨⟨_, _, rfl, rfl⟩, fun fuel input rest enough begins => ?_⟩
  rw [List.length_singleton] at enough ⊢
  obtain ⟨fuel, rfl⟩ := exists_spare fuel 1 (by omega)
  exact ⟨fuel, _, by omega, rfl, by rw [run_suffixed_name begins.current, begins.tail.nil]⟩

theorem leads_paren (inner : Chain kinds) :
    Leads (fun _ => true) (.symbol .leftParen :: kinds ++ [.symbol .rightParen]) := by
  refine ⟨⟨_, _, rfl, rfl⟩, fun fuel input rest enough begins => ?_⟩
  simp only [List.length_append, List.length_cons, List.length_nil] at enough ⊢
  obtain ⟨fuel, rfl⟩ := exists_spare fuel 1 (by omega)
  obtain ⟨middle, before, closed⟩ := begins.tail.split
  obtain ⟨value, run⟩ := inner.accepts fuel (by omega) before (by rw [closed.current]; rfl)
  exact ⟨fuel, _, by omega, trivial, by rw [run_suffixed_paren begins.current run closed.current, closed.tail.nil]⟩

theorem Leads.index (leads : Leads (fun _ => true) front) (key : Chain kinds) :
    Leads Expr.isAssignable (front ++ (.symbol .leftBracket :: kinds ++ [.symbol .rightBracket])) := by
  refine leads.extend (by simp) fun left base input rest enough begins => ?_
  simp only [List.length_append, List.length_cons, List.length_nil] at enough
  obtain ⟨middle, inner, closed⟩ := begins.tail.split
  obtain ⟨value, run⟩ := key.accepts left (by omega) inner (by rw [closed.current]; rfl)
  exact ⟨_, rfl, by rw [run_suffixes_index begins.current run closed.current, closed.tail.nil]⟩

theorem Leads.field (leads : Leads (fun _ => true) front) (text : String) :
    Leads Expr.isAssignable (front ++ [.symbol .dot, .name text]) := by
  refine leads.extend (by simp) fun left base input rest enough begins => ?_
  exact ⟨_, rfl, by rw [run_suffixes_dot begins.current begins.tail.current, begins.tail.tail.nil]⟩

/-- A call that stands without parentheses. -/
def isDirectCall (value : Expr Name) : Bool := value.isCall && !value.site.parenthesized

def Arguments (kinds : List Kind) : Prop :=
  HeadIs startsArguments kinds ∧ ∀ (fuel : Nat) (callee : Expr Name) {input rest : Input}, 8 * kinds.length + 1 ≤ fuel →
    input.Begins kinds rest → ∃ call, isDirectCall call = true ∧ (arguments fuel callee).run input = .ok (call, rest)

theorem Leads.call (leads : Leads (fun _ => true) front) (given : Arguments kinds) :
    Leads isDirectCall (front ++ kinds) := by
  refine leads.extend given.1.ne_nil fun left base input rest enough begins => ?_
  obtain ⟨call, direct, run⟩ := given.2 left base (by omega) begins
  exact ⟨call, direct, by rw [run_suffixes_arguments (begins.head given.1), run]; rfl⟩

theorem Leads.method (leads : Leads (fun _ => true) front) (text : String) (given : Arguments kinds) :
    Leads isDirectCall (front ++ (.symbol .colon :: .name text :: kinds)) := by
  refine leads.extend (by simp) fun left base input rest enough begins => ?_
  simp only [List.length_cons] at enough
  obtain ⟨call, direct, run⟩ := given.2 left
    (.member (.plain base.position) base .colon ⟨text, input.rest.current.position⟩) (by omega) begins.tail.tail
  exact ⟨call, direct, by rw [run_suffixes_method begins.current begins.tail.current, run]; rfl⟩

theorem Leads.operand (leads : Leads shape kinds) : Operand kinds := by
  refine ⟨leads.1.imp fun kind start => ?_, fun fuel input rest enough begins stop => ?_⟩
  · cases kind with
    | name text => rfl
    | symbol sign => cases sign <;> first | rfl | cases start
    | _ => cases start
  · obtain ⟨fuel, rfl⟩ := exists_spare fuel 1 (by omega)
    obtain ⟨base, -, run⟩ := leads.bounded fuel (by omega) begins (by simpa using stop)
    exact ⟨base, by rw [run_operand_suffixed (begins.head leads.1), run]⟩

end Suffixes

section Operands

variable {kinds first : List Kind} {parts : List (List Kind)}

theorem operand_literal {token : Kind} {kind : LiteralKind} {raw : String}
    (literal : literalOf? token = some (kind, raw)) : Operand [token] := by
  refine ⟨⟨token, [], rfl, ?_⟩, fun fuel input rest enough begins _ => ?_⟩
  · unfold literalOf? at literal
    split at literal <;> first | rfl | cases literal
  · obtain ⟨fuel, rfl⟩ := exists_spare fuel 1 (by omega)
    exact ⟨_, by rw [run_operand_literal (by rw [begins.current]; exact literal), begins.tail.nil]⟩

def endsList (kind : Kind) : Bool := isBoundary kind && kind ≠ .symbol .comma

def Expressions (kinds : List Kind) : Prop := HeadIs Kind.opens kinds ∧ Accepts expressions 4 endsList kinds

theorem expressions_of_chains (chain : Chain first)
    (others : ∀ part ∈ parts, ∃ kinds, part = .symbol .comma :: kinds ∧ Chain kinds) :
    Expressions (first ++ parts.flatten) := by
  refine ⟨chain.head.append _, ?_⟩
  induction parts generalizing first with
  | nil =>
      intro fuel input rest enough begins stop
      simp only [endsList, Bool.and_eq_true, decide_eq_true_eq] at stop
      rw [List.flatten_nil, List.append_nil] at enough begins
      obtain ⟨fuel, rfl⟩ := exists_spare fuel 1 (by omega)
      obtain ⟨value, run⟩ := chain.accepts fuel (by omega) begins stop.1
      exact ⟨[value], run_expressions_last run stop.2⟩
  | cons part parts ih =>
      obtain ⟨⟨second, rfl, next⟩, later⟩ := List.forall_mem_cons.mp others
      intro fuel input rest enough begins stop
      simp only [List.flatten_cons, List.cons_append, List.length_append, List.length_cons] at enough begins
      obtain ⟨fuel, rfl⟩ := exists_spare fuel 1 (by omega)
      obtain ⟨middle, front, behind⟩ := begins.split
      obtain ⟨value, run⟩ := chain.accepts fuel (by omega) front (by rw [behind.current]; rfl)
      obtain ⟨further, more⟩ := ih next later fuel (by rw [List.length_append]; omega) behind.tail stop
      exact ⟨value :: further, run_expressions_more run behind.current more⟩

theorem arguments_none : Arguments [.symbol .leftParen, .symbol .rightParen] := by
  refine ⟨⟨_, _, rfl, rfl⟩, fun fuel callee input rest enough begins => ?_⟩
  obtain ⟨fuel, rfl⟩ := exists_spare fuel 1 (by omega)
  exact ⟨_, rfl, by rw [run_arguments_none begins.current begins.tail.current, begins.tail.tail.nil]⟩

theorem arguments_list (given : Expressions kinds) :
    Arguments (.symbol .leftParen :: kinds ++ [.symbol .rightParen]) := by
  refine ⟨⟨_, _, rfl, rfl⟩, fun fuel callee input rest enough begins => ?_⟩
  simp only [List.length_append, List.length_cons, List.length_nil] at enough
  obtain ⟨fuel, rfl⟩ := exists_spare fuel 1 (by omega)
  obtain ⟨middle, inner, closed⟩ := begins.tail.split
  obtain ⟨values, run⟩ := given.2 fuel (by omega) inner (by rw [closed.current]; rfl)
  have other : input.rest.current.kind ≠ .symbol .rightParen := by
    intro closing
    have opens := inner.head given.1
    simp [closing, Kind.opens] at opens
  exact ⟨_, rfl, by rw [run_arguments_list begins.current other run closed.current, closed.tail.nil]⟩

theorem arguments_string (raw : String) : Arguments [.string raw] := by
  refine ⟨⟨_, _, rfl, rfl⟩, fun fuel callee input rest enough begins => ?_⟩
  obtain ⟨fuel, rfl⟩ := exists_spare fuel 1 (by omega)
  exact ⟨_, rfl, by rw [run_arguments_string begins.current, begins.tail.nil]⟩

/-- Tokens of the fields of a table, up to its closing brace. -/
def Fields (kinds : List Kind) : Prop := Accepts fields 1 (fun _ => true) kinds

theorem arguments_table (inner : Fields kinds) : Arguments (.symbol .leftBrace :: kinds) := by
  refine ⟨⟨_, _, rfl, rfl⟩, fun fuel callee input rest enough begins => ?_⟩
  rw [List.length_cons] at enough
  obtain ⟨fuel, rfl⟩ := exists_spare fuel 1 (by omega)
  obtain ⟨values, run⟩ := inner fuel (by omega) begins.tail rfl
  exact ⟨_, rfl, run_arguments_table begins.current run⟩

theorem operand_table (inner : Fields kinds) : Operand (.symbol .leftBrace :: kinds) := by
  refine ⟨⟨_, _, rfl, rfl⟩, fun fuel input rest enough begins _ => ?_⟩
  rw [List.length_cons] at enough
  obtain ⟨fuel, rfl⟩ := exists_spare fuel 1 (by omega)
  obtain ⟨values, run⟩ := inner fuel (by omega) begins.tail rfl
  exact ⟨_, run_operand_table begins.current run⟩

end Operands

section Tables

variable {kinds first ending : List Kind} {parts : List (List Kind)}

def endsField : Kind → Bool
  | .symbol .comma | .symbol .semicolon | .symbol .rightBrace => true
  | _ => false

theorem endsField_iff {kind : Kind} (ends : endsField kind = true) :
    isBoundary kind = true ∧ kind ≠ .symbol .assign := by
  cases kind with
  | symbol sign => cases sign <;> revert ends <;> decide
  | _ => cases ends

def OneField (kinds : List Kind) : Prop :=
  HeadIs (· ≠ .symbol .rightBrace) kinds ∧ Accepts Parser.field 4 endsField kinds

theorem field_keyed {key value : List Kind} (readKey : Chain key) (readValue : Chain value) :
    OneField (.symbol .leftBracket :: key ++ .symbol .rightBracket :: .symbol .assign :: value) := by
  refine ⟨⟨_, _, rfl, rfl⟩, fun fuel input rest enough begins stop => ?_⟩
  simp only [List.length_append, List.length_cons] at enough
  obtain ⟨fuel, rfl⟩ := exists_spare fuel 1 (by omega)
  obtain ⟨middle, inner, closed⟩ := begins.tail.split
  obtain ⟨_, runKey⟩ := readKey.accepts fuel (by omega) inner (by rw [closed.current]; rfl)
  obtain ⟨_, runValue⟩ := readValue.accepts fuel (by omega) closed.tail.tail (endsField_iff stop).1
  exact ⟨_, run_field_keyed begins.current runKey closed.current closed.tail.current runValue⟩

theorem field_named (text : String) {value : List Kind} (readValue : Chain value) :
    OneField (.name text :: .symbol .assign :: value) := by
  refine ⟨⟨_, _, rfl, rfl⟩, fun fuel input rest enough begins stop => ?_⟩
  simp only [List.length_cons] at enough
  obtain ⟨fuel, rfl⟩ := exists_spare fuel 1 (by omega)
  obtain ⟨_, runValue⟩ := readValue.accepts fuel (by omega) begins.tail.tail (endsField_iff stop).1
  exact ⟨_, run_field_named begins.current begins.tail.current runValue⟩

theorem run_expression_assign (fuel limit : Nat) {input : Input} {text : String}
    (named : input.current.kind = .name text) (assigned : input.rest.current.kind = .symbol .assign) :
    ∃ value, (Parser.expression (fuel + 4) limit).run input = .ok (value, input.rest) := by
  have other : UnaryOp.ofToken? input.current.kind = none := by rw [named]; rfl
  have start : input.current.kind.startsSuffixed = true := by rw [named]; rfl
  have stop : startsSuffix input.rest.current.kind = false := by rw [assigned]; rfl
  have none : BinaryOp.ofToken? input.rest.current.kind = none := by rw [assigned]; rfl
  rw [run_expression_operand other, run_operand_suffixed start, run_suffixed_name named, run_suffixes_stop stop]
  exact ⟨_, run_operations_stop (by simp [none])⟩

theorem field_item (value : Chain kinds) : OneField kinds := by
  refine ⟨value.head.imp fun kind opens => ?_, fun fuel input rest enough begins stop => ?_⟩
  · cases kind with
    | symbol sign => cases sign <;> first | rfl | cases opens
    | _ => rfl
  · obtain ⟨boundary, unassigned⟩ := endsField_iff stop
    obtain ⟨fuel, rfl⟩ := exists_spare fuel 1 (by omega)
    obtain ⟨read, run⟩ := value.accepts fuel (by omega) begins boundary
    have bracket : input.current.kind ≠ .symbol .leftBracket := by
      intro found
      have opens := begins.head value.head
      simp [found, Kind.opens] at opens
    refine ⟨_, run_field_item bracket (fun text named assigned => ?_) run⟩
    -- the expression would have been read up to the assignment only
    have positive := List.length_pos_iff.mpr value.head.ne_nil
    obtain ⟨fuel, rfl⟩ := exists_spare fuel 4 (by omega)
    obtain ⟨other, short⟩ := run_expression_assign fuel 0 named assigned
    simp only [run, Except.ok.injEq, Prod.mk.injEq] at short
    exact unassigned (short.2 ▸ assigned)

theorem fields_end : Fields [.symbol .rightBrace] := by
  intro fuel input rest enough begins _
  obtain ⟨fuel, rfl⟩ := exists_spare fuel 1 (by omega)
  exact ⟨[], by rw [run_fields_end begins.current, begins.tail.nil]⟩

theorem fields_last (single : OneField first) : Fields (first ++ [.symbol .rightBrace]) := by
  intro fuel input rest enough begins _
  rw [List.length_append, List.length_singleton] at enough
  obtain ⟨fuel, rfl⟩ := exists_spare fuel 1 (by omega)
  obtain ⟨middle, front, closed⟩ := begins.split
  obtain ⟨read, run⟩ := single.2 fuel (by omega) front (by rw [closed.current]; rfl)
  have other := front.head single.1
  exact ⟨[read], by rw [run_fields_last (by simpa using other) run closed.current, closed.tail.nil]⟩

theorem fields_more (single : OneField first) {separator : Kind}
    (separates : separator = .symbol .comma ∨ separator = .symbol .semicolon) (more : Fields kinds) :
    Fields (first ++ separator :: kinds) := by
  intro fuel input rest enough begins _
  rw [List.length_append, List.length_cons] at enough
  obtain ⟨fuel, rfl⟩ := exists_spare fuel 1 (by omega)
  obtain ⟨middle, front, behind⟩ := begins.split
  obtain ⟨read, run⟩ := single.2 fuel (by omega) front (by rw [behind.current]; rcases separates with rfl | rfl <;> rfl)
  obtain ⟨further, runMore⟩ := more fuel (by omega) behind.tail rfl
  have other : input.current.kind ≠ .symbol .rightBrace := by simpa using front.head single.1
  obtain rfl | rfl := separates
  · exact ⟨_, run_fields_more other run behind.current runMore⟩
  · exact ⟨_, run_fields_semicolon other run behind.current runMore⟩

/-- The tokens between the fields of a table. -/
def IsSeparator (kinds : List Kind) : Prop := kinds = [.symbol .comma] ∨ kinds = [.symbol .semicolon]

theorem fields_of_parts (single : OneField first)
    (others : ∀ part ∈ parts, ∃ separator, IsSeparator separator ∧ ∃ kinds, OneField kinds ∧ part = separator ++ kinds)
    (last : ending = [] ∨ IsSeparator ending) :
    Fields (first ++ parts.flatten ++ ending ++ [.symbol .rightBrace]) := by
  induction parts generalizing first with
  | nil =>
      rw [List.flatten_nil, List.append_nil]
      obtain rfl | rfl | rfl := last
      · simpa using fields_last single
      · simpa using fields_more single (.inl rfl) fields_end
      · simpa using fields_more single (.inr rfl) fields_end
  | cons part parts ih =>
      obtain ⟨⟨_, separates, kinds, next, rfl⟩, later⟩ := List.forall_mem_cons.mp others
      have further := ih next later
      obtain rfl | rfl := separates
      · simpa using fields_more single (.inl rfl) further
      · simpa using fields_more single (.inr rfl) further

end Tables

end Parser
end LuaMinifier
