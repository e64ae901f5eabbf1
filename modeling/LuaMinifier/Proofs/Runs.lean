import LuaMinifier.Ast.Parser
import LuaMinifier.Proofs.Formed

/-!
What the readers do where the next tokens are known: one rule for every way in which a reader goes on. The rules say
which readers run next and on what, so that no later proof opens a reader.
-/

namespace LuaMinifier

open Token

/-- An input starts with tokens of some kinds, and another one is what stands behind them. -/
def Input.Begins (input : Input) (kinds : List Kind) (rest : Input) : Prop :=
  ∃ tokens : List Token, tokens.map (·.kind) = kinds ∧ input = ⟨tokens ++ rest.tokens, rest.finish⟩

namespace Input.Begins

variable {input rest : Input} {kind : Kind} {kinds more : List Kind}

theorem nil (begins : input.Begins [] rest) : input = rest := by
  obtain ⟨tokens, same, rfl⟩ := begins
  obtain rfl := List.map_eq_nil_iff.mp same
  rfl

theorem current (begins : input.Begins (kind :: kinds) rest) : input.current.kind = kind := by
  obtain ⟨tokens, same, rfl⟩ := begins
  cases tokens with
  | nil => simp at same
  | cons token tokens => exact (List.cons.inj same).1

theorem head {condition : Kind → Bool} (begins : input.Begins kinds rest) (head : HeadIs condition kinds) :
    condition input.current.kind = true := by
  obtain ⟨first, more, rfl, holds⟩ := head
  rw [begins.current]
  exact holds

theorem tail (begins : input.Begins (kind :: kinds) rest) : input.rest.Begins kinds rest := by
  obtain ⟨tokens, same, rfl⟩ := begins
  cases tokens with
  | nil => simp at same
  | cons token tokens => exact ⟨tokens, (List.cons.inj same).2, rfl⟩

theorem split (begins : input.Begins (kinds ++ more) rest) :
    ∃ middle, input.Begins kinds middle ∧ middle.Begins more rest := by
  obtain ⟨tokens, same, rfl⟩ := begins
  obtain ⟨front, back, rfl, first, second⟩ := List.map_eq_append_iff.mp same
  exact ⟨⟨back ++ rest.tokens, rest.finish⟩, ⟨front, first, by simp⟩, ⟨back, second, rfl⟩⟩

end Input.Begins

/-- Fuel for some calls, and what is left of it behind them. -/
theorem exists_spare (fuel calls : Nat) (enough : calls ≤ fuel) : ∃ spare, fuel = spare + calls :=
  Nat.exists_eq_add_of_le' enough

namespace Parser

def startsArguments : Kind → Bool
  | .symbol .leftParen | .symbol .leftBrace | .string _ => true
  | _ => false

/-- Tokens that are read as a part of what stands before them. -/
def startsSuffix : Kind → Bool
  | .symbol .dot | .symbol .leftBracket | .symbol .colon => true
  | kind => startsArguments kind

/-- Tokens that end every expression. -/
def isBoundary (kind : Kind) : Bool := !startsSuffix kind && (BinaryOp.ofToken? kind).isNone

variable {input middle rest : Input} {fuel limit : Nat} {text : String}

@[simp] theorem run_get : (get : Parser Input).run input = .ok (input, input) := rfl

@[simp] theorem run_current : current.run input = .ok (input.current, input) := rfl

@[simp] theorem run_advance : advance.run input = .ok ((), input.rest) := rfl

@[simp] theorem run_sees (kind : Kind) :
    (sees kind).run input = .ok (decide (input.current.kind = kind), input) := rfl

@[simp] theorem ok_bind {α β : Type} (value : α) (next : α → Except SyntaxError β) :
    (Except.ok value >>= next) = next value := rfl

@[simp] theorem ok_map {α β : Type} (change : α → β) (value : α) :
    (change <$> (Except.ok value : Except SyntaxError α)) = .ok (change value) := rfl

@[simp] theorem run_pure {α : Type} (value : α) : (pure value : Parser α).run input = .ok (value, input) := rfl

theorem run_accept {kind : Kind} (found : input.current.kind = kind) :
    (accept kind).run input = .ok (true, input.rest) := by
  simp only [accept, StateT.run_bind, run_sees, found, ok_bind, decide_true, ↓reduceIte, run_advance, run_pure]

theorem run_accept_other {kind : Kind} (other : input.current.kind ≠ kind) :
    (accept kind).run input = .ok (false, input) := by
  simp only [accept, StateT.run_bind, run_sees, other, ok_bind, decide_false, Bool.false_eq_true, ↓reduceIte, run_pure]

theorem run_keyword {reserved : Keyword} (found : input.current.kind = .keyword reserved) :
    (keyword reserved).run input = .ok ((), input.rest) := by
  simp only [keyword, StateT.run_bind, run_accept found, ok_bind, ↓reduceIte, run_pure]

theorem run_symbol {sign : Symbol} (found : input.current.kind = .symbol sign) :
    (symbol sign).run input = .ok ((), input.rest) := by
  simp only [symbol, StateT.run_bind, run_accept found, ok_bind, ↓reduceIte, run_pure]

theorem run_name (found : input.current.kind = .name text) :
    name.run input = .ok (⟨text, input.current.position⟩, input.rest) := by
  simp only [name, StateT.run_bind, run_current, ok_bind, found, run_advance, run_pure]

theorem run_operations_stop {position : Position} {left : Expr Name}
    (stop : ∀ operator, BinaryOp.ofToken? input.current.kind = some operator → operator.leftPower ≤ limit) :
    (operations (fuel + 1) limit position left).run input = .ok (left, input) := by
  simp only [operations, StateT.run_bind, run_current, ok_bind]
  split
  next => rfl
  next operator found => simp only [stop operator found, ↓reduceIte, run_pure]

theorem run_operations_step {position : Position} {left : Expr Name} {operator : BinaryOp}
    (found : BinaryOp.ofToken? input.current.kind = some operator) (stronger : limit < operator.leftPower) :
    (operations (fuel + 1) limit position left).run input =
      ((expression fuel operator.rightPower).run input.rest >>= fun (right, rest) =>
        (operations fuel limit position (.binary (.plain position) operator left right)).run rest) := by
  simp only [operations, StateT.run_bind, run_current, ok_bind, found]
  simp [Nat.not_le.mpr stronger]

theorem run_expression_unary {operator : UnaryOp} (found : UnaryOp.ofToken? input.current.kind = some operator) :
    (expression (fuel + 1) limit).run input =
      ((expression fuel UnaryOp.power).run input.rest >>= fun (operand, rest) =>
        (operations fuel limit input.current.position
          (.unary (.plain input.current.position) operator operand)).run rest) := by
  simp [expression, found]

theorem run_expression_operand (other : UnaryOp.ofToken? input.current.kind = none) :
    (expression (fuel + 1) limit).run input =
      ((operand fuel).run input >>= fun (left, rest) =>
        (operations fuel limit input.current.position left).run rest) := by
  simp [expression, other]

theorem run_suffixes_stop {base : Expr Name} (stop : startsSuffix input.current.kind = false) :
    (suffixes (fuel + 1) base).run input = .ok (base, input) := by
  simp only [suffixes, StateT.run_bind, run_current, ok_bind]
  split <;> first | rfl | simp_all [startsSuffix, startsArguments]

theorem run_suffixes_dot {base : Expr Name} (found : input.current.kind = .symbol .dot)
    (named : input.rest.current.kind = .name text) :
    (suffixes (fuel + 1) base).run input =
      (suffixes fuel (.member (.plain base.position) base .dot ⟨text, input.rest.current.position⟩)).run
        input.rest.rest := by
  simp only [suffixes, StateT.run_bind, run_current, ok_bind, found, run_advance, run_name named]

theorem run_suffixes_index {base : Expr Name} (found : input.current.kind = .symbol .leftBracket)
    {key : Expr Name} (inner : (expression fuel 0).run input.rest = .ok (key, rest))
    (closed : rest.current.kind = .symbol .rightBracket) :
    (suffixes (fuel + 1) base).run input = (suffixes fuel (.index (.plain base.position) base key)).run rest.rest := by
  simp only [suffixes, StateT.run_bind, run_current, ok_bind, found, run_advance, inner, run_symbol closed]

theorem run_suffixes_method {base : Expr Name}
    (found : input.current.kind = .symbol .colon) (named : input.rest.current.kind = .name text) :
    (suffixes (fuel + 1) base).run input =
      ((arguments fuel (.member (.plain base.position) base .colon ⟨text, input.rest.current.position⟩)).run
        input.rest.rest >>= fun (call, rest) => (suffixes fuel call).run rest) := by
  simp only [suffixes, StateT.run_bind, run_current, ok_bind, found, run_advance, run_name named]

theorem run_suffixes_arguments {base : Expr Name} (found : startsArguments input.current.kind = true) :
    (suffixes (fuel + 1) base).run input =
      ((arguments fuel base).run input >>= fun (call, rest) => (suffixes fuel call).run rest) := by
  simp only [suffixes, StateT.run_bind, run_current, ok_bind]
  split <;> first | rfl | simp_all [startsArguments]

theorem run_arguments_list {callee : Expr Name} (found : input.current.kind = .symbol .leftParen)
    {given : List (Expr Name)} (other : input.rest.current.kind ≠ .symbol .rightParen)
    (inner : (expressions fuel).run input.rest = .ok (given, rest))
    (closed : rest.current.kind = .symbol .rightParen) :
    (arguments (fuel + 1) callee).run input = .ok (.call (.plain callee.position) callee given, rest.rest) := by
  simp only [arguments, StateT.run_bind, run_current, ok_bind, found, run_advance, run_sees, other, decide_false,
    Bool.false_eq_true, ↓reduceIte, inner, run_symbol closed, run_pure]

theorem run_arguments_none {callee : Expr Name} (found : input.current.kind = .symbol .leftParen)
    (closed : input.rest.current.kind = .symbol .rightParen) :
    (arguments (fuel + 1) callee).run input = .ok (.call (.plain callee.position) callee [], input.rest.rest) := by
  simp only [arguments, StateT.run_bind, run_current, ok_bind, found, run_advance, run_sees, closed, decide_true,
    ↓reduceIte, run_pure, run_symbol closed]

theorem run_arguments_table {callee : Expr Name} (found : input.current.kind = .symbol .leftBrace)
    {given : List (Field Name)} (inner : (fields fuel).run input.rest = .ok (given, rest)) :
    (arguments (fuel + 1) callee).run input =
      .ok (.callTable (.plain callee.position) callee input.current.position given, rest) := by
  simp only [arguments, StateT.run_bind, run_current, ok_bind, found, run_advance, inner, run_pure]

theorem run_arguments_string {callee : Expr Name} {raw : String} (found : input.current.kind = .string raw) :
    (arguments (fuel + 1) callee).run input =
      .ok (.callString (.plain callee.position) callee input.current.position raw, input.rest) := by
  simp only [arguments, StateT.run_bind, run_current, ok_bind, found, run_advance, run_pure]

theorem run_suffixed_name (found : input.current.kind = .name text) :
    (suffixed (fuel + 1)).run input =
      (suffixes fuel (.identifier (.plain input.current.position) ⟨text, input.current.position⟩)).run
        input.rest := by
  simp only [suffixed, StateT.run_bind, run_current, ok_bind, found, run_advance]

theorem run_suffixed_paren (found : input.current.kind = .symbol .leftParen) {inner : Expr Name}
    (read : (expression fuel 0).run input.rest = .ok (inner, rest))
    (closed : rest.current.kind = .symbol .rightParen) :
    (suffixed (fuel + 1)).run input = (suffixes fuel inner.parenthesize).run rest.rest := by
  simp only [suffixed, StateT.run_bind, run_current, ok_bind, found, run_advance, read, run_symbol closed]

theorem run_operand_suffixed (found : input.current.kind.startsSuffixed = true) :
    (operand (fuel + 1)).run input = (suffixed fuel).run input := by
  simp only [operand, StateT.run_bind, run_current, ok_bind]
  cases kind : input.current.kind with
  | name text => rfl
  | symbol sign => cases sign <;> first | rfl | simp [kind, Kind.startsSuffixed] at found
  | _ => simp [kind, Kind.startsSuffixed] at found

theorem run_operand_literal {kind : LiteralKind} {raw : String}
    (found : literalOf? input.current.kind = some (kind, raw)) :
    (operand (fuel + 1)).run input = .ok (.literal (.plain input.current.position) kind raw, input.rest) := by
  simp only [operand, StateT.run_bind, run_current, ok_bind, found, run_advance, run_pure]

theorem run_operand_table (found : input.current.kind = .symbol .leftBrace) {given : List (Field Name)}
    (inner : (fields fuel).run input.rest = .ok (given, rest)) :
    (operand (fuel + 1)).run input = .ok (.table (.plain input.current.position) given, rest) := by
  simp only [operand, StateT.run_bind, run_current, ok_bind, found, literalOf?, run_advance, inner, run_pure]

theorem run_operand_function (found : input.current.kind = .keyword .kFunction)
    {parameters : Parameters Name} {body : Block Name}
    (inner : (functionBody fuel).run input.rest = .ok ((parameters, body), rest)) :
    (operand (fuel + 1)).run input = .ok (.function (.plain input.current.position) parameters body, rest) := by
  simp only [operand, StateT.run_bind, run_current, ok_bind, found, literalOf?, run_advance, inner, run_pure]

theorem run_expressions_last {first : Expr Name}
    (read : (expression fuel 0).run input = .ok (first, rest)) (stop : rest.current.kind ≠ .symbol .comma) :
    (expressions (fuel + 1)).run input = .ok ([first], rest) := by
  simp only [expressions, StateT.run_bind, read, ok_bind, run_accept_other stop, Bool.false_eq_true, ↓reduceIte,
    run_pure]

theorem run_expressions_more {first : Expr Name} {further : List (Expr Name)}
    (read : (expression fuel 0).run input = .ok (first, middle)) (comma : middle.current.kind = .symbol .comma)
    (more : (expressions fuel).run middle.rest = .ok (further, rest)) :
    (expressions (fuel + 1)).run input = .ok (first :: further, rest) := by
  simp only [expressions, StateT.run_bind, read, ok_bind, run_accept comma, ↓reduceIte, more, run_pure]

theorem run_fields_end (closed : input.current.kind = .symbol .rightBrace) :
    (fields (fuel + 1)).run input = .ok ([], input.rest) := by
  simp only [fields, StateT.run_bind, run_accept closed, ok_bind, ↓reduceIte, run_pure]

theorem run_fields_last {first : Field Name}
    (other : input.current.kind ≠ .symbol .rightBrace) (read : (field fuel).run input = .ok (first, rest))
    (closed : rest.current.kind = .symbol .rightBrace) :
    (fields (fuel + 1)).run input = .ok ([first], rest.rest) := by
  have comma : rest.current.kind ≠ .symbol .comma := by simp [closed]
  have semicolon : rest.current.kind ≠ .symbol .semicolon := by simp [closed]
  simp only [fields, fieldSeparator, StateT.run_bind, run_accept_other other, ok_bind, Bool.false_eq_true, ↓reduceIte,
    read, run_accept_other comma, run_accept_other semicolon, run_symbol closed, run_pure]

theorem run_fields_more {first : Field Name} {further : List (Field Name)}
    (other : input.current.kind ≠ .symbol .rightBrace) (read : (field fuel).run input = .ok (first, middle))
    (comma : middle.current.kind = .symbol .comma) (more : (fields fuel).run middle.rest = .ok (further, rest)) :
    (fields (fuel + 1)).run input = .ok (first :: further, rest) := by
  simp only [fields, fieldSeparator, StateT.run_bind, run_accept_other other, ok_bind, Bool.false_eq_true, ↓reduceIte,
    read, run_accept comma, more, run_pure]

theorem run_fields_semicolon {first : Field Name} {further : List (Field Name)}
    (other : input.current.kind ≠ .symbol .rightBrace) (read : (field fuel).run input = .ok (first, middle))
    (semicolon : middle.current.kind = .symbol .semicolon)
    (more : (fields fuel).run middle.rest = .ok (further, rest)) :
    (fields (fuel + 1)).run input = .ok (first :: further, rest) := by
  have comma : middle.current.kind ≠ .symbol .comma := by simp [semicolon]
  simp only [fields, fieldSeparator, StateT.run_bind, run_accept_other other, ok_bind, Bool.false_eq_true, ↓reduceIte,
    read, run_accept_other comma, run_accept semicolon, more, run_pure]

theorem run_field_keyed (opened : input.current.kind = .symbol .leftBracket) {key value : Expr Name}
    (readKey : (expression fuel 0).run input.rest = .ok (key, middle))
    (closed : middle.current.kind = .symbol .rightBracket) (assigned : middle.rest.current.kind = .symbol .assign)
    (readValue : (expression fuel 0).run middle.rest.rest = .ok (value, rest)) :
    (field (fuel + 1)).run input = .ok (.keyed key value, rest) := by
  obtain ⟨tokens, finish⟩ := input
  match tokens, opened with
  | ⟨.symbol .leftBracket, _⟩ :: _, _ =>
    simp only [field, StateT.run_bind, run_get, run_advance, ok_bind, readKey, run_symbol closed, run_symbol assigned,
      readValue, run_pure]

theorem run_field_named (found : input.current.kind = .name text)
    (assigned : input.rest.current.kind = .symbol .assign) {value : Expr Name}
    (read : (expression fuel 0).run input.rest.rest = .ok (value, rest)) :
    (field (fuel + 1)).run input = .ok (.named ⟨text, input.current.position⟩ value, rest) := by
  obtain ⟨tokens, finish⟩ := input
  match tokens, found, assigned with
  | ⟨.name _, _⟩ :: ⟨.symbol .assign, _⟩ :: _, found, _ =>
    obtain rfl := Kind.name.inj found
    simp only [field, StateT.run_bind, run_get, run_advance, ok_bind, read, run_pure]
    rfl

theorem run_field_item (bracket : input.current.kind ≠ .symbol .leftBracket)
    (unnamed : ∀ text, input.current.kind = .name text → input.rest.current.kind ≠ .symbol .assign)
    {value : Expr Name} (read : (expression fuel 0).run input = .ok (value, rest)) :
    (field (fuel + 1)).run input = .ok (.item value, rest) := by
  simp only [field, StateT.run_bind, run_get, ok_bind]
  split
  next found => simp [Input.current, found] at bracket
  next text _ _ _ found => simp [Input.current, Input.rest, found] at unnamed
  next => simp only [StateT.run_bind, read, ok_bind, run_pure]

theorem run_moreNames_stop (stop : input.current.kind ≠ .symbol .comma) :
    (moreNames (fuel + 1)).run input = .ok ([], input) := by
  simp only [moreNames, StateT.run_bind, run_accept_other stop, ok_bind, Bool.false_eq_true, ↓reduceIte, run_pure]

theorem run_moreNames_step (comma : input.current.kind = .symbol .comma)
    (named : input.rest.current.kind = .name text) {further : List Name}
    (more : (moreNames fuel).run input.rest.rest = .ok (further, rest)) :
    (moreNames (fuel + 1)).run input = .ok (⟨text, input.rest.current.position⟩ :: further, rest) := by
  simp only [moreNames, StateT.run_bind, run_accept comma, ok_bind, ↓reduceIte, run_name named, more, run_pure]

theorem run_moreFields_stop (stop : input.current.kind ≠ .symbol .dot) :
    (moreFields (fuel + 1)).run input = .ok ([], input) := by
  simp only [moreFields, StateT.run_bind, run_accept_other stop, ok_bind, Bool.false_eq_true, ↓reduceIte, run_pure]

theorem run_moreFields_step (dot : input.current.kind = .symbol .dot)
    (named : input.rest.current.kind = .name text) {further : List Name}
    (more : (moreFields fuel).run input.rest.rest = .ok (further, rest)) :
    (moreFields (fuel + 1)).run input = .ok (⟨text, input.rest.current.position⟩ :: further, rest) := by
  simp only [moreFields, StateT.run_bind, run_accept dot, ok_bind, ↓reduceIte, run_name named, more, run_pure]

theorem run_functionName_method {root method : String} {fields : List Name}
    (named : input.current.kind = .name root) (read : (moreFields fuel).run input.rest = .ok (fields, rest))
    (colon : rest.current.kind = .symbol .colon) (called : rest.rest.current.kind = .name method) :
    (functionName fuel).run input =
      .ok (⟨⟨root, input.current.position⟩, fields, some ⟨method, rest.rest.current.position⟩⟩, rest.rest.rest) := by
  simp only [functionName, StateT.run_bind, run_name named, ok_bind, read, run_accept colon, ↓reduceIte,
    StateT.run_map, run_name called, ok_map, run_pure]

theorem run_functionName_plain {root : String} {fields : List Name}
    (named : input.current.kind = .name root) (read : (moreFields fuel).run input.rest = .ok (fields, rest))
    (stop : rest.current.kind ≠ .symbol .colon) :
    (functionName fuel).run input = .ok (⟨⟨root, input.current.position⟩, fields, none⟩, rest) := by
  simp only [functionName, StateT.run_bind, run_name named, ok_bind, read, run_accept_other stop, Bool.false_eq_true,
    ↓reduceIte, run_pure]

theorem run_someParameters_vararg (found : input.current.kind = .symbol .dotDotDot) :
    (someParameters (fuel + 1)).run input = .ok (⟨[], some input.current.position⟩, input.rest) := by
  simp only [someParameters, StateT.run_bind, run_current, ok_bind, run_accept found, ↓reduceIte, run_pure]

theorem run_someParameters_last (named : input.current.kind = .name text)
    (stop : input.rest.current.kind ≠ .symbol .comma) :
    (someParameters (fuel + 1)).run input = .ok (⟨[⟨text, input.current.position⟩], none⟩, input.rest) := by
  have other : input.current.kind ≠ .symbol .dotDotDot := by simp [named]
  simp only [someParameters, StateT.run_bind, run_current, ok_bind, run_accept_other other, Bool.false_eq_true,
    ↓reduceIte, run_name named, run_accept_other stop, run_pure]

theorem run_someParameters_more (named : input.current.kind = .name text)
    (comma : input.rest.current.kind = .symbol .comma) {further : Parameters Name}
    (more : (someParameters fuel).run input.rest.rest = .ok (further, rest)) :
    (someParameters (fuel + 1)).run input =
      .ok (⟨⟨text, input.current.position⟩ :: further.names, further.vararg⟩, rest) := by
  have other : input.current.kind ≠ .symbol .dotDotDot := by simp [named]
  simp only [someParameters, StateT.run_bind, run_current, ok_bind, run_accept_other other, Bool.false_eq_true,
    ↓reduceIte, run_name named, run_accept comma, more, run_pure]

theorem run_parameters_none (opened : input.current.kind = .symbol .leftParen)
    (closed : input.rest.current.kind = .symbol .rightParen) :
    (parameters fuel).run input = .ok (⟨[], none⟩, input.rest.rest) := by
  simp only [parameters, StateT.run_bind, run_symbol opened, ok_bind, run_sees, closed, decide_true, ↓reduceIte,
    run_pure, run_symbol closed]

theorem run_parameters_some (opened : input.current.kind = .symbol .leftParen)
    (other : input.rest.current.kind ≠ .symbol .rightParen) {read : Parameters Name}
    (inner : (someParameters fuel).run input.rest = .ok (read, rest))
    (closed : rest.current.kind = .symbol .rightParen) :
    (parameters fuel).run input = .ok (read, rest.rest) := by
  simp only [parameters, StateT.run_bind, run_symbol opened, ok_bind, run_sees, other, decide_false,
    Bool.false_eq_true, ↓reduceIte, inner, run_symbol closed, run_pure]

theorem run_functionBody {read : Parameters Name} {body : Block Name}
    (given : (parameters fuel).run input = .ok (read, middle)) (inner : (block fuel).run middle = .ok (body, rest))
    (closed : rest.current.kind = .keyword .kEnd) :
    (functionBody (fuel + 1)).run input = .ok ((read, body), rest.rest) := by
  simp only [functionBody, StateT.run_bind, given, ok_bind, inner, run_keyword closed, run_pure]

section Statements

variable {condition value : Expr Name} {body : Block Name} {first second third : Input}

theorem run_statement_cond (found : input.current.kind = .keyword .kIf)
    (tested : (expression fuel 0).run input.rest = .ok (condition, first))
    (opened : first.current.kind = .keyword .kThen) (inner : (block fuel).run first.rest = .ok (body, second))
    {otherwise : Else Name} (more : (branches fuel).run second = .ok (otherwise, rest)) :
    (statement (fuel + 1)).run input = .ok (.cond input.current.position condition body otherwise, rest) := by
  simp only [statement, StateT.run_bind, run_current, ok_bind, found, run_advance, tested, run_keyword opened, inner,
    more, run_pure]

theorem run_statement_while (found : input.current.kind = .keyword .kWhile)
    (tested : (expression fuel 0).run input.rest = .ok (condition, first))
    (opened : first.current.kind = .keyword .kDo) (inner : (block fuel).run first.rest = .ok (body, rest))
    (closed : rest.current.kind = .keyword .kEnd) :
    (statement (fuel + 1)).run input = .ok (.whileLoop input.current.position condition body, rest.rest) := by
  simp only [statement, StateT.run_bind, run_current, ok_bind, found, run_advance, tested, run_keyword opened, inner,
    run_keyword closed, run_pure]

theorem run_statement_do (found : input.current.kind = .keyword .kDo)
    (inner : (block fuel).run input.rest = .ok (body, rest)) (closed : rest.current.kind = .keyword .kEnd) :
    (statement (fuel + 1)).run input = .ok (.doBlock input.current.position body, rest.rest) := by
  simp only [statement, StateT.run_bind, run_current, ok_bind, found, run_advance, inner, run_keyword closed, run_pure]

theorem run_statement_repeat (found : input.current.kind = .keyword .kRepeat)
    (inner : (block fuel).run input.rest = .ok (body, first)) (closed : first.current.kind = .keyword .kUntil)
    (tested : (expression fuel 0).run first.rest = .ok (condition, rest)) :
    (statement (fuel + 1)).run input = .ok (.repeatLoop input.current.position body condition, rest) := by
  simp only [statement, StateT.run_bind, run_current, ok_bind, found, run_advance, inner, run_keyword closed, tested,
    run_pure]

theorem run_statement_function (found : input.current.kind = .keyword .kFunction) {called : FunctionName Name}
    (named : (functionName fuel).run input.rest = .ok (called, first)) {parameters : Parameters Name}
    (inner : (functionBody fuel).run first = .ok ((parameters, body), rest)) :
    (statement (fuel + 1)).run input = .ok (.function input.current.position called parameters body, rest) := by
  simp only [statement, StateT.run_bind, run_current, ok_bind, found, run_advance, named, inner, run_pure]

theorem run_statement_localFunction {text : String} (found : input.current.kind = .keyword .kLocal)
    (functional : input.rest.current.kind = .keyword .kFunction) (named : input.rest.rest.current.kind = .name text)
    {parameters : Parameters Name}
    (inner : (functionBody fuel).run input.rest.rest.rest = .ok ((parameters, body), rest)) :
    (statement (fuel + 1)).run input =
      .ok (.localFunction input.current.position ⟨text, input.rest.rest.current.position⟩ parameters body, rest) := by
  simp only [statement, StateT.run_bind, run_current, ok_bind, found, run_advance, run_accept functional, ↓reduceIte,
    run_name named, inner, run_pure]

theorem run_statement_localNames {text : String} (found : input.current.kind = .keyword .kLocal)
    (named : input.rest.current.kind = .name text) {further : List Name}
    (more : (moreNames fuel).run input.rest.rest = .ok (further, rest))
    (stop : rest.current.kind ≠ .symbol .assign) :
    (statement (fuel + 1)).run input =
      .ok (.localVars input.current.position (⟨text, input.rest.current.position⟩ :: further) [], rest) := by
  have other : input.rest.current.kind ≠ .keyword .kFunction := by simp [named]
  simp only [statement, StateT.run_bind, run_current, ok_bind, found, run_advance, run_accept_other other,
    Bool.false_eq_true, ↓reduceIte, run_name named, more, run_accept_other stop, run_pure]

theorem run_statement_localValues {text : String} (found : input.current.kind = .keyword .kLocal)
    (named : input.rest.current.kind = .name text) {further : List Name}
    (more : (moreNames fuel).run input.rest.rest = .ok (further, first))
    (assigned : first.current.kind = .symbol .assign) {values : List (Expr Name)}
    (given : (expressions fuel).run first.rest = .ok (values, rest)) :
    (statement (fuel + 1)).run input =
      .ok (.localVars input.current.position (⟨text, input.rest.current.position⟩ :: further) values, rest) := by
  have other : input.rest.current.kind ≠ .keyword .kFunction := by simp [named]
  simp only [statement, StateT.run_bind, run_current, ok_bind, found, run_advance, run_accept_other other,
    Bool.false_eq_true, ↓reduceIte, run_name named, more, run_accept assigned, given, run_pure]

theorem run_statement_label {text : String} (found : input.current.kind = .symbol .colonColon)
    (named : input.rest.current.kind = .name text) (closed : input.rest.rest.current.kind = .symbol .colonColon) :
    (statement (fuel + 1)).run input =
      .ok (.label input.current.position ⟨text, input.rest.current.position⟩, input.rest.rest.rest) := by
  simp only [statement, StateT.run_bind, run_current, ok_bind, found, run_advance, run_name named, run_symbol closed,
    run_pure]

theorem run_statement_goto {text : String} (found : input.current.kind = .keyword .kGoto)
    (named : input.rest.current.kind = .name text) :
    (statement (fuel + 1)).run input =
      .ok (.goto input.current.position ⟨text, input.rest.current.position⟩, input.rest.rest) := by
  simp only [statement, StateT.run_bind, run_current, ok_bind, found, run_advance, run_name named, run_pure]

theorem run_statement_break (found : input.current.kind = .keyword .kBreak) :
    (statement (fuel + 1)).run input = .ok (.breakLoop input.current.position, input.rest) := by
  simp only [statement, StateT.run_bind, run_current, ok_bind, found, run_advance, run_pure]

theorem run_statement_loop (found : input.current.kind = .keyword .kFor) :
    (statement (fuel + 1)).run input = (loop fuel input.current.position).run input.rest := by
  simp only [statement, StateT.run_bind, run_current, ok_bind, found, run_advance]

theorem run_statement_suffixed (found : input.current.kind.startsSuffixed = true) :
    (statement (fuel + 1)).run input = (assignmentOrCall fuel input.current.position).run input := by
  simp only [statement, StateT.run_bind, run_current, ok_bind]
  cases kind : input.current.kind with
  | name text => rfl
  | symbol sign => cases sign <;> first | rfl | simp [kind, Kind.startsSuffixed] at found
  | _ => simp [kind, Kind.startsSuffixed] at found

theorem run_branches_elseif (found : input.current.kind = .keyword .kElseif)
    (tested : (expression fuel 0).run input.rest = .ok (condition, first))
    (opened : first.current.kind = .keyword .kThen) (inner : (block fuel).run first.rest = .ok (body, second))
    {otherwise : Else Name} (more : (branches fuel).run second = .ok (otherwise, rest)) :
    (branches (fuel + 1)).run input = .ok (.elseif input.current.position condition body otherwise, rest) := by
  simp only [branches, StateT.run_bind, run_current, ok_bind, found, run_advance, tested, run_keyword opened, inner,
    more, run_pure]

theorem run_branches_else (found : input.current.kind = .keyword .kElse)
    (inner : (block fuel).run input.rest = .ok (body, rest)) (closed : rest.current.kind = .keyword .kEnd) :
    (branches (fuel + 1)).run input = .ok (.otherwise input.current.position body, rest.rest) := by
  simp only [branches, StateT.run_bind, run_current, ok_bind, found, run_advance, inner, run_keyword closed, run_pure]

theorem run_branches_end (found : input.current.kind = .keyword .kEnd) :
    (branches (fuel + 1)).run input = .ok (.none, input.rest) := by
  simp only [branches, StateT.run_bind, run_current, ok_bind, found, run_keyword found, run_pure]

theorem run_loop_count {position : Position} {counter : String} (named : input.current.kind = .name counter)
    (assigned : input.rest.current.kind = .symbol .assign) {start limit : Expr Name}
    (readStart : (expression fuel 0).run input.rest.rest = .ok (start, first))
    (comma : first.current.kind = .symbol .comma)
    (readLimit : (expression fuel 0).run first.rest = .ok (limit, second))
    (opened : second.current.kind = .keyword .kDo) (inner : (block fuel).run second.rest = .ok (body, rest))
    (closed : rest.current.kind = .keyword .kEnd) :
    (loop (fuel + 1) position).run input =
      .ok (.numericFor position ⟨counter, input.current.position⟩ start limit none body, rest.rest) := by
  have stop : second.current.kind ≠ .symbol .comma := by simp [opened]
  simp only [loop, StateT.run_bind, run_name named, ok_bind, run_accept assigned, ↓reduceIte, readStart,
    run_symbol comma, readLimit, run_accept_other stop, Bool.false_eq_true, run_pure, run_keyword opened, inner,
    run_keyword closed]

theorem run_loop_step {position : Position} {counter : String} (named : input.current.kind = .name counter)
    (assigned : input.rest.current.kind = .symbol .assign) {start limit step : Expr Name}
    (readStart : (expression fuel 0).run input.rest.rest = .ok (start, first))
    (comma : first.current.kind = .symbol .comma)
    (readLimit : (expression fuel 0).run first.rest = .ok (limit, second))
    (again : second.current.kind = .symbol .comma)
    (readStep : (expression fuel 0).run second.rest = .ok (step, third))
    (opened : third.current.kind = .keyword .kDo) (inner : (block fuel).run third.rest = .ok (body, rest))
    (closed : rest.current.kind = .keyword .kEnd) :
    (loop (fuel + 1) position).run input =
      .ok (.numericFor position ⟨counter, input.current.position⟩ start limit (some step) body, rest.rest) := by
  simp only [loop, StateT.run_bind, run_name named, ok_bind, run_accept assigned, ↓reduceIte, readStart,
    run_symbol comma, readLimit, run_accept again, StateT.run_map, readStep, ok_map, run_pure,
    run_keyword opened, inner, run_keyword closed]

theorem run_loop_iterate {position : Position} {counter : String} (named : input.current.kind = .name counter)
    {further : List Name} (more : (moreNames fuel).run input.rest = .ok (further, first))
    (stop : input.rest.current.kind ≠ .symbol .assign) (within : first.current.kind = .keyword .kIn)
    {iterators : List (Expr Name)} (given : (expressions fuel).run first.rest = .ok (iterators, second))
    (opened : second.current.kind = .keyword .kDo) (inner : (block fuel).run second.rest = .ok (body, rest))
    (closed : rest.current.kind = .keyword .kEnd) :
    (loop (fuel + 1) position).run input =
      .ok (.genericFor position (⟨counter, input.current.position⟩ :: further) iterators body, rest.rest) := by
  simp only [loop, StateT.run_bind, run_name named, ok_bind, run_accept_other stop, Bool.false_eq_true, ↓reduceIte,
    more, run_keyword within, given, run_keyword opened, inner, run_keyword closed, run_pure]

theorem run_moreTargets_stop (stop : input.current.kind ≠ .symbol .comma) :
    (moreTargets (fuel + 1)).run input = .ok ([], input) := by
  simp only [moreTargets, StateT.run_bind, run_accept_other stop, ok_bind, Bool.false_eq_true, ↓reduceIte, run_pure]

theorem run_moreTargets_step (comma : input.current.kind = .symbol .comma) {target : Expr Name}
    (read : (suffixed fuel).run input.rest = .ok (target, first)) {further : List (Expr Name)}
    (more : (moreTargets fuel).run first = .ok (further, rest)) :
    (moreTargets (fuel + 1)).run input = .ok (target :: further, rest) := by
  simp only [moreTargets, StateT.run_bind, run_accept comma, ok_bind, ↓reduceIte, read, more, run_pure]

theorem run_assignment {position : Position} {target : Expr Name}
    (read : (suffixed fuel).run input = .ok (target, first))
    (found : first.current.kind = .symbol .assign ∨ first.current.kind = .symbol .comma) {targets : List (Expr Name)}
    (more : (moreTargets fuel).run first = .ok (targets, second)) (assigned : second.current.kind = .symbol .assign)
    {values : List (Expr Name)} (given : (expressions fuel).run second.rest = .ok (values, rest))
    (assignable : ∀ each ∈ target :: targets, each.isAssignable = true) :
    (assignmentOrCall (fuel + 1) position).run input = .ok (.assign position (target :: targets) values, rest) := by
  have none : (target :: targets).find? (!·.isAssignable) = none := by simpa using assignable
  have goes :
      (decide (first.current.kind = .symbol .assign) || decide (first.current.kind = .symbol .comma)) = true := by
    simpa using found
  simp only [assignmentOrCall, StateT.run_bind, read, ok_bind, run_current, goes, ↓reduceIte, more,
    run_symbol assigned, given, none, run_pure]

theorem run_call {position : Position} {applied : Expr Name} (read : (suffixed fuel).run input = .ok (applied, rest))
    (assign : rest.current.kind ≠ .symbol .assign) (comma : rest.current.kind ≠ .symbol .comma)
    (isCall : applied.isCall = true) (bare : applied.site.parenthesized = false) :
    (assignmentOrCall (fuel + 1) position).run input = .ok (.call position applied, rest) := by
  simp only [assignmentOrCall, StateT.run_bind, read, ok_bind, run_current, assign, comma, decide_false, Bool.or_false,
    Bool.false_eq_true, ↓reduceIte, isCall, bare, Bool.not_false, Bool.and_true, run_pure]

end Statements

/-- The input behind the semicolons in front. -/
def afterSemicolons (input : Input) : Input :=
  { input with tokens := input.tokens.dropWhile (·.kind = .symbol .semicolon) }

theorem afterSemicolons_self (other : input.current.kind ≠ .symbol .semicolon) : afterSemicolons input = input := by
  obtain ⟨tokens, finish⟩ := input
  cases tokens with
  | nil => rfl
  | cons token tokens =>
      have kept : decide (token.kind = .symbol .semicolon) = false := by simpa [Input.current] using other
      simp [afterSemicolons, kept]

theorem afterSemicolons_step (found : input.current.kind = .symbol .semicolon) :
    afterSemicolons input = afterSemicolons input.rest := by
  obtain ⟨tokens, finish⟩ := input
  cases tokens with
  | nil => rfl
  | cons token tokens =>
      have dropped : decide (token.kind = .symbol .semicolon) = true := by simpa [Input.current] using found
      simp [afterSemicolons, Input.rest, dropped]

theorem run_skip : (skip (.symbol .semicolon)).run input = .ok ((), afterSemicolons input) := rfl

section Blocks

theorem run_block_semicolon (found : input.current.kind = .symbol .semicolon) :
    (block (fuel + 1)).run input = (block (fuel + 1)).run input.rest := by
  simp only [block, StateT.run_bind, run_skip, ok_bind, afterSemicolons_step found]

theorem ne_semicolon_of_endsBlock (found : endsBlock input.current.kind = true) :
    input.current.kind ≠ .symbol .semicolon := by
  intro semicolon
  simp [semicolon, endsBlock] at found

theorem run_block_end (found : endsBlock input.current.kind = true) :
    (block (fuel + 1)).run input = .ok (.nil, input) := by
  have other := ne_semicolon_of_endsBlock found
  have going : input.current.kind ≠ .keyword .kReturn := by
    intro returning
    simp [returning, endsBlock] at found
  simp only [block, StateT.run_bind, run_skip, ok_bind, afterSemicolons_self other, run_current, going, ↓reduceIte,
    found, run_pure]

theorem run_block_statement (other : input.current.kind ≠ .symbol .semicolon)
    (going : input.current.kind ≠ .keyword .kReturn) (goesOn : endsBlock input.current.kind = false) {head : Stat Name}
    {middle : Input} (read : (statement fuel).run input = .ok (head, middle)) {tail : Block Name} {rest : Input}
    (more : (block fuel).run middle = .ok (tail, rest)) :
    (block (fuel + 1)).run input = .ok (.cons head tail, rest) := by
  simp only [block, StateT.run_bind, run_skip, ok_bind, afterSemicolons_self other, run_current, going, ↓reduceIte,
    goesOn, Bool.false_eq_true, read, more, run_pure]

theorem run_block_return_none (found : input.current.kind = .keyword .kReturn)
    (closed : endsBlock input.rest.current.kind = true) :
    (block (fuel + 1)).run input = .ok (.ret input.current.position [], input.rest) := by
  have other : input.current.kind ≠ .symbol .semicolon := by simp [found]
  simp only [block, StateT.run_bind, run_skip, ok_bind, afterSemicolons_self other, run_current, found, ↓reduceIte,
    run_advance, closed, Bool.true_or, run_pure, run_accept_other (ne_semicolon_of_endsBlock closed)]

theorem run_block_return (found : input.current.kind = .keyword .kReturn)
    (goesOn : endsBlock input.rest.current.kind = false) (separate : input.rest.current.kind ≠ .symbol .semicolon)
    {values : List (Expr Name)} {rest : Input} (given : (expressions fuel).run input.rest = .ok (values, rest))
    (closed : endsBlock rest.current.kind = true) :
    (block (fuel + 1)).run input = .ok (.ret input.current.position values, rest) := by
  have other : input.current.kind ≠ .symbol .semicolon := by simp [found]
  simp only [block, StateT.run_bind, run_skip, ok_bind, afterSemicolons_self other, run_current, found, ↓reduceIte,
    run_advance, goesOn, separate, decide_false, Bool.or_false, Bool.false_eq_true, given,
    run_accept_other (ne_semicolon_of_endsBlock closed), closed, run_pure]

theorem run_block_return_none_semicolon (found : input.current.kind = .keyword .kReturn)
    (semicolon : input.rest.current.kind = .symbol .semicolon)
    (closed : endsBlock input.rest.rest.current.kind = true) :
    (block (fuel + 1)).run input = .ok (.ret input.current.position [], input.rest.rest) := by
  have other : input.current.kind ≠ .symbol .semicolon := by simp [found]
  simp only [block, StateT.run_bind, run_skip, ok_bind, afterSemicolons_self other, run_current, found, ↓reduceIte,
    run_advance, semicolon, decide_true, Bool.or_true, run_pure, run_accept semicolon, closed]

theorem run_block_return_semicolon (found : input.current.kind = .keyword .kReturn)
    (goesOn : endsBlock input.rest.current.kind = false) (separate : input.rest.current.kind ≠ .symbol .semicolon)
    {values : List (Expr Name)} {rest : Input} (given : (expressions fuel).run input.rest = .ok (values, rest))
    (semicolon : rest.current.kind = .symbol .semicolon) (closed : endsBlock rest.rest.current.kind = true) :
    (block (fuel + 1)).run input = .ok (.ret input.current.position values, rest.rest) := by
  have other : input.current.kind ≠ .symbol .semicolon := by simp [found]
  simp only [block, StateT.run_bind, run_skip, ok_bind, afterSemicolons_self other, run_current, found, ↓reduceIte,
    run_advance, goesOn, separate, decide_false, Bool.or_false, Bool.false_eq_true, given, run_accept semicolon, closed,
    run_pure]

theorem run_chunk {body : Block Name} {rest : Input} (read : (block fuel).run input = .ok (body, rest))
    (finished : rest.current.kind = .eof) : (chunk fuel).run input = .ok (body, rest) := by
  simp only [chunk, StateT.run_bind, read, ok_bind, run_current, finished, ↓reduceIte, run_pure]

end Blocks

end Parser
end LuaMinifier
