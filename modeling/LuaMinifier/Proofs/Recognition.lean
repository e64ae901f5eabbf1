import LuaMinifier.Proofs.AcceptStatements
import LuaMinifier.Proofs.Derivations
import LuaMinifier.Proofs.Leaves

/-!
The parser reads the grammar of the manual. All that it reads is derived from the grammar, and what has a derivation
whose statements stand apart is read.
-/

namespace LuaMinifier

open Token

namespace Parser

/-- What is read where tokens come from a nonterminal. -/
def Recognized : Nonterminal → List Kind → Prop
  | .chunk | .block => Body
  | .stat => Line
  | .retstat => Return
  | .label => Statement
  | .funcname => Accepts functionName 1 (· = .symbol .leftParen)
  | .varlist => Targets
  | .var => Leads Expr.isAssignable
  | .namelist => fun kinds => ∃ first texts, kinds = .name first :: namesBehind .comma texts
  | .explist => Expressions
  | .exp => Chain
  | .prefixexp => Leads fun _ => true
  | .functioncall => Leads isDirectCall
  | .args => Arguments
  | .functiondef => Operand
  | .funcbody => FunctionBody
  | .parlist => SomeParameters
  | .tableconstructor => fun kinds => ∃ inner, kinds = .symbol .leftBrace :: inner ∧ Fields inner
  | .fieldlist => fun kinds => Fields (kinds ++ [.symbol .rightBrace])
  | .field => OneField
  | .fieldsep => IsSeparator
  | .binop => fun kinds => ∃ operator : BinaryOp, kinds = [operator.token]
  | .unop => fun kinds => ∃ operator : UnaryOp, kinds = [operator.token]

/-- What the right side of a production says about the parser. -/
def Produces (nonterminal : Nonterminal) (kinds : List Kind) : Prop :=
  (production nonterminal).Holds Apart Recognized kinds

variable {kinds : List Kind}

theorem names_of_parts {sign : Symbol} {parts : List (List Kind)}
    (each : ∀ part ∈ parts, (Phrase.seq (.symbol sign) .name).Holds Apart Recognized part) :
    ∃ texts, parts.flatten = namesBehind sign texts := by
  refine exists_namesBehind fun part member => ?_
  obtain ⟨_, rfl, _, ⟨text, rfl⟩, rfl⟩ := each part member
  exact ⟨text, rfl⟩

theorem recognized_block (holds : Produces .block kinds) : Body kinds := by
  obtain ⟨_, ⟨parts, each, apart, rfl⟩, _, last, rfl⟩ := holds
  exact body_of_parts each (apart rfl) last

theorem recognized_stat (holds : Produces .stat kinds) : Line kinds := by
  -- one line for each alternative of the production
  obtain rfl |
    ⟨_, ⟨_, targets, _, rfl, rfl⟩, _, values, rfl⟩ |
    call |
    label |
    rfl |
    ⟨_, rfl, _, ⟨text, rfl⟩, rfl⟩ |
    ⟨_, ⟨_, rfl, _, inner, rfl⟩, _, rfl, rfl⟩ |
    ⟨_, ⟨_, ⟨_, ⟨_, rfl, _, test, rfl⟩, _, rfl, rfl⟩, _, inner, rfl⟩, _, rfl, rfl⟩ |
    ⟨_, ⟨_, ⟨_, rfl, _, inner, rfl⟩, _, rfl, rfl⟩, _, test, rfl⟩ |
    ⟨_, ⟨_, ⟨_, ⟨_, ⟨_, ⟨_, rfl, _, test, rfl⟩, _, rfl, rfl⟩, _, inner, rfl⟩, _, ⟨parts, each, -, rfl⟩, rfl⟩,
      _, otherwise, rfl⟩, _, rfl, rfl⟩ |
    ⟨_, ⟨_, ⟨_, ⟨_, ⟨_, ⟨_, ⟨_, ⟨_, ⟨_, rfl, _, ⟨text, rfl⟩, rfl⟩, _, rfl, rfl⟩, _, start, rfl⟩, _, rfl, rfl⟩,
      _, limit, rfl⟩, _, step, rfl⟩, _, rfl, rfl⟩, _, inner, rfl⟩, _, rfl, rfl⟩ |
    ⟨_, ⟨_, ⟨_, ⟨_, ⟨_, ⟨_, rfl, _, ⟨text, texts, rfl⟩, rfl⟩, _, rfl, rfl⟩, _, given, rfl⟩, _, rfl, rfl⟩,
      _, inner, rfl⟩, _, rfl, rfl⟩ |
    ⟨_, ⟨_, rfl, _, called, rfl⟩, _, inner, rfl⟩ |
    ⟨_, ⟨_, ⟨_, rfl, _, rfl, rfl⟩, _, ⟨text, rfl⟩, rfl⟩, _, inner, rfl⟩ |
    ⟨_, ⟨_, rfl, _, ⟨text, texts, rfl⟩, rfl⟩, _, values, rfl⟩ := holds
  · exact .inl rfl
  · exact .inr (by simpa using statement_assign targets values)
  · exact .inr (statement_call call)
  · exact .inr label
  · exact .inr statement_break
  · exact .inr (statement_goto text)
  · exact .inr (statement_do inner)
  · exact .inr (by simpa using statement_while test inner)
  · exact .inr (by simpa using statement_repeat inner test)
  · have branches : ∀ part ∈ parts, ∃ test body, Chain test ∧ Body body ∧
        part = .keyword .kElseif :: test ++ .keyword .kThen :: body := by
      intro part member
      obtain ⟨_, ⟨_, ⟨_, rfl, test, tested, rfl⟩, _, rfl, rfl⟩, body, inner, rfl⟩ := each part member
      exact ⟨test, body, tested, inner, by simp⟩
    obtain rfl | ⟨_, rfl, _, last, rfl⟩ := otherwise
    · exact .inr (by simpa using statement_if test inner (branches_of_parts branches_end branches))
    · exact .inr (by simpa using statement_if test inner (branches_of_parts (branches_else last) branches))
  · obtain rfl | ⟨_, rfl, _, step, rfl⟩ := step
    · exact .inr (by simpa using statement_loop (accepts_loop_count start limit inner))
    · exact .inr (by simpa using statement_loop (accepts_loop_step start limit step inner))
  · exact .inr (by simpa using statement_loop (accepts_loop_iterate given inner))
  · exact .inr (statement_function called inner)
  · exact .inr (statement_localFunction text inner)
  · obtain rfl | ⟨_, rfl, _, given, rfl⟩ := values
    · exact .inr (by simpa using statement_localNames)
    · exact .inr (by simpa using statement_localValues given)

theorem recognized_retstat (holds : Produces .retstat kinds) : Return kinds := by
  obtain ⟨_, ⟨_, rfl, _, rfl | values, rfl⟩, _, last, rfl⟩ := holds
  · exact return_none last
  · exact return_values values last

theorem recognized_funcname (holds : Produces .funcname kinds) :
    Accepts functionName 1 (· = .symbol .leftParen) kinds := by
  obtain ⟨_, ⟨_, ⟨first, rfl⟩, _, ⟨parts, each, -, rfl⟩, rfl⟩, ending, last, rfl⟩ := holds
  obtain ⟨texts, same⟩ := names_of_parts each
  rw [same]
  refine accepts_functionName (last.imp_right ?_)
  rintro ⟨_, rfl, _, ⟨text, rfl⟩, rfl⟩
  exact ⟨text, rfl⟩

theorem recognized_varlist (holds : Produces .varlist kinds) : Targets kinds := by
  obtain ⟨first, target, _, ⟨parts, each, -, rfl⟩, rfl⟩ := holds
  refine ⟨first, parts, rfl, target, fun part member => ?_⟩
  obtain ⟨_, rfl, other, target, rfl⟩ := each part member
  exact ⟨other, rfl, target⟩

theorem recognized_var (holds : Produces .var kinds) : Leads Expr.isAssignable kinds := by
  obtain ⟨text, rfl⟩ | ⟨_, ⟨_, ⟨_, base, _, rfl, rfl⟩, _, key, rfl⟩, _, rfl, rfl⟩ |
    ⟨_, ⟨_, base, _, rfl, rfl⟩, _, ⟨text, rfl⟩, rfl⟩ := holds
  · exact leads_name text
  · simpa using Leads.index base key
  · simpa using Leads.field base text

theorem recognized_explist (holds : Produces .explist kinds) : Expressions kinds := by
  obtain ⟨_, chain, _, ⟨parts, each, -, rfl⟩, rfl⟩ := holds
  refine expressions_of_chains chain fun part member => ?_
  obtain ⟨_, rfl, other, chain, rfl⟩ := each part member
  exact ⟨other, rfl, chain⟩

theorem recognized_exp (holds : Produces .exp kinds) : Chain kinds := by
  obtain rfl | rfl | rfl | ⟨raw, rfl⟩ | ⟨raw, rfl⟩ | rfl | operand | leads | ⟨inner, rfl, fields⟩ |
    ⟨_, ⟨_, left, _, ⟨operator, rfl⟩, rfl⟩, _, right, rfl⟩ | ⟨_, ⟨operator, rfl⟩, _, inner, rfl⟩ := holds
  · exact .operand (operand_literal rfl)
  · exact .operand (operand_literal rfl)
  · exact .operand (operand_literal rfl)
  · exact .operand (operand_literal rfl)
  · exact .operand (operand_literal rfl)
  · exact .operand (operand_literal rfl)
  · exact .operand operand
  · exact .operand (Leads.operand leads)
  · exact .operand (operand_table fields)
  · simpa using Chain.append operator left right
  · exact .unary operator inner

theorem recognized_prefixexp (holds : Produces .prefixexp kinds) : Leads (fun _ => true) kinds := by
  obtain base | call | ⟨_, ⟨_, rfl, _, inner, rfl⟩, _, rfl, rfl⟩ := holds
  · exact Leads.weaken base fun _ _ => rfl
  · exact Leads.weaken call fun _ _ => rfl
  · exact leads_paren inner

theorem recognized_functioncall (holds : Produces .functioncall kinds) : Leads isDirectCall kinds := by
  obtain ⟨_, base, _, given, rfl⟩ | ⟨_, ⟨_, ⟨_, base, _, rfl, rfl⟩, _, ⟨text, rfl⟩, rfl⟩, _, given, rfl⟩ := holds
  · exact Leads.call base given
  · simpa using Leads.method base text given

theorem recognized_args (holds : Produces .args kinds) : Arguments kinds := by
  obtain ⟨_, ⟨_, rfl, _, rfl | values, rfl⟩, _, rfl, rfl⟩ | ⟨inner, rfl, fields⟩ | ⟨raw, rfl⟩ := holds
  · exact arguments_none
  · exact arguments_list values
  · exact arguments_table fields
  · exact arguments_string raw

theorem recognized_funcbody (holds : Produces .funcbody kinds) : FunctionBody kinds := by
  obtain ⟨_, ⟨_, ⟨_, ⟨_, rfl, _, given, rfl⟩, _, rfl, rfl⟩, _, inner, rfl⟩, _, rfl, rfl⟩ := holds
  simpa using functionBody_block given inner

theorem recognized_parlist (holds : Produces .parlist kinds) : SomeParameters kinds := by
  obtain ⟨_, ⟨first, texts, rfl⟩, ending, last, rfl⟩ | rfl := holds
  · refine someParameters_names (last.imp_right ?_)
    rintro ⟨_, rfl, _, rfl, rfl⟩
    rfl
  · exact someParameters_vararg

theorem recognized_tableconstructor (holds : Produces .tableconstructor kinds) :
    ∃ inner, kinds = .symbol .leftBrace :: inner ∧ Fields inner := by
  obtain ⟨_, ⟨_, rfl, _, rfl | fields, rfl⟩, _, rfl, rfl⟩ := holds
  · exact ⟨_, rfl, fields_end⟩
  · exact ⟨_, rfl, fields⟩

theorem recognized_fieldlist (holds : Produces .fieldlist kinds) : Fields (kinds ++ [.symbol .rightBrace]) := by
  obtain ⟨_, ⟨_, first, _, ⟨parts, each, -, rfl⟩, rfl⟩, _, last, rfl⟩ := holds
  exact fields_of_parts first each last

theorem recognized_field (holds : Produces .field kinds) : OneField kinds := by
  obtain ⟨_, ⟨_, ⟨_, ⟨_, rfl, _, key, rfl⟩, _, rfl, rfl⟩, _, rfl, rfl⟩, _, value, rfl⟩ |
    ⟨_, ⟨_, ⟨text, rfl⟩, _, rfl, rfl⟩, _, value, rfl⟩ | value := holds
  · simpa using field_keyed key value
  · exact field_named text value
  · exact field_item value

theorem recognized_binop (holds : Produces .binop kinds) : ∃ operator : BinaryOp, kinds = [operator.token] := by
  obtain rfl | rfl | rfl | rfl | rfl | rfl | rfl | rfl | rfl | rfl | rfl | rfl | rfl | rfl | rfl | rfl | rfl | rfl |
    rfl | rfl | rfl := holds
  exacts [⟨.add, rfl⟩, ⟨.subtract, rfl⟩, ⟨.multiply, rfl⟩, ⟨.divide, rfl⟩, ⟨.floorDivide, rfl⟩, ⟨.power, rfl⟩,
    ⟨.modulo, rfl⟩, ⟨.bitAnd, rfl⟩, ⟨.bitXor, rfl⟩, ⟨.bitOr, rfl⟩, ⟨.shiftRight, rfl⟩, ⟨.shiftLeft, rfl⟩,
    ⟨.concat, rfl⟩, ⟨.lessThan, rfl⟩, ⟨.lessEqual, rfl⟩, ⟨.greaterThan, rfl⟩, ⟨.greaterEqual, rfl⟩, ⟨.equal, rfl⟩,
    ⟨.notEqual, rfl⟩, ⟨.and, rfl⟩, ⟨.or, rfl⟩]

theorem recognized_unop (holds : Produces .unop kinds) : ∃ operator : UnaryOp, kinds = [operator.token] := by
  obtain rfl | rfl | rfl | rfl := holds
  exacts [⟨.negate, rfl⟩, ⟨.not, rfl⟩, ⟨.length, rfl⟩, ⟨.bitNot, rfl⟩]

theorem recognized_of_produces (nonterminal : Nonterminal) (holds : Produces nonterminal kinds) :
    Recognized nonterminal kinds := by
  cases nonterminal with
  | chunk => exact holds
  | block => exact recognized_block holds
  | stat => exact recognized_stat holds
  | retstat => exact recognized_retstat holds
  | label =>
      obtain ⟨_, ⟨_, rfl, _, ⟨text, rfl⟩, rfl⟩, _, rfl, rfl⟩ := holds
      exact statement_label text
  | funcname => exact recognized_funcname holds
  | varlist => exact recognized_varlist holds
  | var => exact recognized_var holds
  | namelist =>
      obtain ⟨_, ⟨first, rfl⟩, _, ⟨parts, each, -, rfl⟩, rfl⟩ := holds
      obtain ⟨texts, same⟩ := names_of_parts each
      exact ⟨first, texts, by rw [same]; rfl⟩
  | explist => exact recognized_explist holds
  | exp => exact recognized_exp holds
  | prefixexp => exact recognized_prefixexp holds
  | functioncall => exact recognized_functioncall holds
  | args => exact recognized_args holds
  | functiondef =>
      obtain ⟨_, rfl, _, inner, rfl⟩ := holds
      exact operand_function inner
  | funcbody => exact recognized_funcbody holds
  | parlist => exact recognized_parlist holds
  | tableconstructor => exact recognized_tableconstructor holds
  | fieldlist => exact recognized_fieldlist holds
  | field => exact recognized_field holds
  | fieldsep => exact holds
  | binop => exact recognized_binop holds
  | unop => exact recognized_unop holds

end Parser

/-- What has a derivation whose statements stand apart is read. -/
theorem Block.ofTokens_of_derives {lexed : Lexed}
    (derives : Derives Apart (.the .chunk) (lexed.tokens.map (·.kind))) : ∃ body, Block.ofTokens lexed = .ok body := by
  have recognized : Parser.Body (lexed.tokens.map (·.kind)) :=
    derives.holds fun nonterminal _ => Parser.recognized_of_produces nonterminal
  obtain ⟨body, run⟩ := recognized (8 * lexed.tokens.length + 8) (by rw [List.length_map]; omega)
    (Input.begins_tokens rfl) rfl
  exact ⟨body, by rw [Block.ofTokens, Parser.run_chunk run rfl]; rfl⟩

/-- The parser reads the grammar of the manual: the tokens of a text that it accepts are a chunk of the grammar, and
those of a text are accepted if they are a chunk in which every statement that starts with a parenthesis is the first
of its block or stands directly behind a semicolon. -/
theorem Block.ofTokens_grammar {source : String} {lexed : Lexed} (found : tokenize source = .ok lexed) :
    ((∃ body, Block.ofTokens lexed = .ok body) →
      Derives (fun _ => True) (.the .chunk) (lexed.tokens.map (·.kind))) ∧
    (Derives Apart (.the .chunk) (lexed.tokens.map (·.kind)) → ∃ body, Block.ofTokens lexed = .ok body) := by
  refine ⟨?_, Block.ofTokens_of_derives⟩
  rintro ⟨body, read⟩
  exact Block.derived_of_ofTokens (Lexed.ne_eof_of_ofText found) read

/-- The semicolon keeps the parenthesis behind it from being read as the arguments of a call. -/
theorem Block.ofTokens_grammar_semicolon : ∃ lexed, tokenize "f();(g)()" = .ok lexed ∧
    Derives Apart (.the .chunk) (lexed.tokens.map (·.kind)) ∧ (∃ body, Block.ofTokens lexed = .ok body) ∧
    Derives (fun _ => True) (.the .chunk) (lexed.tokens.map (·.kind)) := by
  have kinds : (tokenize "f();(g)()").toOption.map (·.tokens.map (·.kind)) = some [.name "f", .symbol .leftParen,
      .symbol .rightParen, .symbol .semicolon, .symbol .leftParen, .name "g", .symbol .rightParen, .symbol .leftParen,
      .symbol .rightParen] := by
    decide +kernel
  have named (text : String) : Derives Apart (.the .prefixexp) [.name text] :=
    .produce (.inl (.produce (.inl ⟨text, rfl⟩)))
  have grouped : Derives Apart (.the .prefixexp) [.symbol .leftParen, .name "g", .symbol .rightParen] :=
    have inner : Derives Apart (.the .exp) [.name "g"] :=
      .produce (.inr (.inr (.inr (.inr (.inr (.inr (.inr (.inl (named "g")))))))))
    .produce (.inr (.inr ⟨_, ⟨_, rfl, _, inner, rfl⟩, _, rfl, rfl⟩))
  have none : Derives Apart (.the .args) [.symbol .leftParen, .symbol .rightParen] :=
    .produce (.inl ⟨_, ⟨_, rfl, _, .inl rfl, rfl⟩, _, rfl, rfl⟩)
  have called {callee : List Kind} (base : Derives Apart (.the .prefixexp) callee) :
      Derives Apart (.the .stat) (callee ++ [.symbol .leftParen, .symbol .rightParen]) :=
    .produce (.inr (.inr (.inl (.produce (.inl ⟨_, base, _, none, rfl⟩)))))
  have empty : Derives Apart (.the .stat) [.symbol .semicolon] := .produce (.inl rfl)
  have each : ∀ part ∈ [[.name "f", .symbol .leftParen, .symbol .rightParen], [.symbol .semicolon], _],
      Derives Apart (.the .stat) part :=
    List.forall_mem_cons.mpr ⟨called (named "f"), List.forall_mem_cons.mpr ⟨empty, List.forall_mem_cons.mpr
      ⟨called grouped, List.forall_mem_nil _⟩⟩⟩
  have derives : Derives Apart (.the .chunk) _ :=
    .produce (.produce ⟨_, ⟨_, each, fun _ => by simp [Apart], rfl⟩, _, .inl rfl, rfl⟩)
  cases found : tokenize "f();(g)()" with
  | error => cases found ▸ kinds
  | ok lexed =>
      rw [found] at kinds
      have chunk : Derives Apart (.the .chunk) (lexed.tokens.map (·.kind)) := by
        rw [show lexed.tokens.map (·.kind) = _ from Option.some.inj kinds]
        exact derives
      obtain ⟨sound, complete⟩ := Block.ofTokens_grammar found
      exact ⟨lexed, rfl, chunk, complete chunk, sound (complete chunk)⟩

/-- Where the statements do not stand apart, two assignments can be refused: the second one goes on as a call. -/
example : (tokenize "a=b(c).x=d" >>= Block.ofTokens).toBool = false := by decide +kernel

end LuaMinifier
