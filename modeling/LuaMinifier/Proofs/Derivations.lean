import LuaMinifier.Proofs.Productions
import LuaMinifier.Proofs.ReadItems

/-!
What is read from tokens is derived from the grammar: each reader takes tokens that its nonterminal derives.
-/

namespace LuaMinifier

open Token

/-- The alternatives between which a phrase leaves the choice. -/
def Phrase.alternatives : Phrase → List Phrase
  | .either first second => first.alternatives ++ second.alternatives
  | phrase => [phrase]

theorem Derives.alternative {apart : List (List Kind) → Prop} {phrase chosen : Phrase} {kinds : List Kind}
    (among : chosen ∈ phrase.alternatives) (derives : Derives apart chosen kinds) : Derives apart phrase kinds := by
  induction phrase with
  | either first second left right =>
      rcases List.mem_append.mp among with among | among
      · exact .left (left among)
      · exact .right (right among)
  | keyword | symbol | name | numeral | string | the | seq | option | many =>
      obtain rfl := List.mem_singleton.mp among
      exact derives

/-- Tokens are derived from a phrase, with no condition on how statements follow each other. -/
def Derived (phrase : Phrase) (tokens : List Token) : Prop := Derives (fun _ => True) phrase (tokens.map (·.kind))

namespace Derived

variable {phrase first second item : Phrase} {tokens more : List Token} {nonterminal : Nonterminal}

theorem seq (front : Derived first tokens) (back : Derived second more) :
    Derived (first ++ second) (tokens ++ more) := by
  rw [Derived, List.map_append]
  exact Derives.seq front back

/-- A nonterminal derives what one of its alternatives does. -/
theorem produce {chosen : Phrase} (derived : Derived chosen tokens)
    (among : chosen ∈ (production nonterminal).alternatives) : Derived (.the nonterminal) tokens :=
  .the (.alternative among derived)

theorem none : Derived (.option phrase) [] := Derives.none

theorem some (derived : Derived phrase tokens) : Derived (.option phrase) tokens := Derives.some derived

theorem manyNil : Derived (.many phrase) [] := Derives.many [] (by simp) fun _ => trivial

theorem manyCons (front : Derived phrase tokens) (back : Derived (.many phrase) more) :
    Derived (.many phrase) (tokens ++ more) := by
  rw [Derived, List.map_append]
  rw [Derived] at back
  generalize more.map (·.kind) = kinds at back ⊢
  cases back with
  | many parts each _ => exact Derives.many (_ :: parts) (List.forall_mem_cons.mpr ⟨front, each⟩) fun _ => trivial

theorem symbol {token : Token} {sign : Symbol} (found : token.kind = .symbol sign) :
    Derived (.symbol sign) [token] := by
  rw [Derived, List.map_singleton, found]
  exact .symbol sign

theorem keyword {token : Token} {reserved : Keyword} (found : token.kind = .keyword reserved) :
    Derived (.keyword reserved) [token] := by
  rw [Derived, List.map_singleton, found]
  exact .keyword reserved

theorem name {token : Token} {text : String} (found : token.kind = .name text) : Derived .name [token] := by
  rw [Derived, List.map_singleton, found]
  exact .name text

theorem numeral {token : Token} {raw : String} (found : token.kind = .number raw) : Derived .numeral [token] := by
  rw [Derived, List.map_singleton, found]
  exact .numeral raw

theorem string {token : Token} {raw : String} (found : token.kind = .string raw) : Derived .string [token] := by
  rw [Derived, List.map_singleton, found]
  exact .string raw

theorem seq_inv (derived : Derived (first ++ second) tokens) :
    ∃ front back, tokens = front ++ back ∧ Derived first front ∧ Derived second back := by
  rw [Derived] at derived
  generalize same : tokens.map (·.kind) = kinds at derived
  cases derived with
  | seq before behind =>
      obtain ⟨front, back, rfl, rfl, rfl⟩ := List.map_eq_append_iff.mp same
      exact ⟨front, back, rfl, before, behind⟩

theorem the_inv (derived : Derived (.the nonterminal) tokens) : Derived (production nonterminal) tokens := by
  cases derived with
  | the inner => exact inner

theorem listCons {comma : List Token} (front : Derived item tokens) (between : Derived (.symbol .comma) comma)
    (back : Derived (item ++ .many (.symbol .comma ++ item)) more) :
    Derived (item ++ .many (.symbol .comma ++ item)) (tokens ++ (comma ++ more)) := by
  obtain ⟨next, others, rfl, second, further⟩ := back.seq_inv
  have whole := front.seq (manyCons (between.seq second) further)
  rwa [List.append_assoc] at whole

theorem listOne (derived : Derived item tokens) : Derived (item ++ .many (.symbol .comma ++ item)) tokens := by
  have others : Derived (.many (.symbol .comma ++ item)) [] := .manyNil
  simpa using derived.seq others

theorem manyAppend (front : Derived (.many phrase) tokens) (back : Derived (.many phrase) more) :
    Derived (.many phrase) (tokens ++ more) := by
  rw [Derived] at front back ⊢
  rw [List.map_append]
  generalize tokens.map (·.kind) = kinds at front ⊢
  generalize more.map (·.kind) = others at back ⊢
  cases front with
  | many parts each _ =>
      cases back with
      | many further rest _ =>
          rw [← List.flatten_append]
          exact .many _ (List.forall_mem_append.mpr ⟨each, rest⟩) fun _ => trivial

theorem either_inv (derived : Derived (.either first second) tokens) :
    Derived first tokens ∨ Derived second tokens := by
  rw [Derived] at derived
  cases derived with
  | left inner => exact .inl inner
  | right inner => exact .inr inner

theorem option_inv (derived : Derived (.option phrase) tokens) : tokens = [] ∨ Derived phrase tokens := by
  rw [Derived] at derived
  generalize same : tokens.map (·.kind) = kinds at derived
  cases derived with
  | none => exact .inl (List.map_eq_nil_iff.mp same)
  | some inner => exact .inr (by rwa [Derived, same])

theorem parameterCons {comma : List Token} (front : Derived .name tokens) (between : Derived (.symbol .comma) comma)
    (back : Derived (.the .parlist) more) : Derived (.the .parlist) (tokens ++ (comma ++ more)) := by
  obtain listed | dots := back.the_inv.either_inv
  · obtain ⟨names, rest, rfl, list, ending⟩ := listed.seq_inv
    have longer : Derived (.the .namelist) _ := (listCons front between list.the_inv).produce (by decide)
    exact .produce (by simpa using longer.seq ending) (by decide)
  · have single : Derived (.the .namelist) tokens := front.listOne.produce (by decide)
    exact .produce (single.seq (between.seq dots).some) (by decide)

theorem fieldCons {mark : List Token} (front : Derived (.the .field) tokens) (between : Derived (.the .fieldsep) mark)
    (back : Derived (.option (.the .fieldlist)) more) : Derived (.the .fieldlist) (tokens ++ (mark ++ more)) := by
  obtain rfl | listed := back.option_inv
  · have none : Derived (.many (.the .fieldsep ++ .the .field)) [] := .manyNil
    exact .produce (by simpa using (front.seq none).seq between.some) (by decide)
  · obtain ⟨fields, last, rfl, list, ending⟩ := listed.the_inv.seq_inv
    obtain ⟨next, others, rfl, second, further⟩ := list.seq_inv
    exact .produce (by simpa using (front.seq (manyCons (between.seq second) further)).seq ending) (by decide)

end Derived

namespace Parser

variable {α : Type} {input : Input}

/-- A reader of tokens that a phrase derives. -/
def Follows (reader : Parser α) (phrase : Phrase) : Prop := Consumes reader fun used _ => Derived phrase used

theorem follows_keyword (reserved : Keyword) : Follows (Parser.keyword reserved) (.keyword reserved) :=
  fun _ => (ConsumesAt.require (by simp)).imp fun _ _ ⟨taken, same⟩ => taken ▸ .keyword same

theorem follows_symbol (sign : Symbol) : Follows (Parser.symbol sign) (.symbol sign) :=
  fun _ => (ConsumesAt.require (by simp)).imp fun _ _ ⟨taken, same⟩ => taken ▸ .symbol same

theorem follows_name : Follows Parser.name .name :=
  fun _ => (consumes_name _).imp fun _ _ taken => taken ▸ .name rfl

theorem accepts_symbol (sign : Symbol) : Consumes (Parser.accept (.symbol sign)) fun used accepted =>
    if accepted then Derived (.symbol sign) used else used = [] := by
  intro input
  refine (ConsumesAt.accept (by simp)).imp fun used accepted taken => ?_
  cases accepted with
  | false => exact taken
  | true =>
      obtain ⟨rfl, same⟩ : used = [input.current] ∧ input.current.kind = .symbol sign := by simpa using taken
      exact .symbol same

theorem follows_repeated {sign : Symbol} {more : Parser (List Name)}
    (rest : Follows more (.many (.symbol sign ++ .name))) : Follows (do
      if ← accept (.symbol sign) then
        let first ← name
        return first :: (← more)
      else return []) (.many (.symbol sign ++ .name)) := by
  intro input
  refine (accepts_symbol _ _).bind fun accepted mark _ front => ?_
  cases accepted with
  | false =>
      obtain rfl : mark = [] := front
      exact .pure .manyNil
  | true =>
      refine (follows_name _).bind fun first used _ name => (rest _).bind fun _ others _ further => ?_
      exact .pure (by simpa using (Derived.seq front name).manyCons further)

theorem follows_moreNames : ∀ fuel, Follows (Parser.moreNames fuel) (.many (.symbol .comma ++ .name))
  | 0, _ => .tooDeep
  | fuel + 1, _ => follows_repeated (follows_moreNames fuel) _

theorem follows_moreFields : ∀ fuel, Follows (Parser.moreFields fuel) (.many (.symbol .dot ++ .name))
  | 0, _ => .tooDeep
  | fuel + 1, _ => follows_repeated (follows_moreFields fuel) _

theorem follows_functionName (fuel : Nat) : Follows (Parser.functionName fuel) (.the .funcname) := by
  intro input
  refine (follows_name _).bind fun root _ _ name => (follows_moreFields fuel _).bind fun fields _ _ rest =>
    (accepts_symbol _ _).bind fun accepted colon _ mark => ?_
  cases accepted with
  | false =>
      obtain rfl : colon = [] := mark
      have none : Derived (.option (.symbol .colon ++ .name)) [] := .none
      exact .pure (.produce (by simpa using (name.seq rest).seq none) (by decide))
  | true =>
      rw [if_pos rfl, ← bind_pure_comp, bind_assoc]
      refine (follows_name _).bind fun method _ _ called => .pure ?_
      exact .produce (by simpa using (name.seq rest).seq (Derived.seq mark called).some) (by decide)

theorem follows_someParameters : ∀ fuel, Follows (Parser.someParameters fuel) (.the .parlist)
  | 0, _ => .tooDeep
  | fuel + 1, input => by
    rw [Parser.someParameters]
    refine .current ((accepts_symbol _ _).bind fun accepted dots _ taken => ?_)
    cases accepted with
    | true => exact .pure (.produce (by simpa using taken) (by decide))
    | false =>
        obtain rfl : dots = [] := taken
        refine (follows_name _).bind fun first _ _ name => (accepts_symbol _ _).bind fun accepted comma _ mark => ?_
        cases accepted with
        | true =>
            refine (follows_someParameters fuel _).bind fun further _ _ rest => .pure ?_
            simpa using Derived.parameterCons name mark rest
        | false =>
            obtain rfl : comma = [] := mark
            have single : Derived (.the .namelist) _ := name.listOne.produce (by decide)
            have none : Derived (.option (.symbol .comma ++ .symbol .dotDotDot)) [] := .none
            exact .pure (.produce (by simpa using single.seq none) (by decide))

theorem follows_parameters (fuel : Nat) : Follows (Parser.parameters fuel)
    (.symbol .leftParen ++ .option (.the .parlist) ++ .symbol .rightParen) := by
  intro input
  refine (follows_symbol _ _).bind fun _ _ _ opened => (ConsumesAt.sees _).bind fun seen _ _ nothing => ?_
  subst nothing
  split
  · rw [pure_bind]
    refine (follows_symbol _ _).bind fun _ _ _ closed => .pure ?_
    have none : Derived (.option (.the .parlist)) [] := .none
    simpa using (opened.seq none).seq closed
  · refine (follows_someParameters fuel _).bind fun _ _ _ given =>
      (follows_symbol _ _).bind fun _ _ _ closed => .pure ?_
    simpa using (opened.seq given.some).seq closed

theorem derived_binop {token : Token} {operator : BinaryOp} (found : BinaryOp.ofToken? token.kind = some operator) :
    Derived (.the .binop) [token] := by
  have same := BinaryOp.token_of_ofToken found
  cases operator
  case or | and => exact .produce (.keyword same) (by decide)
  all_goals exact .produce (.symbol same) (by decide)

theorem derived_unop {token : Token} {operator : UnaryOp} (found : UnaryOp.ofToken? token.kind = some operator) :
    Derived (.the .unop) [token] := by
  have same := UnaryOp.token_of_ofToken found
  cases operator
  case not => exact .produce (.keyword same) (by decide)
  all_goals exact .produce (.symbol same) (by decide)

theorem derived_literal {token : Token} {kind : LiteralKind} {raw : String}
    (found : Parser.literalOf? token.kind = some (kind, raw)) : Derived (.the .exp) [token] := by
  unfold Parser.literalOf? at found
  split at found
  next same => exact .produce (.numeral same) (by decide)
  next same => exact .produce (.string same) (by decide)
  next same => exact .produce (.keyword same) (by decide)
  next same => exact .produce (.keyword same) (by decide)
  next same => exact .produce (.keyword same) (by decide)
  next same => exact .produce (.symbol same) (by decide)
  next => cases found

/-- What a value with suffixes is derived from: always a prefix expression, and a variable or a call if it is one. -/
structure Applied (value : Expr Name) (tokens : List Token) : Prop where
  base : Derived (.the .prefixexp) tokens
  target : value.isAssignable = true → Derived (.the .var) tokens
  call : value.isCall = true → value.site.parenthesized = false → Derived (.the .functioncall) tokens

theorem Applied.ofTarget {value : Expr Name} {tokens : List Token} (other : value.isCall = false)
    (derived : Derived (.the .var) tokens) : Applied value tokens :=
  ⟨.produce derived (by decide), fun _ => derived, fun call => by simp [other] at call⟩

theorem Applied.ofCall {value : Expr Name} {tokens : List Token} (isCall : value.isCall = true)
    (derived : Derived (.the .functioncall) tokens) : Applied value tokens := by
  refine ⟨.produce derived (by decide), fun assignable => ?_, fun _ _ => derived⟩
  cases value <;> simp [Expr.isCall, Expr.isAssignable] at isCall assignable

theorem derived_table {brace : Token} {tokens : List Token} (opened : brace.kind = .symbol .leftBrace)
    (inner : Derived (.option (.the .fieldlist) ++ .symbol .rightBrace) tokens) :
    Derived (.the .tableconstructor) (brace :: tokens) := by
  obtain ⟨fields, closed, rfl, listed, closing⟩ := inner.seq_inv
  exact .produce (by simpa using ((Derived.symbol opened).seq listed).seq closing) (by decide)

theorem skips_semicolons : Follows (Parser.skip (.symbol .semicolon)) (.many (.the .stat)) := by
  intro input value rest run
  cases run
  refine ⟨input.tokens.takeWhile (·.kind = .symbol .semicolon), List.takeWhile_append_dropWhile.symm, ?_⟩
  induction input.tokens with
  | nil => exact .manyNil
  | cons token tokens ih =>
      by_cases same : token.kind = .symbol .semicolon
      · have empty : Derived (.the .stat) [token] := .produce (.symbol same) (by decide)
        simpa [same] using empty.manyCons ih
      · simpa [same] using Derived.manyNil

theorem separates_field : Consumes Parser.fieldSeparator fun used separated =>
    if separated then Derived (.the .fieldsep) used else used = [] := by
  intro input
  refine (accepts_symbol _ _).bind fun accepted comma _ front => ?_
  cases accepted with
  | true => exact .pure (.produce (by simpa using front) (by decide))
  | false =>
      obtain rfl : comma = [] := front
      refine (accepts_symbol _ _).imp fun used separated taken => ?_
      cases separated with
      | true => exact .produce taken (by decide)
      | false => exact taken

/-- What the readers take with some fuel. -/
structure Parses (fuel : Nat) : Prop where
  expression : ∀ limit, Follows (Parser.expression fuel limit) (.the .exp)
  operations : ∀ limit position left, Consumes (Parser.operations fuel limit position left) fun used _ =>
    ∀ front, Derived (.the .exp) front → Derived (.the .exp) (front ++ used)
  operand : Follows (Parser.operand fuel) (.the .exp)
  suffixed : Consumes (Parser.suffixed fuel) fun used value => Applied value used
  suffixes : ∀ base, Consumes (Parser.suffixes fuel base) fun used value =>
    ∀ front, Applied base front → Applied value (front ++ used)
  arguments : ∀ callee, Consumes (Parser.arguments fuel callee) fun used value =>
    Derived (.the .args) used ∧ value.isCall = true
  expressions : Follows (Parser.expressions fuel) (.the .explist)
  fields : Follows (Parser.fields fuel) (.option (.the .fieldlist) ++ .symbol .rightBrace)
  field : Follows (Parser.field fuel) (.the .field)
  functionBody : Follows (Parser.functionBody fuel) (.the .funcbody)
  block : Follows (Parser.block fuel) (.the .block)
  statement : Follows (Parser.statement fuel) (.the .stat)
  branches : Follows (Parser.branches fuel)
    (.many (.keyword .kElseif ++ .the .exp ++ .keyword .kThen ++ .the .block) ++
      .option (.keyword .kElse ++ .the .block) ++ .keyword .kEnd)
  loop : ∀ position, Consumes (Parser.loop fuel position) fun used _ =>
    ∀ word : Token, word.kind = .keyword .kFor → Derived (.the .stat) (word :: used)
  assignmentOrCall : ∀ position, Follows (Parser.assignmentOrCall fuel position) (.the .stat)
  moreTargets : Consumes (Parser.moreTargets fuel) fun used targets =>
    (∀ target ∈ targets, target.isAssignable = true) → Derived (.many (.symbol .comma ++ .the .var)) used

namespace Parses

variable {fuel : Nat}

theorem zero : Parses 0 where
  expression _ _ := .tooDeep
  operations _ _ _ _ := .tooDeep
  operand _ := .tooDeep
  suffixed _ := .tooDeep
  suffixes _ _ := .tooDeep
  arguments _ _ := .tooDeep
  expressions _ := .tooDeep
  fields _ := .tooDeep
  field _ := .tooDeep
  functionBody _ := .tooDeep
  block _ := .tooDeep
  statement _ := .tooDeep
  branches _ := .tooDeep
  loop _ _ := .tooDeep
  assignmentOrCall _ _ := .tooDeep
  moreTargets _ := .tooDeep

variable (parses : Parses fuel)
include parses

theorem expression_step (limit : Nat) : Follows (Parser.expression (fuel + 1) limit) (.the .exp) := by
  intro input
  rw [Parser.expression]
  refine .current ?_
  split
  next operator found =>
    have token := UnaryOp.token_of_ofToken found
    refine .take (by rw [token]; cases operator <;> simp [UnaryOp.token]) ?_
    refine (parses.expression _ _).bind fun operand used _ inner => (parses.operations _ _ _ _).imp ?_
    intro others _ grown
    exact grown _ (.produce ((derived_unop found).seq inner) (by decide))
  next =>
    refine (parses.operand _).bind fun left used _ first => (parses.operations _ _ _ _).imp ?_
    intro others _ grown
    exact grown _ first

theorem operations_step (limit : Nat) (position : Position) (left : Expr Name) :
    Consumes (Parser.operations (fuel + 1) limit position left) fun used _ =>
      ∀ front, Derived (.the .exp) front → Derived (.the .exp) (front ++ used) := by
  intro input
  rw [Parser.operations]
  refine .current ?_
  split
  next => exact .pure fun front derived => by simpa using derived
  next operator found =>
    split
    next => exact .pure fun front derived => by simpa using derived
    next =>
      have token := BinaryOp.token_of_ofToken found
      refine .take (by rw [token]; cases operator <;> simp [BinaryOp.token]) ?_
      refine (parses.expression _ _).bind fun right used _ inner => (parses.operations _ _ _ _).imp ?_
      intro others _ grown front derived
      have joined : Derived (.the .exp) _ := .produce ((derived.seq (derived_binop found)).seq inner) (by decide)
      simpa using grown _ joined

theorem operand_step : Follows (Parser.operand (fuel + 1)) (.the .exp) := by
  intro input
  rw [Parser.operand]
  refine .current ?_
  split
  next kind raw found =>
    have token := LiteralKind.token_of_literalOf found
    exact .take (by rw [token]; cases kind <;> simp [LiteralKind.token]) (.pure (derived_literal found))
  next =>
    split
    next found =>
      refine .take (by simp [found]) ((parses.fields _).bind fun fields used _ inner => .pure ?_)
      exact .produce (by simpa using derived_table found inner) (by decide)
    next found =>
      refine .take (by simp [found]) ((parses.functionBody _).bind fun read used _ inner => .pure ?_)
      have definition : Derived (.the .functiondef) _ := .produce ((Derived.keyword found).seq inner) (by decide)
      exact .produce (by simpa using definition) (by decide)
    next => exact (parses.suffixed _).imp fun used value applied => .produce applied.base (by decide)

theorem suffixed_step : Consumes (Parser.suffixed (fuel + 1)) fun used value => Applied value used := by
  intro input
  rw [Parser.suffixed]
  refine .current ?_
  split
  next text found =>
    refine .take (by simp [found]) ((parses.suffixes _ _).imp fun others value grown => ?_)
    have named : Derived (.the .var) [input.current] := .produce (.name found) (by decide)
    exact grown [input.current] ⟨.produce named (by decide), fun _ => named, fun called => by cases called⟩
  next found =>
    refine .take (by simp [found]) ((parses.expression _ _).bind fun inner used _ first =>
      (follows_symbol _ _).bind fun _ closed _ back => (parses.suffixes _ _).imp fun others value grown => ?_)
    have enclosed : Derived (.the .prefixexp) _ := .produce (((Derived.symbol found).seq first).seq back) (by decide)
    have marked : inner.parenthesize.site.parenthesized = true := by cases inner <;> rfl
    have base : Applied inner.parenthesize _ :=
      ⟨enclosed, fun assignable => by simp [Expr.isAssignable, marked] at assignable,
        fun _ bare => by simp [marked] at bare⟩
    simpa using grown _ base
  next => exact .unexpected

theorem suffixes_step (base : Expr Name) : Consumes (Parser.suffixes (fuel + 1) base) fun used value =>
    ∀ front, Applied base front → Applied value (front ++ used) := by
  intro input
  rw [Parser.suffixes]
  refine .current ?_
  have called : ConsumesAt input (do Parser.suffixes fuel (← Parser.arguments fuel base)) fun used value =>
      ∀ front, Applied base front → Applied value (front ++ used) := by
    refine (parses.arguments _ _).bind fun call used _ given => (parses.suffixes _ _).imp ?_
    intro others value grown front applied
    have derived : Derived (.the .functioncall) _ := .produce (applied.base.seq given.1) (by decide)
    simpa using grown _ (.ofCall given.2 derived)
  split
  next found =>
    refine .take (by simp [found]) ((follows_name _).bind fun field used _ name => (parses.suffixes _ _).imp ?_)
    intro others value grown front applied
    have derived : Derived (.the .var) _ :=
      .produce ((applied.base.seq (Derived.symbol found)).seq name) (by decide)
    simpa using grown _ (.ofTarget rfl derived)
  next found =>
    refine .take (by simp [found]) ((parses.expression _ _).bind fun key used _ inner =>
      (follows_symbol _ _).bind fun _ closed _ back => (parses.suffixes _ _).imp ?_)
    intro others value grown front applied
    have derived : Derived (.the .var) _ :=
      .produce (((applied.base.seq (Derived.symbol found)).seq inner).seq back) (by decide)
    simpa using grown _ (.ofTarget rfl derived)
  next found =>
    refine .take (by simp [found]) ((follows_name _).bind fun method used _ name =>
      (parses.arguments _ _).bind fun call given _ arguments => (parses.suffixes _ _).imp ?_)
    intro others value grown front applied
    have derived : Derived (.the .functioncall) _ :=
      .produce (((applied.base.seq (Derived.symbol found)).seq name).seq arguments.1) (by decide)
    simpa using grown _ (.ofCall arguments.2 derived)
  next => exact called
  next => exact called
  next => exact called
  next => exact .pure fun front applied => by simpa using applied

theorem arguments_step (callee : Expr Name) : Consumes (Parser.arguments (fuel + 1) callee) fun used value =>
    Derived (.the .args) used ∧ value.isCall = true := by
  intro input
  rw [Parser.arguments]
  refine .current ?_
  split
  next found =>
    refine .take (by simp [found]) ((ConsumesAt.sees _).bind fun seen used _ nothing => ?_)
    subst nothing
    split
    · rw [pure_bind]
      refine (follows_symbol _ _).bind fun _ closed _ back => .pure ⟨?_, rfl⟩
      have none : Derived (.option (.the .explist)) [] := .none
      exact .produce (by simpa using ((Derived.symbol found).seq none).seq back) (by decide)
    · refine (parses.expressions _).bind fun given inner _ listed => (follows_symbol _ _).bind fun _ closed _ back =>
        .pure ⟨?_, rfl⟩
      exact .produce (by simpa using ((Derived.symbol found).seq listed.some).seq back) (by decide)
  next found =>
    refine .take (by simp [found]) ((parses.fields _).bind fun fields used _ inner => .pure ⟨?_, rfl⟩)
    exact .produce (by simpa using derived_table found inner) (by decide)
  next raw found => exact .take (by simp [found]) (.pure ⟨.produce (.string found) (by decide), rfl⟩)
  next => exact .unexpected

theorem expressions_step : Follows (Parser.expressions (fuel + 1)) (.the .explist) := by
  intro input
  rw [Parser.expressions]
  refine (parses.expression _ _).bind fun first used _ front =>
    (accepts_symbol _ _).bind fun accepted comma _ mark => ?_
  cases accepted with
  | true =>
      refine (parses.expressions _).bind fun further others _ rest => .pure ?_
      exact .produce (by simpa using Derived.listCons front mark rest.the_inv) (by decide)
  | false =>
      obtain rfl : comma = [] := mark
      exact .pure (.produce (by simpa using front.listOne) (by decide))

theorem fields_step : Follows (Parser.fields (fuel + 1)) (.option (.the .fieldlist) ++ .symbol .rightBrace) := by
  intro input
  rw [Parser.fields]
  refine (accepts_symbol _ _).bind fun accepted brace _ closed => ?_
  cases accepted with
  | true =>
      have none : Derived (.option (.the .fieldlist)) [] := .none
      exact .pure (by simpa using none.seq closed)
  | false =>
      obtain rfl : brace = [] := closed
      refine (parses.field _).bind fun first used _ front => (separates_field _).bind fun separated mark _ between => ?_
      cases separated with
      | true =>
          refine (parses.fields _).bind fun further others _ rest => .pure ?_
          obtain ⟨listed, last, rfl, list, ending⟩ := rest.seq_inv
          simpa using (Derived.fieldCons front between list).some.seq ending
      | false =>
          obtain rfl : mark = [] := between
          refine (follows_symbol _ _).bind fun _ last _ back => .pure ?_
          have none : Derived (.many (.the .fieldsep ++ .the .field)) [] := .manyNil
          have nothing : Derived (.option (.the .fieldsep)) [] := .none
          have single : Derived (.the .fieldlist) _ := .produce ((front.seq none).seq nothing) (by decide)
          simpa using single.some.seq back

theorem field_step : Follows (Parser.field (fuel + 1)) (.the .field) := by
  intro input
  rw [Parser.field]
  refine .get ?_
  split
  next position _ front =>
    refine .advance front ((parses.expression _ _).bind fun key used _ first => (follows_symbol _ _).bind
      fun _ closed _ back => (follows_symbol _ _).bind fun _ sign _ assign =>
        (parses.expression _ _).bind fun value others _ rest => .pure ?_)
    have opened : Derived (.symbol .leftBracket) [⟨.symbol .leftBracket, position⟩] := .symbol rfl
    exact .produce (by simpa using (((opened.seq first).seq back).seq assign).seq rest) (by decide)
  next text position place _ front =>
    refine .advance front (.advance (congrArg List.tail front) ?_)
    refine (parses.expression _ _).bind fun value others _ rest => .pure ?_
    have named : Derived .name [⟨.name text, position⟩] := .name rfl
    have assign : Derived (.symbol .assign) [⟨.symbol .assign, place⟩] := .symbol rfl
    exact .produce (by simpa using (named.seq assign).seq rest) (by decide)
  next =>
    refine (parses.expression _ _).bind fun value others _ rest => .pure ?_
    exact .produce (by simpa using rest) (by decide)

theorem functionBody_step : Follows (Parser.functionBody (fuel + 1)) (.the .funcbody) := by
  intro input
  rw [Parser.functionBody]
  refine (follows_parameters fuel _).bind fun given used _ front => (parses.block _).bind fun body inner _ middle =>
    (follows_keyword _ _).bind fun _ last _ back => .pure ?_
  exact .produce (by simpa using (front.seq middle).seq back) (by decide)

theorem block_step : Follows (Parser.block (fuel + 1)) (.the .block) := by
  intro input
  rw [Parser.block]
  refine (skips_semicolons _).bind fun _ skipped rest empty => .current ?_
  split
  next found =>
    have closed : ∀ (values : List (Expr Name)) (behind : Input), ConsumesAt behind (do
        let _ ← Parser.accept (.symbol .semicolon)
        unless Parser.endsBlock (← Parser.current).kind do Parser.unexpected (.keyword .kEnd)
        return Block.ret rest.current.position values) fun used _ => Derived (.option (.symbol .semicolon)) used := by
      intro values behind
      refine (accepts_symbol _ _).bind fun accepted mark _ last => .current ?_
      have ending : Derived (.option (.symbol .semicolon)) mark := by
        cases accepted with
        | true => exact Derived.some last
        | false =>
            obtain rfl : mark = [] := last
            exact .none
      split
      · exact .pure (by simpa using ending)
      · exact .halt
    refine .take (by simp [found]) (.current ?_)
    dsimp only
    split
    · rw [pure_bind]
      refine (closed [] _).imp fun used value last => ?_
      have none : Derived (.option (.the .explist)) [] := .none
      have returned : Derived (.the .retstat) _ := .produce (((Derived.keyword found).seq none).seq last) (by decide)
      exact .produce (by simpa using empty.seq returned.some) (by decide)
    · refine (parses.expressions _).bind fun values used _ given => (closed values _).imp fun others value last => ?_
      have returned : Derived (.the .retstat) _ :=
        .produce (((Derived.keyword found).seq given.some).seq last) (by decide)
      exact .produce (by simpa using empty.seq returned.some) (by decide)
  next =>
    split
    · have none : Derived (.option (.the .retstat)) [] := .none
      exact .pure (.produce (by simpa using empty.seq none) (by decide))
    · refine (parses.statement _).bind fun head used _ first => (parses.block _).bind fun tail others _ back => .pure ?_
      obtain ⟨statements, last, rfl, listed, returned⟩ := back.the_inv.seq_inv
      exact .produce (by simpa using (empty.manyAppend (first.manyCons listed)).seq returned) (by decide)

theorem branches_step : Follows (Parser.branches (fuel + 1))
    (.many (.keyword .kElseif ++ .the .exp ++ .keyword .kThen ++ .the .block) ++
      .option (.keyword .kElse ++ .the .block) ++ .keyword .kEnd) := by
  intro input
  rw [Parser.branches]
  refine .current ?_
  have none : Derived (.many (.keyword .kElseif ++ .the .exp ++ .keyword .kThen ++ .the .block)) [] := .manyNil
  split
  next found =>
    refine .take (by simp [found]) ((parses.expression _ _).bind fun condition used _ test =>
      (follows_keyword _ _).bind fun _ word _ middle => (parses.block _).bind fun body inner _ first =>
        (parses.branches _).bind fun further others _ rest => .pure ?_)
    obtain ⟨more, last, rfl, listed, ending⟩ := rest.seq_inv
    obtain ⟨branches, otherwise, rfl, branch, final⟩ := listed.seq_inv
    have longer := ((((Derived.keyword found).seq test).seq middle).seq first).manyCons branch
    simpa using (longer.seq final).seq ending
  next found =>
    refine .take (by simp [found]) ((parses.block _).bind fun body inner _ first =>
      (follows_keyword _ _).bind fun _ last _ back => .pure ?_)
    simpa using (none.seq ((Derived.keyword found).seq first).some).seq back
  next =>
    refine (follows_keyword _ _).bind fun _ last _ back => .pure ?_
    have nothing : Derived (.option (.keyword .kElse ++ .the .block)) [] := .none
    simpa using (none.seq nothing).seq back

theorem loop_step (position : Position) : Consumes (Parser.loop (fuel + 1) position) fun used _ =>
    ∀ word : Token, word.kind = .keyword .kFor → Derived (.the .stat) (word :: used) := by
  intro input
  rw [Parser.loop]
  refine (follows_name _).bind fun counter used _ name => (accepts_symbol _ _).bind fun accepted sign _ mark => ?_
  cases accepted with
  | true =>
      refine (parses.expression _ _).bind fun first _ _ start => (follows_symbol _ _).bind fun _ _ _ comma =>
        (parses.expression _ _).bind fun limit _ _ stop => (accepts_symbol _ _).bind fun accepted _ _ further => ?_
      cases accepted with
      | true =>
          rw [if_pos rfl]
          simp only [bind_map_left]
          refine (parses.expression _ _).bind fun step _ _ stride => (follows_keyword _ _).bind fun _ _ _ opened =>
            (parses.block _).bind fun body _ _ inner => (follows_keyword _ _).bind fun _ _ _ last =>
              .pure fun word found => ?_
          have front := (((((Derived.keyword found).seq name).seq mark).seq start).seq comma).seq stop
          have whole := (((front.seq (Derived.seq further stride).some).seq opened).seq inner).seq last
          exact .produce (by simpa using whole) (by decide)
      | false =>
          obtain rfl := further
          rw [if_neg (by simp), pure_bind]
          refine (follows_keyword _ _).bind fun _ _ _ opened => (parses.block _).bind fun body _ _ inner =>
            (follows_keyword _ _).bind fun _ _ _ last => .pure fun word found => ?_
          have none : Derived (.option (.symbol .comma ++ .the .exp)) [] := .none
          have front := (((((Derived.keyword found).seq name).seq mark).seq start).seq comma).seq stop
          have whole := (((front.seq none).seq opened).seq inner).seq last
          exact .produce (by simpa using whole) (by decide)
  | false =>
      obtain rfl := mark
      refine (follows_moreNames fuel _).bind fun further _ _ others => (follows_keyword _ _).bind fun _ _ _ within =>
        (parses.expressions _).bind fun iterators _ _ given => (follows_keyword _ _).bind fun _ _ _ opened =>
          (parses.block _).bind fun body _ _ inner => (follows_keyword _ _).bind fun _ _ _ last =>
            .pure fun word found => ?_
      have names : Derived (.the .namelist) _ := .produce (name.seq others) (by decide)
      have whole := ((((((Derived.keyword found).seq names).seq within).seq given).seq opened).seq inner).seq last
      exact .produce (by simpa using whole) (by decide)

theorem moreTargets_step : Consumes (Parser.moreTargets (fuel + 1)) fun used targets =>
    (∀ target ∈ targets, target.isAssignable = true) → Derived (.many (.symbol .comma ++ .the .var)) used := by
  intro input
  rw [Parser.moreTargets]
  refine (accepts_symbol _ _).bind fun accepted comma _ mark => ?_
  cases accepted with
  | true =>
      refine (parses.suffixed _).bind fun target used _ first => (parses.moreTargets _).bind
        fun further others _ rest => .pure fun assignable => ?_
      rw [List.forall_mem_cons] at assignable
      simpa using (Derived.seq mark (first.target assignable.1)).manyCons (rest assignable.2)
  | false =>
      obtain rfl := mark
      exact .pure fun _ => .manyNil

theorem assignmentOrCall_step (position : Position) :
    Follows (Parser.assignmentOrCall (fuel + 1) position) (.the .stat) := by
  intro input
  rw [Parser.assignmentOrCall]
  refine (parses.suffixed _).bind fun first used _ front => .current ?_
  dsimp only
  split
  next =>
    refine (parses.moreTargets _).bind fun targets _ _ others => (follows_symbol _ _).bind fun _ _ _ sign =>
      (parses.expressions _).bind fun values _ _ given => ?_
    split
    next => exact .fail
    next none =>
      have assignable : ∀ target ∈ first :: targets, target.isAssignable = true := by simpa using none
      rw [List.forall_mem_cons] at assignable
      have targets : Derived (.the .varlist) _ :=
        .produce ((front.target assignable.1).seq (others assignable.2)) (by decide)
      exact .pure (.produce (by simpa using (targets.seq sign).seq given) (by decide))
  next =>
    split
    next call =>
      simp only [Bool.and_eq_true, Bool.not_eq_eq_eq_not, Bool.not_true] at call
      exact .pure (.produce (by simpa using front.call call.1 call.2) (by decide))
    next => exact .fail

theorem statement_step : Follows (Parser.statement (fuel + 1)) (.the .stat) := by
  intro input
  rw [Parser.statement]
  refine .current ?_
  dsimp only
  split
  next found =>
    refine .take (by simp [found]) ((parses.expression _ _).bind fun condition _ _ test =>
      (follows_keyword _ _).bind fun _ _ _ word => (parses.block _).bind fun body _ _ inner =>
        (parses.branches _).bind fun rest _ _ others => .pure ?_)
    obtain ⟨more, last, rfl, listed, ending⟩ := others.seq_inv
    obtain ⟨branches, otherwise, rfl, branch, final⟩ := listed.seq_inv
    have front := (((Derived.keyword found).seq test).seq word).seq inner
    exact .produce (by simpa using ((front.seq branch).seq final).seq ending) (by decide)
  next found =>
    refine .take (by simp [found]) ((parses.expression _ _).bind fun condition _ _ test =>
      (follows_keyword _ _).bind fun _ _ _ word => (parses.block _).bind fun body _ _ inner =>
        (follows_keyword _ _).bind fun _ _ _ last => .pure ?_)
    exact .produce (by simpa using ((((Derived.keyword found).seq test).seq word).seq inner).seq last) (by decide)
  next found =>
    refine .take (by simp [found]) ((parses.block _).bind fun body _ _ inner =>
      (follows_keyword _ _).bind fun _ _ _ last => .pure ?_)
    exact .produce (by simpa using ((Derived.keyword found).seq inner).seq last) (by decide)
  next found =>
    exact .take (by simp [found]) ((parses.loop _ _).imp fun used loop derived => derived _ found)
  next found =>
    refine .take (by simp [found]) ((parses.block _).bind fun body _ _ inner =>
      (follows_keyword _ _).bind fun _ _ _ word => (parses.expression _ _).bind fun condition _ _ test => .pure ?_)
    exact .produce (by simpa using (((Derived.keyword found).seq inner).seq word).seq test) (by decide)
  next found =>
    refine .take (by simp [found]) ((follows_functionName fuel _).bind fun called _ _ name =>
      (parses.functionBody _).bind fun read _ _ inner => .pure ?_)
    exact .produce (by simpa using ((Derived.keyword found).seq name).seq inner) (by decide)
  next found =>
    refine .take (by simp [found]) ((ConsumesAt.accept (by simp)).bind fun accepted word behind taken => ?_)
    cases accepted with
    | true =>
        obtain ⟨rfl, same⟩ : word = [input.rest.current] ∧ input.rest.current.kind = .keyword .kFunction := by
          simpa using taken
        refine (follows_name _).bind fun called _ _ name => (parses.functionBody _).bind fun read _ _ inner => .pure ?_
        have front := (Derived.keyword found).seq (Derived.keyword same)
        exact .produce (by simpa using (front.seq name).seq inner) (by decide)
    | false =>
        obtain rfl : word = [] := by simpa using taken
        refine (follows_name _).bind fun first _ _ name => (follows_moreNames fuel _).bind fun further _ _ others =>
          (accepts_symbol _ _).bind fun given sign _ mark => ?_
        have names : Derived (.the .namelist) _ := .produce (name.seq others) (by decide)
        have front := (Derived.keyword found).seq names
        cases given with
        | true =>
            refine (parses.expressions _).bind fun values _ _ given => .pure ?_
            exact .produce (by simpa using front.seq (Derived.seq mark given).some) (by decide)
        | false =>
            obtain rfl : sign = [] := mark
            have none : Derived (.option (.symbol .assign ++ .the .explist)) [] := .none
            exact .pure (.produce (by simpa using front.seq none) (by decide))
  next found =>
    refine .take (by simp [found]) ((follows_name _).bind fun label _ _ name =>
      (follows_symbol _ _).bind fun _ _ _ last => .pure ?_)
    have label : Derived (.the .label) _ := .produce (((Derived.symbol found).seq name).seq last) (by decide)
    exact .produce (by simpa using label) (by decide)
  next found =>
    refine .take (by simp [found]) ((follows_name _).bind fun label _ _ name => .pure ?_)
    exact .produce (by simpa using (Derived.keyword found).seq name) (by decide)
  next found => exact .take (by simp [found]) (.pure (.produce (.keyword found) (by decide)))
  next => exact parses.assignmentOrCall _ _

theorem succ : Parses (fuel + 1) where
  expression := parses.expression_step
  operations := parses.operations_step
  operand := parses.operand_step
  suffixed := parses.suffixed_step
  suffixes := parses.suffixes_step
  arguments := parses.arguments_step
  expressions := parses.expressions_step
  fields := parses.fields_step
  field := parses.field_step
  functionBody := parses.functionBody_step
  block := parses.block_step
  statement := parses.statement_step
  branches := parses.branches_step
  loop := parses.loop_step
  assignmentOrCall := parses.assignmentOrCall_step
  moreTargets := parses.moreTargets_step

end Parses

theorem parses : ∀ fuel, Parses fuel
  | 0 => .zero
  | fuel + 1 => (parses fuel).succ

end Parser

/-- The tokens that a tree was read from are derived from the grammar, if the end of the text is not among them. -/
theorem Block.derived_of_ofTokens {lexed : Lexed} {body : Block Name}
    (inside : ∀ token ∈ lexed.tokens, token.kind ≠ .eof) (read : Block.ofTokens lexed = .ok body) :
    Derived (.the .chunk) lexed.tokens := by
  obtain ⟨⟨rest, _⟩, run, finished⟩ := Block.run_of_ofTokens read
  obtain ⟨used, front, derived⟩ := (Parser.parses _).block _ _ _ run
  have whole : used = lexed.tokens := by
    cases rest with
    | nil => simpa using front.symm
    | cons token others => exact absurd finished (inside token (by rw [show lexed.tokens = _ from front]; simp))
  exact .produce (whole ▸ derived) (by decide)

end LuaMinifier
