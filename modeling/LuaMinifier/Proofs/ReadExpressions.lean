import LuaMinifier.Proofs.Grouping
import LuaMinifier.Proofs.Runs

/-!
Reading expressions back from their tokens. Each kind of expression is read from its tokens, given fuel for them, if
its parts are: up to the operators behind it, up to the suffixes behind it, or up to the arguments it is called with.
-/

namespace LuaMinifier

open Token

variable {ι : Type}

theorem LiteralKind.literalOf_token {kind : LiteralKind} {raw : String}
    (spelled : raw.toList = (kind.token raw).chars) : Parser.literalOf? (kind.token raw) = some (kind, raw) := by
  cases kind with
  | string => rfl
  | number => rfl
  | nil =>
      obtain rfl : raw = "nil" := String.toList_inj.mp spelled
      rfl
  | vararg =>
      obtain rfl : raw = "..." := String.toList_inj.mp spelled
      rfl
  | boolean =>
      by_cases same : raw = "true"
      · subst same
        rfl
      · simp only [LiteralKind.token, same, ↓reduceIte] at spelled ⊢
        obtain rfl : raw = "false" := String.toList_inj.mp spelled
        rfl

theorem LiteralKind.unary_token (kind : LiteralKind) (raw : String) : UnaryOp.ofToken? (kind.token raw) = none := by
  cases kind with
  | boolean =>
      simp only [LiteralKind.token]
      split <;> rfl
  | _ => rfl

namespace Expr

/-- The same expression without parentheses around it. -/
def bare : Expr ι → Expr ι
  | .identifier site occurrence => .identifier { site with parenthesized := false } occurrence
  | .literal site kind raw => .literal { site with parenthesized := false } kind raw
  | .binary site operator left right => .binary { site with parenthesized := false } operator left right
  | .unary site operator operand => .unary { site with parenthesized := false } operator operand
  | .call site callee arguments => .call { site with parenthesized := false } callee arguments
  | .callTable site callee position fields =>
    .callTable { site with parenthesized := false } callee position fields
  | .callString site callee position raw => .callString { site with parenthesized := false } callee position raw
  | .index site base key => .index { site with parenthesized := false } base key
  | .member site base access name => .member { site with parenthesized := false } base access name
  | .function site parameters body => .function { site with parenthesized := false } parameters body
  | .table site fields => .table { site with parenthesized := false } fields

theorem bare_of_unmarked {expression : Expr ι} (unmarked : expression.site.parenthesized = false) :
    expression.bare = expression := by
  cases expression <;> simp only [site] at unmarked <;> simp [bare, ← unmarked]

theorem kinds_of_marked (text : ι → String) {expression : Expr ι} (marked : expression.site.parenthesized = true) :
    expression.kinds text = .symbol .leftParen :: expression.bare.kinds text ++ [.symbol .rightParen] := by
  cases expression <;> simp only [site] at marked <;> simp [kinds, Site.enclose, bare, marked]

/-- A tree read from tokens is a given one, positions apart. -/
def IsReadAs (text : ι → String) (expression : Expr ι) (read : Expr Name) : Prop :=
  read.view .exact Name.text false = expression.view .exact text false

theorem view_exact_base {κ : Type} (see : ι → κ) (expression : Expr ι) (asBase : Bool) :
    expression.view .exact see asBase = expression.view .exact see false := by
  cases expression <;> rfl

theorem IsReadAs.parenthesize {text : ι → String} {expression : Expr ι} {read : Expr Name}
    (same : expression.bare.IsReadAs text read) (marked : expression.site.parenthesized = true) :
    expression.IsReadAs text read.parenthesize := by
  unfold IsReadAs at same ⊢
  cases expression <;> cases read <;> simp_all [bare, Expr.parenthesize, Expr.view, Site.view, Detail.keeps, site]

/-- Whether a token behind an expression is not read as a part of it. -/
def StopsAt (expression : Expr ι) (kind : Kind) : Prop :=
  Parser.startsSuffix kind = false ∧ ∀ operator, BinaryOp.ofToken? kind = some operator →
    expression.HoldsRight operator.leftPower

/-- Whether an expression is a method about to be called. -/
def isMethod : Expr ι → Bool
  | .member _ _ .colon _ => true
  | _ => false

/-- With fuel for its tokens, an expression is read up to the operators behind it. -/
def ReadsExpression (text : ι → String) (expression : Expr ι) : Prop :=
  ∀ (fuel limit : Nat) {input rest : Input}, 8 * (expression.kinds text).length + 3 ≤ fuel →
    input.Begins (expression.kinds text) rest → expression.HoldsLeft limit → expression.StopsAt rest.current.kind →
    ∃ left position read, fuel ≤ left + 8 * (expression.kinds text).length ∧ expression.IsReadAs text read ∧
      (Parser.expression fuel limit).run input = (Parser.operations left limit position read).run rest

/-- With fuel for its tokens, an expression is read up to the suffixes behind it. -/
def ReadsSuffixed (text : ι → String) (expression : Expr ι) : Prop :=
  ∀ (fuel : Nat) {input rest : Input}, 8 * (expression.kinds text).length + 1 ≤ fuel →
    input.Begins (expression.kinds text) rest →
    ∃ left read, fuel + 4 ≤ left + 8 * (expression.kinds text).length ∧ expression.IsReadAs text read ∧
      (Parser.suffixed fuel).run input = (Parser.suffixes left read).run rest

/-- With fuel for its tokens, an expression is read up to the arguments it is called with. -/
def ReadsCalled (text : ι → String) (expression : Expr ι) : Prop :=
  ∀ (fuel : Nat) {input rest : Input}, 8 * (expression.kinds text).length + 1 ≤ fuel →
    input.Begins (expression.kinds text) rest → Parser.startsArguments rest.current.kind = true →
    ∃ left read, fuel + 3 ≤ left + 8 * (expression.kinds text).length ∧ expression.IsReadAs text read ∧
      (Parser.suffixed fuel).run input =
        ((Parser.arguments left read).run rest >>= fun (applied, rest) => (Parser.suffixes left applied).run rest)

variable {text : ι → String} {expression : Expr ι}

theorem holdsLeft_zero : ∀ expression : Expr ι, expression.HoldsLeft 0
  | .binary _ operator left _ => .inr ⟨by cases operator <;> decide, holdsLeft_zero left⟩
  | .identifier .. | .literal .. | .unary .. | .call .. | .callTable .. | .callString .. | .index .. | .member ..
  | .function .. | .table .. => trivial

theorem ReadsSuffixed.readsCalled (reads : expression.ReadsSuffixed text) : expression.ReadsCalled text := by
  intro fuel input rest enough begins found
  obtain ⟨left, read, spent, same, run⟩ := reads fuel enough begins
  obtain ⟨fuel, rfl⟩ : ∃ fuel, left = fuel + 1 := ⟨left - 1, by omega⟩
  exact ⟨fuel, read, by omega, same, by rw [run, Parser.run_suffixes_arguments found]⟩

theorem ReadsSuffixed.readsExpression (reads : expression.ReadsSuffixed text)
    (head : HeadIs Kind.startsSuffixed (expression.kinds text)) : expression.ReadsExpression text := by
  intro fuel limit input rest enough begins _ stops
  obtain ⟨first, kinds, split, start⟩ := head
  have found : input.current.kind = first := by
    rw [split] at begins
    exact begins.current
  have positive : 0 < (expression.kinds text).length := by simp [split]
  obtain ⟨fuel, rfl⟩ := exists_spare fuel 2 (by omega)
  obtain ⟨left, read, spent, same, run⟩ := reads fuel (by omega) begins
  obtain ⟨left, rfl⟩ := exists_spare left 1 (by omega)
  refine ⟨fuel + 1, input.current.position, read, by omega, same, ?_⟩
  have other : UnaryOp.ofToken? input.current.kind = none := by
    rw [found]
    cases first with
    | symbol sign => cases sign <;> first | rfl | simp [Kind.startsSuffixed] at start
    | keyword reserved => simp [Kind.startsSuffixed] at start
    | _ => rfl
  rw [Parser.run_expression_operand other, Parser.run_operand_suffixed (by rw [found]; exact start), run,
    Parser.run_suffixes_stop stops.1]
  rfl

theorem ReadsExpression.readsSuffixed (reads : expression.bare.ReadsExpression text)
    (marked : expression.site.parenthesized = true) : expression.ReadsSuffixed text := by
  intro fuel input rest enough begins
  rw [kinds_of_marked text marked] at enough begins
  have opened := begins.current
  obtain ⟨middle, inner, closed⟩ := begins.tail.split
  obtain ⟨fuel, rfl⟩ := exists_spare fuel 1 (by omega)
  simp only [List.length_append, List.length_cons, List.length_nil] at enough
  obtain ⟨left, position, read, spent, same, run⟩ := reads fuel 0 (by omega) inner
    (holdsLeft_zero _) ⟨by rw [closed.current]; rfl, by simp [closed.current, BinaryOp.ofToken?]⟩
  obtain ⟨left, rfl⟩ := exists_spare left 1 (by omega)
  rw [Parser.run_operations_stop (by simp [closed.current, BinaryOp.ofToken?])] at run
  refine ⟨fuel, read.parenthesize, ?_, same.parenthesize marked, ?_⟩
  · rw [kinds_of_marked text marked]
    simp only [List.length_append, List.length_cons, List.length_nil]
    omega
  · rw [Parser.run_suffixed_paren opened run closed.current, closed.tail.nil]

/-- How an expression can be read: as an operand, before suffixes, and before arguments. -/
structure Readable (text : ι → String) (expression : Expr ι) : Prop where
  operand : expression.isMethod = false → expression.ReadsExpression text
  suffixed : expression.isMethod = false → expression.isSuffixable = true → expression.ReadsSuffixed text
  called : expression.isSuffixable = true → expression.ReadsCalled text

theorem Readable.of_suffixed (reads : expression.ReadsSuffixed text)
    (head : HeadIs Kind.startsSuffixed (expression.kinds text)) : expression.Readable text :=
  ⟨fun _ => reads.readsExpression head, fun _ _ => reads, fun _ => reads.readsCalled⟩

theorem marked_head (marked : expression.site.parenthesized = true) :
    HeadIs Kind.startsSuffixed (expression.kinds text) := by
  rw [kinds_of_marked text marked]
  exact ⟨_, _, rfl, rfl⟩

theorem Readable.of_bare_expression (reads : expression.bare.ReadsExpression text)
    (plain : expression.bare.isSuffixable = false) : expression.Readable text := by
  by_cases marked : expression.site.parenthesized = true
  · exact .of_suffixed (reads.readsSuffixed marked) (marked_head marked)
  · rw [bare_of_unmarked (by simpa using marked)] at reads plain
    exact ⟨fun _ => reads, by simp [plain], by simp [plain]⟩

theorem Readable.of_bare_suffixed (reads : expression.bare.ReadsSuffixed text)
    (head : HeadIs Kind.startsSuffixed (expression.bare.kinds text)) : expression.Readable text := by
  by_cases marked : expression.site.parenthesized = true
  · exact .of_suffixed ((reads.readsExpression head).readsSuffixed marked) (marked_head marked)
  · rw [bare_of_unmarked (by simpa using marked)] at reads head
    exact .of_suffixed reads head

theorem stopsAt_boundary {kind : Kind} (boundary : Parser.isBoundary kind = true) (expression : Expr ι) :
    expression.StopsAt kind := by
  simp only [Parser.isBoundary, Bool.and_eq_true, Bool.not_eq_true', Option.isNone_iff_eq_none] at boundary
  exact ⟨boundary.1, by simp [boundary.2]⟩

/-- An expression is read as a whole where no operator behind it is strong enough. -/
theorem ReadsExpression.whole (reads : expression.ReadsExpression text) (fuel limit : Nat) {input rest : Input}
    (enough : 8 * (expression.kinds text).length + 3 ≤ fuel) (begins : input.Begins (expression.kinds text) rest)
    (holds : expression.HoldsLeft limit) (stops : expression.StopsAt rest.current.kind)
    (weak : ∀ operator, BinaryOp.ofToken? rest.current.kind = some operator → operator.leftPower ≤ limit) :
    ∃ read, expression.IsReadAs text read ∧ (Parser.expression fuel limit).run input = .ok (read, rest) := by
  obtain ⟨left, position, read, spent, same, run⟩ := reads fuel limit enough begins holds stops
  obtain ⟨left, rfl⟩ := exists_spare left 1 (by omega)
  exact ⟨read, same, by rw [run, Parser.run_operations_stop weak]⟩

theorem ReadsExpression.bounded (reads : expression.ReadsExpression text) (fuel : Nat) {input rest : Input}
    (enough : 8 * (expression.kinds text).length + 3 ≤ fuel) (begins : input.Begins (expression.kinds text) rest)
    (boundary : Parser.isBoundary rest.current.kind = true) :
    ∃ read, expression.IsReadAs text read ∧ (Parser.expression fuel 0).run input = .ok (read, rest) := by
  refine reads.whole fuel 0 enough begins (holdsLeft_zero _) (stopsAt_boundary boundary _) ?_
  simp only [Parser.isBoundary, Bool.and_eq_true, Option.isNone_iff_eq_none] at boundary
  simp [boundary.2]

section Nodes

variable {position : Position}

theorem reads_identifier (occurrence : ι) : (identifier ⟨position, false⟩ occurrence).ReadsSuffixed text := by
  intro fuel input rest enough begins
  simp only [kinds, Site.enclose, Bool.false_eq_true, ↓reduceIte, List.length_cons, List.length_nil] at enough begins ⊢
  obtain ⟨fuel, rfl⟩ := exists_spare fuel 1 (by omega)
  refine ⟨fuel, _, by omega, ?_, by rw [Parser.run_suffixed_name begins.current, begins.tail.nil]⟩
  simp [IsReadAs, Expr.view, Site.view, Site.plain, Detail.keeps]

theorem reads_index {base key : Expr ι} (carried : base.ReadsSuffixed text) (inner : key.ReadsExpression text) :
    (index ⟨position, false⟩ base key).ReadsSuffixed text := by
  intro fuel input rest enough begins
  simp only [kinds, Site.enclose, Bool.false_eq_true, ↓reduceIte, List.append_assoc, List.cons_append,
    List.length_append, List.length_cons, List.length_nil] at enough begins ⊢
  obtain ⟨middle, front, opened⟩ := begins.split
  obtain ⟨last, middleKey, closed⟩ := opened.tail.split
  obtain ⟨left, read, spent, same, run⟩ := carried fuel (by omega) front
  obtain ⟨left, rfl⟩ := exists_spare left 1 (by omega)
  obtain ⟨readKey, sameKey, runKey⟩ := inner.bounded left (by omega) middleKey (by rw [closed.current]; rfl)
  refine ⟨left, _, by omega, ?_, by
    rw [run, Parser.run_suffixes_index opened.current runKey closed.current, closed.tail.nil]⟩
  simp_all [IsReadAs, Expr.view, Site.view, Site.plain, Detail.keeps, view_exact_base _ _ true]

theorem reads_field {base : Expr ι} {name : Name} (carried : base.ReadsSuffixed text) :
    (member ⟨position, false⟩ base .dot name).ReadsSuffixed text := by
  intro fuel input rest enough begins
  simp only [kinds, Site.enclose, Bool.false_eq_true, ↓reduceIte, List.length_append, List.length_cons,
    List.length_nil] at enough begins ⊢
  obtain ⟨middle, front, behind⟩ := begins.split
  obtain ⟨left, read, spent, same, run⟩ := carried fuel (by omega) front
  obtain ⟨left, rfl⟩ := exists_spare left 1 (by omega)
  refine ⟨left, _, by omega, ?_, by
    rw [run, Parser.run_suffixes_dot behind.current behind.tail.current, behind.tail.tail.nil]⟩
  simp_all [IsReadAs, Expr.view, Site.view, Site.plain, Detail.keeps, view_exact_base _ _ true, Name.view]

theorem reads_method {base : Expr ι} {name : Name} (carried : base.ReadsSuffixed text) :
    (member ⟨position, false⟩ base .colon name).ReadsCalled text := by
  intro fuel input rest enough begins _
  simp only [kinds, Site.enclose, Bool.false_eq_true, ↓reduceIte, List.length_append, List.length_cons,
    List.length_nil] at enough begins ⊢
  obtain ⟨middle, front, behind⟩ := begins.split
  obtain ⟨left, read, spent, same, run⟩ := carried fuel (by omega) front
  obtain ⟨left, rfl⟩ := exists_spare left 1 (by omega)
  refine ⟨left, _, by omega, ?_, by
    rw [run, Parser.run_suffixes_method behind.current behind.tail.current, behind.tail.tail.nil]⟩
  simp_all [IsReadAs, Expr.view, Site.view, Site.plain, Detail.keeps, view_exact_base _ _ true, Name.view]

theorem reads_applied {applied callee : Expr ι} {behind : List Kind}
    (same : applied.kinds text = callee.kinds text ++ behind) (start : HeadIs Parser.startsArguments behind)
    (called : callee.ReadsCalled text)
    (given : ∀ (fuel : Nat) {read : Expr Name} {input rest : Input}, 8 * behind.length ≤ fuel →
      input.Begins behind rest → callee.IsReadAs text read →
      ∃ result, applied.IsReadAs text result ∧ (Parser.arguments fuel read).run input = .ok (result, rest)) :
    applied.ReadsSuffixed text := by
  intro fuel input rest enough begins
  rw [same] at begins
  rw [same, List.length_append] at enough ⊢
  obtain ⟨middle, front, arguments⟩ := begins.split
  have opens : Parser.startsArguments middle.current.kind = true := by
    obtain ⟨first, more, rfl, opens⟩ := start
    rw [arguments.current]
    exact opens
  have some : behind.length ≠ 0 := by simpa using start.ne_nil
  obtain ⟨left, read, spent, isRead, run⟩ := called fuel (by omega) front opens
  obtain ⟨result, isResult, runArguments⟩ := given left (by omega) arguments isRead
  exact ⟨left, result, by omega, isResult, by rw [run, runArguments]; rfl⟩

theorem reads_callString {callee : Expr ι} {raw : String} (called : callee.ReadsCalled text) {place : Position} :
    (callString ⟨position, false⟩ callee place raw).ReadsSuffixed text := by
  have same : (callString ⟨position, false⟩ callee place raw).kinds text = callee.kinds text ++ [.string raw] := rfl
  refine reads_applied same ⟨_, _, rfl, rfl⟩ called ?_
  intro fuel read input rest enough begins isRead
  obtain ⟨fuel, rfl⟩ := exists_spare fuel 1 (by simp at enough; omega)
  refine ⟨_, ?_, by rw [Parser.run_arguments_string begins.current, begins.tail.nil]⟩
  simp_all [IsReadAs, Expr.view, Site.view, Site.plain, Detail.keeps, view_exact_base _ _ true]

/-- Trees read from tokens are given ones, positions apart. -/
def AllReadAs (text : ι → String) (expressions : List (Expr ι)) (read : List (Expr Name)) : Prop :=
  Expr.viewAll .exact Name.text read = Expr.viewAll .exact text expressions

/-- With fuel for their tokens, expressions with commas between them are read. -/
def ReadsList (text : ι → String) (expressions : List (Expr ι)) : Prop :=
  ∀ (fuel : Nat) {input rest : Input}, 8 * (listed true (Expr.kindsAll text expressions)).length + 4 ≤ fuel →
    input.Begins (listed true (Expr.kindsAll text expressions)) rest → Parser.isBoundary rest.current.kind = true →
    rest.current.kind ≠ .symbol .comma →
    ∃ read, AllReadAs text expressions read ∧ (Parser.expressions fuel).run input = .ok (read, rest)

theorem reads_list {first : Expr ι} {others : List (Expr ι)} (head : first.ReadsExpression text)
    (tail : others ≠ [] → ReadsList text others) : ReadsList text (first :: others) := by
  intro fuel input rest enough begins boundary stop
  obtain ⟨fuel, rfl⟩ := exists_spare fuel 1 (by omega)
  cases others with
  | nil =>
      simp only [kindsAll, listed, List.append_nil] at enough begins
      obtain ⟨read, same, run⟩ := head.bounded fuel (by omega) begins boundary
      refine ⟨[read], ?_, Parser.run_expressions_last run stop⟩
      simp_all [AllReadAs, IsReadAs, Expr.viewAll]
  | cons second others =>
      simp only [kindsAll, listed, List.cons_append, List.length_append, List.length_cons] at enough begins
      obtain ⟨middle, front, behind⟩ := begins.split
      obtain ⟨read, same, run⟩ := head.bounded fuel (by omega) front (by rw [behind.current]; rfl)
      obtain ⟨further, sameFurther, runFurther⟩ := tail (by simp) fuel
        (by simp only [kindsAll, listed, List.length_append]; omega) behind.tail boundary stop
      refine ⟨read :: further, ?_, Parser.run_expressions_more run behind.current runFurther⟩
      simp_all [AllReadAs, IsReadAs, Expr.viewAll]

theorem reads_call {callee : Expr ι} {arguments : List (Expr ι)} (called : callee.ReadsCalled text)
    (given : arguments ≠ [] → ReadsList text arguments) :
    (call ⟨position, false⟩ callee arguments).ReadsSuffixed text := by
  have same : (call ⟨position, false⟩ callee arguments).kinds text =
      callee.kinds text ++ (.symbol .leftParen :: listed true (kindsAll text arguments) ++ [.symbol .rightParen]) := by
    simp [kinds, Site.enclose]
  refine reads_applied same ⟨_, _, rfl, rfl⟩ called ?_
  intro fuel read input rest enough begins isRead
  simp only [List.length_append, List.length_cons, List.length_nil] at enough
  obtain ⟨fuel, rfl⟩ := exists_spare fuel 1 (by omega)
  have opened := begins.current
  cases arguments with
  | nil =>
      refine ⟨_, ?_, by rw [Parser.run_arguments_none opened begins.tail.current, begins.tail.tail.nil]⟩
      simp_all [IsReadAs, Expr.view, Expr.viewAll, Site.view, Site.plain, Detail.keeps, view_exact_base _ _ true]
  | cons first others =>
      obtain ⟨middle, inner, closed⟩ := begins.tail.split
      obtain ⟨results, isResults, run⟩ := given (by simp) fuel (by omega) inner (by rw [closed.current]; rfl)
        (by simp [closed.current])
      obtain ⟨start, more, split, opens⟩ := listed_head text others (first.kinds_head text)
      have other : input.rest.current.kind ≠ .symbol .rightParen := by
        rw [split] at inner
        rw [inner.current]
        rintro rfl
        simp [Kind.opens] at opens
      refine ⟨_, ?_, by rw [Parser.run_arguments_list opened other run closed.current, closed.tail.nil]⟩
      simp_all [IsReadAs, AllReadAs, Expr.view, Site.view, Site.plain, Detail.keeps, view_exact_base _ _ true]

theorem reads_literal {kind : LiteralKind} {raw : String} (spelled : raw.toList = (kind.token raw).chars) :
    (literal ⟨position, false⟩ kind raw).ReadsExpression text := by
  intro fuel limit input rest enough begins _ _
  simp only [kinds, Site.enclose, Bool.false_eq_true, ↓reduceIte, List.length_cons, List.length_nil] at enough begins ⊢
  obtain ⟨fuel, rfl⟩ := exists_spare fuel 2 (by omega)
  have isLiteral : Parser.literalOf? input.current.kind = some (kind, raw) := by
    rw [begins.current]
    exact LiteralKind.literalOf_token spelled
  have other : UnaryOp.ofToken? input.current.kind = none := by
    rw [begins.current]
    exact kind.unary_token raw
  refine ⟨fuel + 1, input.current.position, _, by omega, ?_, by
    rw [Parser.run_expression_operand other, Parser.run_operand_literal isLiteral, begins.tail.nil]
    rfl⟩
  simp [IsReadAs, Expr.view, Site.view, Site.plain, Detail.keeps]

theorem reads_unary {operator : UnaryOp} {operand : Expr ι} (inner : operand.ReadsExpression text)
    (grouped : operand.HoldsLeft UnaryOp.power) :
    (unary ⟨position, false⟩ operator operand).ReadsExpression text := by
  intro fuel limit input rest enough begins _ stops
  simp only [kinds, Site.enclose, Bool.false_eq_true, ↓reduceIte, List.length_cons] at enough begins ⊢
  obtain ⟨fuel, rfl⟩ := exists_spare fuel 1 (by omega)
  have found : UnaryOp.ofToken? input.current.kind = some operator := by
    rw [begins.current]
    cases operator <;> rfl
  have held : ∀ behind, BinaryOp.ofToken? rest.current.kind = some behind →
      behind.leftPower ≤ UnaryOp.power ∧ operand.HoldsRight behind.leftPower := by
    intro behind seen
    simpa [HoldsRight] using stops.2 behind seen
  obtain ⟨read, same, run⟩ := inner.whole fuel UnaryOp.power (by omega) begins.tail grouped
    ⟨stops.1, fun behind seen => (held behind seen).2⟩ fun behind seen => (held behind seen).1
  refine ⟨fuel, input.current.position, _, by omega, ?_, by rw [Parser.run_expression_unary found, run]; rfl⟩
  simp_all [IsReadAs, Expr.view, Site.view, Site.plain, Detail.keeps]

theorem reads_binary {operator : BinaryOp} {left right : Expr ι} (first : left.ReadsExpression text)
    (second : right.ReadsExpression text) (holdsRight : left.HoldsRight operator.leftPower)
    (holdsLeft : right.HoldsLeft operator.rightPower) :
    (binary ⟨position, false⟩ operator left right).ReadsExpression text := by
  intro fuel limit input rest enough begins holds stops
  simp only [kinds, Site.enclose, Bool.false_eq_true, ↓reduceIte, List.length_append,
    List.length_cons] at enough begins ⊢
  obtain ⟨stronger, front⟩ : limit < operator.leftPower ∧ left.HoldsLeft limit := by simpa [HoldsLeft] using holds
  obtain ⟨middle, before, behind⟩ := begins.split
  have found : BinaryOp.ofToken? middle.current.kind = some operator := by
    rw [behind.current]
    cases operator <;> rfl
  have plain : Parser.startsSuffix middle.current.kind = false := by
    rw [behind.current]
    cases operator <;> rfl
  obtain ⟨spare, place, readLeft, spent, sameLeft, runLeft⟩ := first fuel limit (by omega) before front
    ⟨plain, by simp [found, holdsRight]⟩
  obtain ⟨spare, rfl⟩ := exists_spare spare 1 (by omega)
  have held : ∀ next, BinaryOp.ofToken? rest.current.kind = some next →
      next.leftPower ≤ operator.rightPower ∧ right.HoldsRight next.leftPower := by
    intro next seen
    simpa [HoldsRight] using stops.2 next seen
  obtain ⟨readRight, sameRight, runRight⟩ := second.whole spare operator.rightPower (by omega) behind.tail holdsLeft
    ⟨stops.1, fun next seen => (held next seen).2⟩ fun next seen => (held next seen).1
  refine ⟨spare, place, _, by omega, ?_, by rw [runLeft, Parser.run_operations_step found stronger, runRight]; rfl⟩
  simp_all [IsReadAs, Expr.view, Site.view, Site.plain, Detail.keeps]

end Nodes

end Expr

/-- The first tokens are not those of a named field. -/
def Unnamed (kinds : List Kind) : Prop :=
  ∀ name rest, kinds ≠ .name name :: .symbol .assign :: rest

theorem Unnamed.append {kinds more : List Kind} (unnamed : Unnamed kinds) (given : kinds ≠ [])
    (other : more.head? ≠ some (.symbol .assign)) : Unnamed (kinds ++ more) := by
  intro name rest same
  match kinds with
  | [] => exact given rfl
  | [first] =>
    rw [List.singleton_append, List.cons.injEq] at same
    simp [same.2] at other
  | first :: second :: further =>
    simp only [List.cons_append, List.cons.injEq] at same
    exact unnamed name further (by rw [same.1, same.2.1])

theorem Site.enclose_unnamed {site : Site} {kinds : List Kind} (unnamed : Unnamed kinds) :
    Unnamed (site.enclose kinds) := by
  unfold Site.enclose
  split
  · exact fun _ _ same => by simp at same
  · exact unnamed

theorem Expr.kinds_unnamed (text : ι → String) (expression : Expr ι) : Unnamed (expression.kinds text) := by
  cases expression with
  | identifier => exact Site.enclose_unnamed fun _ _ same => by simp at same
  | literal => exact Site.enclose_unnamed fun _ _ same => by simp at same
  | binary _ operator left _ =>
      refine Site.enclose_unnamed ((left.kinds_unnamed text).append (left.kinds_ne_nil text) ?_)
      cases operator <;> simp [BinaryOp.token]
  | unary _ operator _ =>
      exact Site.enclose_unnamed fun _ _ same => by cases operator <;> simp [UnaryOp.token] at same
  | call _ callee _ =>
      refine Site.enclose_unnamed ?_
      rw [List.append_assoc]
      exact (callee.kinds_unnamed text).append (callee.kinds_ne_nil text) (by simp)
  | callTable _ callee _ _ =>
      exact Site.enclose_unnamed ((callee.kinds_unnamed text).append (callee.kinds_ne_nil text) (by simp [braces]))
  | callString _ callee _ _ =>
      exact Site.enclose_unnamed ((callee.kinds_unnamed text).append (callee.kinds_ne_nil text) (by simp))
  | index _ base _ =>
      refine Site.enclose_unnamed ?_
      rw [List.append_assoc]
      exact (base.kinds_unnamed text).append (base.kinds_ne_nil text) (by simp)
  | member _ base access _ =>
      refine Site.enclose_unnamed ((base.kinds_unnamed text).append (base.kinds_ne_nil text) ?_)
      cases access <;> simp [Access.token]
  | function => exact Site.enclose_unnamed fun _ _ same => by simp at same
  | table => exact Site.enclose_unnamed fun _ _ same => by simp [braces] at same

namespace Field

variable {text : ι → String}

/-- A field read from tokens is a given one, positions apart. -/
def IsReadAs (text : ι → String) (field : Field ι) (read : Field Name) : Prop :=
  read.view .exact Name.text = field.view .exact text

/-- With fuel for its tokens, a field is read up to a comma or the closing brace. -/
def Reads (text : ι → String) (field : Field ι) : Prop :=
  ∀ (fuel : Nat) {input rest : Input}, 8 * (field.kinds text).length + 4 ≤ fuel →
    input.Begins (field.kinds text) rest →
    rest.current.kind = .symbol .comma ∨ rest.current.kind = .symbol .rightBrace →
    ∃ read, field.IsReadAs text read ∧ (Parser.field fuel).run input = .ok (read, rest)

theorem isBoundary_of_behind {kind : Kind} (behind : kind = .symbol .comma ∨ kind = .symbol .rightBrace) :
    Parser.isBoundary kind = true := by
  rcases behind with rfl | rfl <;> rfl

theorem reads_keyed {key value : Expr ι} (first : key.ReadsExpression text) (second : value.ReadsExpression text) :
    (keyed key value).Reads text := by
  intro fuel input rest enough begins behind
  simp only [kinds, List.cons_append, List.length_append, List.length_cons] at enough begins
  obtain ⟨fuel, rfl⟩ := exists_spare fuel 1 (by omega)
  obtain ⟨middle, front, closed⟩ := begins.tail.split
  obtain ⟨readKey, sameKey, runKey⟩ := first.bounded fuel (by omega) front (by rw [closed.current]; rfl)
  obtain ⟨readValue, sameValue, runValue⟩ := second.bounded fuel (by omega) closed.tail.tail
    (isBoundary_of_behind behind)
  refine ⟨_, ?_, Parser.run_field_keyed begins.current runKey closed.current closed.tail.current runValue⟩
  simp_all [IsReadAs, Expr.IsReadAs, Field.view]

theorem reads_named {name : Name} {value : Expr ι} (inner : value.ReadsExpression text) :
    (named name value).Reads text := by
  intro fuel input rest enough begins behind
  simp only [kinds, List.length_cons] at enough begins
  obtain ⟨fuel, rfl⟩ := exists_spare fuel 1 (by omega)
  obtain ⟨read, same, run⟩ := inner.bounded fuel (by omega) begins.tail.tail (isBoundary_of_behind behind)
  refine ⟨_, ?_, Parser.run_field_named begins.current begins.tail.current run⟩
  simp_all [IsReadAs, Expr.IsReadAs, Field.view, Name.view]

theorem reads_item {value : Expr ι} (inner : value.ReadsExpression text) : (item value).Reads text := by
  intro fuel input rest enough begins behind
  simp only [kinds] at enough begins
  obtain ⟨fuel, rfl⟩ := exists_spare fuel 1 (by omega)
  obtain ⟨read, same, run⟩ := inner.bounded fuel (by omega) begins (isBoundary_of_behind behind)
  have unnamed := value.kinds_unnamed text
  obtain ⟨first, more, split, opens⟩ := value.kinds_head text
  rw [split] at begins unnamed
  have bracket : input.current.kind ≠ .symbol .leftBracket := by
    rw [begins.current]
    rintro rfl
    simp [Kind.opens] at opens
  refine ⟨_, ?_, Parser.run_field_item bracket ?_ run⟩
  · simp_all [IsReadAs, Expr.IsReadAs, Field.view]
  · intro name found assigned
    rw [begins.current] at found
    subst found
    cases more with
    | nil =>
        rw [begins.tail.nil] at assigned
        rcases behind with behind | behind <;> simp [behind] at assigned
    | cons second further =>
        obtain rfl := begins.tail.current.symm.trans assigned
        exact unnamed name further rfl

theorem kinds_head (field : Field ι) : HeadIs (· ≠ .symbol .rightBrace) (field.kinds text) := by
  cases field with
  | keyed => exact ⟨_, _, rfl, rfl⟩
  | named => exact ⟨_, _, rfl, rfl⟩
  | item value =>
      refine (value.kinds_head text).imp fun kind opens => ?_
      rw [decide_eq_true_eq]
      rintro rfl
      simp [Kind.opens] at opens

/-- Fields read from tokens are given ones, positions apart. -/
def AllReadAs (text : ι → String) (fields : List (Field ι)) (read : List (Field Name)) : Prop :=
  Field.viewAll .exact Name.text read = Field.viewAll .exact text fields

theorem reads_fields {closing : List Kind} (comma : closing = [] ∨ closing = [.symbol .comma])
    {fields : List (Field ι)} (reads : ∀ field ∈ fields, field.Reads text) (bare : fields = [] → closing = [])
    (fuel : Nat) {input rest : Input}
    (enough : 8 * (listed true (kindsAll text fields) ++ closing ++ [Kind.symbol .rightBrace]).length ≤ fuel)
    (begins : input.Begins (listed true (kindsAll text fields) ++ closing ++ [.symbol .rightBrace]) rest) :
    ∃ read, AllReadAs text fields read ∧ (Parser.fields fuel).run input = .ok (read, rest) := by
  induction fields generalizing fuel input with
  | nil =>
      obtain rfl := bare rfl
      obtain ⟨fuel, rfl⟩ := exists_spare fuel 1 (by simp at enough; omega)
      exact ⟨[], rfl, by rw [Parser.run_fields_end begins.current, begins.tail.nil]⟩
  | cons field others ih =>
      rw [List.forall_mem_cons] at reads
      obtain ⟨fuel, rfl⟩ := exists_spare fuel 1 (by simp at enough; omega)
      simp only [kindsAll, listed, List.append_assoc, List.length_append] at enough begins
      obtain ⟨middle, front, behind⟩ := begins.split
      have brace : input.current.kind ≠ .symbol .rightBrace := by simpa using front.head field.kinds_head
      cases others with
      | nil =>
          simp only [kindsAll, listed, List.nil_append, List.length_nil, List.length_cons] at enough behind
          rcases comma with rfl | rfl
          · obtain ⟨read, same, run⟩ := reads.1 fuel (by omega) front (.inr behind.current)
            refine ⟨[read], ?_, by rw [Parser.run_fields_last brace run behind.current, behind.tail.nil]⟩
            simp_all [AllReadAs, IsReadAs, Field.viewAll]
          · obtain ⟨read, same, run⟩ := reads.1 fuel (by omega) front (.inl behind.current)
            obtain ⟨fuel, rfl⟩ := exists_spare fuel 1 (by omega)
            refine ⟨[read], ?_, Parser.run_fields_more brace run behind.current
              (by rw [Parser.run_fields_end behind.tail.current, behind.tail.tail.nil])⟩
            simp_all [AllReadAs, IsReadAs, Field.viewAll]
      | cons second others =>
          simp only [kindsAll, listed, List.cons_append, List.append_assoc, List.length_append, List.length_cons]
            at enough behind
          obtain ⟨read, same, run⟩ := reads.1 fuel (by omega) front (.inl behind.current)
          obtain ⟨further, sameFurther, runFurther⟩ := ih reads.2 (by simp) fuel
            (by simp only [kindsAll, listed, List.append_assoc, List.length_append, List.length_cons]; omega)
            (by simpa only [kindsAll, listed, List.append_assoc] using behind.tail)
          refine ⟨read :: further, ?_, Parser.run_fields_more brace run behind.current runFurther⟩
          simp_all [AllReadAs, IsReadAs, Field.viewAll]

theorem reads_braces {fields : List (Field ι)} (reads : ∀ field ∈ fields, field.Reads text) (fuel : Nat)
    {input rest : Input} (enough : 8 * (braces (kindsAll text fields)).length ≤ fuel + 8)
    (begins : input.Begins (braces (kindsAll text fields)) rest) :
    ∃ read, AllReadAs text fields read ∧ (Parser.fields fuel).run input.rest = .ok (read, rest) := by
  have comma : closingComma (kindsAll text fields).getLast? = [] ∨
      closingComma (kindsAll text fields).getLast? = [.symbol .comma] := by
    unfold closingComma
    split <;> simp
  simp only [braces, List.cons_append, List.length_cons] at enough begins
  refine reads_fields comma reads ?_ fuel (by omega) begins.tail
  rintro rfl
  rfl

end Field

namespace Expr

variable {text : ι → String} {position : Position} {fields : List (Field ι)}

theorem reads_callTable {callee : Expr ι} {place : Position} (called : callee.ReadsCalled text)
    (reads : ∀ field ∈ fields, field.Reads text) :
    (callTable ⟨position, false⟩ callee place fields).ReadsSuffixed text := by
  have same : (callTable ⟨position, false⟩ callee place fields).kinds text =
      callee.kinds text ++ braces (Field.kindsAll text fields) := rfl
  refine reads_applied same ⟨_, _, rfl, rfl⟩ called ?_
  intro fuel read input rest enough begins isRead
  obtain ⟨fuel, rfl⟩ := exists_spare fuel 1 (by simp [braces] at enough; omega)
  obtain ⟨results, isResults, run⟩ := Field.reads_braces reads fuel (by omega) begins
  refine ⟨_, ?_, Parser.run_arguments_table begins.current run⟩
  simp_all [IsReadAs, Field.AllReadAs, Expr.view, Site.view, Site.plain, Detail.keeps, view_exact_base _ _ true]

theorem reads_table (reads : ∀ field ∈ fields, field.Reads text) :
    (table ⟨position, false⟩ fields).ReadsExpression text := by
  intro fuel limit input rest enough begins _ _
  simp only [kinds, Site.enclose, Bool.false_eq_true, ↓reduceIte] at enough begins ⊢
  obtain ⟨fuel, rfl⟩ := exists_spare fuel 2 (by simp [braces] at enough; omega)
  have found := begins.current
  obtain ⟨results, isResults, run⟩ := Field.reads_braces reads fuel (by omega) begins
  have other : UnaryOp.ofToken? input.current.kind = none := by rw [found]; rfl
  refine ⟨fuel + 1, input.current.position, _, by simp [braces]; omega, ?_, by
    rw [Parser.run_expression_operand other, Parser.run_operand_table found run]
    rfl⟩
  simp_all [IsReadAs, Field.AllReadAs, Expr.view, Site.view, Site.plain, Detail.keeps]

end Expr
end LuaMinifier
