import LuaMinifier.Proofs.Climbing
import LuaMinifier.Proofs.Leaves
import LuaMinifier.Proofs.ReadWritings
import LuaMinifier.Proofs.RoundTrip

/-!
Operator trees and the precedence of operators. Along the edge of an operand stand the operators that another operator
next to it could take the operand from. Main statement: in every tree of a text these operators hold on to what they
have, and no other tree of the same tokens has this property.
-/

namespace LuaMinifier

open Token

variable {ι : Type}

/-- How strongly an operator holds what stands behind it. -/
def Operator.rightPower : Operator → Nat
  | .binary operator => operator.rightPower
  | .unary _ => UnaryOp.power

namespace Expr

/-- The binary operators along the left edge of an expression, up to one in parentheses. -/
def leftSpine : Expr ι → List BinaryOp
  | .binary site operator left _ => if site.parenthesized then [] else operator :: left.leftSpine
  | _ => []

/-- The operators along the right edge of an expression, up to one in parentheses. -/
def rightSpine : Expr ι → List Operator
  | .binary site operator _ right => if site.parenthesized then [] else .binary operator :: right.rightSpine
  | .unary site operator operand => if site.parenthesized then [] else .unary operator :: operand.rightSpine
  | _ => []

/-- Whether the operators along the inner edges of the operands hold on to what they have against an operator. -/
def Respects : Expr ι → Prop
  | .binary _ operator left right =>
    (∀ inner ∈ left.rightSpine, operator.leftPower ≤ inner.rightPower) ∧
      ∀ inner ∈ right.leftSpine, operator.rightPower < inner.leftPower
  | .unary _ _ operand => ∀ inner ∈ operand.leftSpine, UnaryOp.power < inner.leftPower
  | _ => True

instance : DecidablePred (@Respects ι)
  | .binary .. => inferInstanceAs (Decidable (_ ∧ _))
  | .unary .. => inferInstanceAs (Decidable (∀ inner ∈ _, _))
  | .identifier .. | .literal .. | .call .. | .callTable .. | .callString .. | .index .. | .member .. | .function ..
  | .table .. => inferInstanceAs (Decidable True)

theorem holdsLeft_iff (limit : Nat) (expression : Expr ι) :
    expression.HoldsLeft limit ↔ ∀ operator ∈ expression.leftSpine, limit < operator.leftPower := by
  cases expression with
  | binary site operator left right =>
      by_cases marked : site.parenthesized = true
      · simp [HoldsLeft, leftSpine, marked]
      · simp [HoldsLeft, leftSpine, marked, holdsLeft_iff limit left]
  | _ => simp [HoldsLeft, leftSpine]

theorem holdsRight_iff (power : Nat) (expression : Expr ι) :
    expression.HoldsRight power ↔ ∀ operator ∈ expression.rightSpine, power ≤ operator.rightPower := by
  cases expression with
  | binary site operator left right =>
      by_cases marked : site.parenthesized = true
      · simp [HoldsRight, rightSpine, marked]
      · simp [HoldsRight, rightSpine, marked, Operator.rightPower, holdsRight_iff power right]
  | unary site operator operand =>
      by_cases marked : site.parenthesized = true
      · simp [HoldsRight, rightSpine, marked]
      · simp [HoldsRight, rightSpine, marked, Operator.rightPower, holdsRight_iff power operand]
  | _ => simp [HoldsRight, rightSpine]

theorem grouped_eq_respects : @Grouped ι = Respects := by
  funext expression
  cases expression with
  | binary site operator left right => simp only [Grouped, Respects, holdsRight_iff, holdsLeft_iff]
  | unary site operator operand => simp only [Grouped, Respects, holdsLeft_iff]
  | _ => rfl

/-- No other tree of the same tokens has operators that respect each other, positions apart. -/
def IsOnly (text : ι → String) (expression : Expr ι) : Prop :=
  ∀ other : Expr ι, other.Formed (fun _ => True) (fun _ => True) false → other.All Respects →
    other.kinds text = expression.kinds text → other.view .exact text false = expression.view .exact text false

/-- The tokens of an expression, with nothing behind them. -/
def input (text : ι → String) (expression : Expr ι) : Input := ⟨(expression.kinds text).map (⟨·, .start⟩), .start⟩

theorem read_input (text : ι → String) {valid : Kind → Prop} {named : ι → Prop} {expression : Expr ι} {called : Bool}
    (formed : expression.Formed valid named called) (grouped : expression.All Grouped)
    (operand : expression.isMethod = false) :
    ∃ read, expression.IsReadAs text read ∧
      (Parser.expression (8 * (expression.kinds text).length + 3) 0).run (expression.input text) =
        .ok (read, ⟨[], .start⟩) := by
  have begins : (expression.input text).Begins (expression.kinds text) ⟨[], .start⟩ :=
    ⟨(expression.input text).tokens, by simp [input, Function.comp_def], by simp [input]⟩
  exact ((expression.readable text formed grouped).operand operand).bounded _ (Nat.le_refl _) begins rfl

theorem isOnly_of_grouped (text : ι → String) {valid : Kind → Prop} {named : ι → Prop} {expression : Expr ι}
    {called : Bool} (formed : expression.Formed valid named called) (grouped : expression.All Grouped)
    (operand : expression.isMethod = false) : expression.IsOnly text := by
  intro other formedOther respects same
  rw [← grouped_eq_respects] at respects
  obtain ⟨read, first, run⟩ := read_input text formed grouped operand
  obtain ⟨again, second, runAgain⟩ := read_input text formedOther respects (isMethod_of_formed formedOther)
  -- Both are read from the same tokens, and a reader gives one result.
  rw [input, same, ← input, run] at runAgain
  cases runAgain
  exact second.symm.trans first

end Expr

section Every

variable {valid : Kind → Prop} {named : ι → Prop} {known condition : Expr ι → Prop}

/-- What follows from the shape of an expression and what is known of all expressions in it. -/
def Entails (valid : Kind → Prop) (named : ι → Prop) (known condition : Expr ι → Prop) : Prop :=
  ∀ (expression : Expr ι) (called : Bool), expression.Formed valid named called → expression.All known →
    condition expression

mutual

theorem Expr.all_of_formed (entails : Entails valid named known condition) : ∀ (expression : Expr ι) {called : Bool},
    expression.Formed valid named called → expression.All known → expression.All condition
  | .identifier .., _, formed, all => entails (.identifier ..) _ formed all
  | .literal .., _, formed, all => entails (.literal ..) _ formed all
  | .binary _ _ left right, _, formed, all =>
    ⟨entails (.binary _ _ left right) _ formed all, left.all_of_formed entails formed.1 all.2.1,
      right.all_of_formed entails formed.2 all.2.2⟩
  | .unary _ _ operand, _, formed, all =>
    ⟨entails (.unary _ _ operand) _ formed all, operand.all_of_formed entails formed all.2⟩
  | .call _ callee arguments, _, formed, all =>
    ⟨entails (.call _ callee arguments) _ formed all, callee.all_of_formed entails formed.2.1 all.2.1,
      Expr.every_of_formed entails arguments formed.2.2 all.2.2⟩
  | .callTable _ callee _ fields, _, formed, all =>
    ⟨entails (.callTable _ callee _ fields) _ formed all, callee.all_of_formed entails formed.2.1 all.2.1,
      Field.every_of_formed entails fields formed.2.2 all.2.2⟩
  | .callString _ callee _ raw, _, formed, all =>
    ⟨entails (.callString _ callee _ raw) _ formed all, callee.all_of_formed entails formed.2.1 all.2⟩
  | .index _ base key, _, formed, all =>
    ⟨entails (.index _ base key) _ formed all, base.all_of_formed entails formed.2.1 all.2.1,
      key.all_of_formed entails formed.2.2 all.2.2⟩
  | .member _ base access name, _, formed, all =>
    ⟨entails (.member _ base access name) _ formed all, base.all_of_formed entails formed.2.2.1 all.2⟩
  | .function _ parameters body, _, formed, all =>
    ⟨entails (.function _ parameters body) false formed all, body.all_of_formed entails formed.2 all.2⟩
  | .table _ fields, _, formed, all =>
    ⟨entails (.table _ fields) false formed all, Field.every_of_formed entails fields formed all.2⟩

theorem Expr.every_of_formed (entails : Entails valid named known condition) : ∀ expressions : List (Expr ι),
    Expr.FormedAll valid named expressions → Expr.Every known expressions → Expr.Every condition expressions
  | [], _, _ => trivial
  | expression :: rest, formed, every =>
    ⟨expression.all_of_formed entails formed.1 every.1, Expr.every_of_formed entails rest formed.2 every.2⟩

theorem Field.all_of_formed (entails : Entails valid named known condition) : ∀ field : Field ι,
    field.Formed valid named → field.All known → field.All condition
  | .keyed key value, formed, all =>
    ⟨key.all_of_formed entails formed.1 all.1, value.all_of_formed entails formed.2 all.2⟩
  | .named _ value, formed, all => value.all_of_formed entails formed.2 all
  | .item value, formed, all => value.all_of_formed entails formed all

theorem Field.every_of_formed (entails : Entails valid named known condition) : ∀ fields : List (Field ι),
    Field.FormedAll valid named fields → Field.Every known fields → Field.Every condition fields
  | [], _, _ => trivial
  | field :: rest, formed, every =>
    ⟨field.all_of_formed entails formed.1 every.1, Field.every_of_formed entails rest formed.2 every.2⟩

theorem Stat.all_of_formed (entails : Entails valid named known condition) : ∀ statement : Stat ι,
    statement.Formed valid named → statement.All known → statement.All condition
  | .assign _ targets values, formed, all =>
    ⟨Expr.every_of_formed entails targets formed.2.2.1 all.1, Expr.every_of_formed entails values formed.2.2.2.2 all.2⟩
  | .localVars _ _ values, formed, every => Expr.every_of_formed entails values formed.2.2 every
  | .call _ call, formed, all => call.all_of_formed entails formed.2.2 all
  | .cond _ test body rest, formed, all =>
    ⟨test.all_of_formed entails formed.1 all.1, body.all_of_formed entails formed.2.1 all.2.1,
      rest.all_of_formed entails formed.2.2 all.2.2⟩
  | .whileLoop _ test body, formed, all =>
    ⟨test.all_of_formed entails formed.1 all.1, body.all_of_formed entails formed.2 all.2⟩
  | .doBlock _ body, formed, all => body.all_of_formed entails formed all
  | .breakLoop _, _, _ => trivial
  | .repeatLoop _ body test, formed, all =>
    ⟨body.all_of_formed entails formed.1 all.1, test.all_of_formed entails formed.2 all.2⟩
  | .function _ _ _ body, formed, all => body.all_of_formed entails formed.2.2 all
  | .localFunction _ _ _ body, formed, all => body.all_of_formed entails formed.2.2 all
  | .numericFor _ _ first limit none body, formed, all =>
    ⟨first.all_of_formed entails formed.2.1 all.1, limit.all_of_formed entails formed.2.2.1 all.2.1,
      body.all_of_formed entails formed.2.2.2 all.2.2⟩
  | .numericFor _ _ first limit (some step) body, formed, all =>
    ⟨first.all_of_formed entails formed.2.1 all.1, limit.all_of_formed entails formed.2.2.1 all.2.1,
      step.all_of_formed entails formed.2.2.2.1 all.2.2.1, body.all_of_formed entails formed.2.2.2.2 all.2.2.2⟩
  | .genericFor _ _ iterators body, formed, all =>
    ⟨Expr.every_of_formed entails iterators formed.2.2.2.1 all.1, body.all_of_formed entails formed.2.2.2.2 all.2⟩
  | .label .., _, _ => trivial
  | .goto .., _, _ => trivial

theorem Else.all_of_formed (entails : Entails valid named known condition) : ∀ rest : Else ι,
    rest.Formed valid named → rest.All known → rest.All condition
  | .none, _, _ => trivial
  | .otherwise _ body, formed, all => body.all_of_formed entails formed all
  | .elseif _ test body rest, formed, all =>
    ⟨test.all_of_formed entails formed.1 all.1, body.all_of_formed entails formed.2.1 all.2.1,
      rest.all_of_formed entails formed.2.2 all.2.2⟩

theorem Block.all_of_formed (entails : Entails valid named known condition) : ∀ body : Block ι,
    body.Formed valid named → body.All known → body.All condition
  | .nil, _, _ => trivial
  | .ret _ values, formed, every => Expr.every_of_formed entails values formed every
  | .cons head tail, formed, all =>
    ⟨head.all_of_formed entails formed.1 all.1, tail.all_of_formed entails formed.2 all.2⟩

end
end Every

namespace Expr

theorem All.self {condition : Expr ι → Prop} {expression : Expr ι} (all : expression.All condition) :
    condition expression := by
  cases expression <;> first | exact all | exact all.1

section Views

variable {κ : Type} (see : ι → κ)

theorem leftSpine_view (expression : Expr ι) (asBase : Bool) :
    (expression.view .exact see asBase).leftSpine = expression.leftSpine := by
  cases expression with
  | binary site operator left right => simp [Expr.view, leftSpine, Site.view, Detail.keeps, leftSpine_view left]
  | _ => rfl

theorem rightSpine_view (expression : Expr ι) (asBase : Bool) :
    (expression.view .exact see asBase).rightSpine = expression.rightSpine := by
  cases expression with
  | binary site operator left right => simp [Expr.view, rightSpine, Site.view, Detail.keeps, rightSpine_view right]
  | unary site operator operand => simp [Expr.view, rightSpine, Site.view, Detail.keeps, rightSpine_view operand]
  | _ => rfl

theorem respects_view : Agrees .exact see Respects Respects := by
  intro expression asBase
  cases expression with
  | binary site operator left right => simp only [Expr.view, Respects, leftSpine_view, rightSpine_view]
  | unary site operator operand => simp only [Expr.view, Respects, leftSpine_view]
  | _ => rfl

end Views
end Expr

namespace Block

theorem grouped_resolve {tree : Block Name} (grouped : tree.All Expr.Grouped) :
    (tree.resolve.run .empty).1.All Expr.Grouped := by
  rw [Expr.grouped_eq_respects] at grouped ⊢
  rw [← Block.all_view (Expr.respects_view Identifier.name), tree.view_resolve,
    Block.all_view (Expr.respects_view Name.text)]
  exact grouped

theorem mem_writings_resolve {lexed : Lexed} {tree : Block Name} (inside : ∀ token ∈ lexed.tokens, token.kind ≠ .eof)
    (read : Block.ofTokens lexed = .ok tree) :
    lexed.tokens.map (·.kind) ∈ (tree.resolve.run .empty).1.writings Identifier.name := by
  have same := congrArg (Block.writings id) (tree.view_resolve .exact)
  rw [Block.writings_view, Block.writings_view] at same
  exact same ▸ Block.mem_writings_of_ofTokens inside read

end Block

/-- In every tree of a text the operators respect each other, and no other tree of its tokens has this property: not for
one of its expressions, and not for the text as a whole. Both its tokens and those of the text are ways to write it. -/
theorem Chunk.parse_precedence {source : String} {chunk : Chunk} (read : Chunk.parse source = .ok chunk) :
    (chunk.body.All fun expression =>
      expression.Respects ∧ (expression.isMethod = false → expression.IsOnly Identifier.name)) ∧
    chunk.body.kinds Identifier.name true ∈ chunk.body.writings Identifier.name ∧
    ∃ lexed, tokenize source = .ok lexed ∧ lexed.tokens.map (·.kind) ∈ chunk.body.writings Identifier.name ∧
      ∀ other : Block Identifier, other.Formed (fun _ => True) (fun _ => True) → other.All Expr.Respects →
        other.kinds Identifier.name true = lexed.tokens.map (·.kind) →
        other.view .exact Identifier.name = chunk.body.view .exact Identifier.name := by
  obtain ⟨lexed, tree, found, parsed, rfl⟩ := Chunk.parse_eq_ok.mp read
  let body := (tree.resolve.run .empty).1
  have formed : body.Formed (fun _ => True) (fun _ => True) :=
    Block.formed_resolve (Block.formed_of_ofTokens (fun _ _ => trivial) parsed)
  have grouped : body.All Expr.Grouped := Block.grouped_resolve (Block.grouped_of_ofTokens parsed)
  refine ⟨?_, body.kinds_mem Identifier.name true, lexed, found,
    Block.mem_writings_resolve (Lexed.ne_eof_of_ofText found) parsed, ?_⟩
  · refine body.all_of_formed ?_ formed grouped
    intro expression called shape all
    exact ⟨Expr.grouped_eq_respects ▸ all.self, Expr.isOnly_of_grouped Identifier.name shape all⟩
  · intro other formedOther respects same
    rw [← Expr.grouped_eq_respects] at respects
    obtain ⟨again, isRead, parsedAgain⟩ := Block.ofTokens_kinds formedOther respects same.symm
    rw [parsed] at parsedAgain
    cases parsedAgain
    exact isRead.symm.trans (tree.view_resolve .exact).symm

/-- An operator in front of an operand within a chain of others, and an operand in parentheses. -/
theorem Chunk.parse_precedence_chain :
    let source := "return 2^-x^3*y,(a+b)*c"
    let named : String → Expr Identifier := fun name => .identifier (.plain .start) ⟨name, false, .start⟩
    let number : String → Expr Identifier := .literal (.plain .start) .number
    let chain : Expr Identifier := .binary (.plain .start) .multiply
      (.binary (.plain .start) .power (number "2")
        (.unary (.plain .start) .negate (.binary (.plain .start) .power (named "x") (number "3"))))
      (named "y")
    let product : Expr Identifier := .binary (.plain .start) .multiply
      (.binary ⟨.start, true⟩ .add (named "a") (named "b")) (named "c")
    ∃ chunk, Chunk.parse source = .ok chunk ∧
      (chunk.body.All fun expression =>
        expression.Respects ∧ (expression.isMethod = false → expression.IsOnly Identifier.name)) ∧
      (Block.ret .start [chain, product]).view .exact Identifier.name = chunk.body.view .exact Identifier.name := by
  intro source named number chain product
  let body : Block Identifier := .ret .start [chain, product]
  have accepted : (Chunk.parse source).toOption.any (fun _ => true) = true := by decide +kernel
  have tokens : (tokenize source).toOption.any (fun lexed =>
      body.kinds Identifier.name true = lexed.tokens.map (·.kind)) = true := by decide +kernel
  have respects : body.All Expr.Respects := by decide +kernel
  have formed : body.Formed (fun _ => True) (fun _ => True) := by
    simp [body, chain, product, named, number, Block.Formed, Expr.FormedAll, Expr.Formed, LiteralKind.Formed,
      LiteralKind.token, Kind.chars]
  obtain ⟨chunk, read, -⟩ := Chunk.exists_of_parse accepted
  obtain ⟨all, -, lexed, found, -, unique⟩ := Chunk.parse_precedence read
  rw [found] at tokens
  exact ⟨chunk, read, all, unique body formed respects (by simpa [Except.toOption] using tokens)⟩

end LuaMinifier
