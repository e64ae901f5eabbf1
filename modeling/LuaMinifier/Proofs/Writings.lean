import LuaMinifier.Proofs.View
import LuaMinifier.Proofs.Yield
import Mathlib.Computability.Language

/-!
The ways to write a tree. Nothing of a tree says how many parentheses stand around an expression in parentheses, which
sign stands between two fields, whether one stands behind the last field, and where semicolons stand. All else is fixed.
Main statements: the tokens of a tree are one way to write it, and its positions have no part in how it is written.
-/

namespace LuaMinifier

open Token

/-- Some tokens and no others. -/
def exactly (kinds : List Kind) : Language Kind := {kinds}

@[simp] theorem exactly_nil : exactly [] = 1 := rfl

@[simp] theorem exactly_mul (first second : List Kind) : exactly first * exactly second = exactly (first ++ second) :=
  Set.image2_singleton

@[simp] theorem exactly_mul_mul (first second : List Kind) (more : Language Kind) :
    exactly first * (exactly second * more) = exactly (first ++ second) * more := by
  rw [← mul_assoc, exactly_mul]

/-- Every choice of tokens on the one side is a choice on the other. -/
def Within (first second : Language Kind) : Prop := ∀ kinds ∈ first, kinds ∈ second

theorem Within.refl (language : Language Kind) : Within language language := fun _ member => member

theorem Within.mul {first second front back : Language Kind} (left : Within first front) (right : Within second back) :
    Within (first * second) (front * back) := by
  rintro _ ⟨start, inFirst, rest, inSecond, rfl⟩
  exact Language.append_mem_mul (left start inFirst) (right rest inSecond)

theorem within_add_left (first second : Language Kind) : Within first (first + second) := fun _ member => .inl member

theorem within_add_right (first second : Language Kind) : Within second (first + second) := fun _ member => .inr member

theorem within_optional (accepted : Bool) (kind : Kind) :
    Within (exactly (if accepted then [kind] else [])) (1 + exactly [kind]) := by
  cases accepted with
  | true => exact within_add_right _ _
  | false => exact within_add_left _ _

/-- Parts with commas between them, behind others if they are not the first. -/
def listings (isFirst : Bool) : List (Language Kind) → Language Kind
  | [] => 1
  | part :: rest => exactly (if isFirst then [] else [.symbol .comma]) * part * listings false rest

theorem listings_behind {parts : List (Language Kind)} (filled : parts ≠ []) :
    listings false parts = exactly [.symbol .comma] * listings true parts := by
  cases parts with
  | nil => exact absurd rfl filled
  | cons part rest =>
      simp only [listings, if_true, Bool.false_eq_true, if_false, exactly_nil, one_mul, mul_assoc]

theorem listed_behind {parts : List (List Kind)} (filled : parts ≠ []) :
    listed false parts = .symbol .comma :: listed true parts := by
  cases parts with
  | nil => exact absurd rfl filled
  | cons => rfl

/-- What stands between two fields of a table. -/
def divider : Language Kind := exactly [.symbol .comma] + exactly [.symbol .semicolon]

/-- The fields of a table; what stands between two of them may also stand behind the last. -/
def dividing : List (Language Kind) → Language Kind
  | [] => 1
  | [last] => last * (1 + divider)
  | part :: rest => part * divider * dividing rest

theorem within_dividing_cons (part : Language Kind) (rest : List (Language Kind)) :
    Within (part * divider * dividing rest) (dividing (part :: rest)) := by
  cases rest with
  | nil =>
      rw [dividing, dividing, mul_one]
      exact (Within.refl part).mul (within_add_right _ _)
  | cons => exact .refl _

def functionWritings (parameters : List (List Kind)) (body : Language Kind) : Language Kind :=
  exactly (.symbol .leftParen :: listed true parameters ++ [.symbol .rightParen]) * body * exactly [.keyword .kEnd]

def semicolons : Language Kind := {kinds | ∀ kind ∈ kinds, kind = .symbol .semicolon}

theorem mem_semicolons {kinds : List Kind} : kinds ∈ semicolons ↔ ∀ kind ∈ kinds, kind = .symbol .semicolon := .rfl

/-- An expression with one or more pairs of parentheses around it if it is marked, and with none if it is not. -/
def Site.writings (site : Site) (inner : Language Kind) : Language Kind :=
  {kinds | ∃ count, (site.parenthesized = true ↔ 0 < count) ∧
    kinds ∈ exactly [.symbol .leftParen] ^ count * inner * exactly [.symbol .rightParen] ^ count}

@[simp] theorem Site.writings_plain (position : Position) (inner : Language Kind) :
    (Site.plain position).writings inner = inner := by
  refine Language.ext fun kinds => ⟨?_, fun member => ⟨0, by simp [Site.plain], by simpa using member⟩⟩
  rintro ⟨count, marked, member⟩
  obtain rfl : count = 0 := by simpa [Site.plain] using marked
  simpa using member

theorem Site.writings_enclose (site : Site) (inner : Language Kind) :
    Within (exactly [.symbol .leftParen] * site.writings inner * exactly [.symbol .rightParen])
      ((⟨site.position, true⟩ : Site).writings inner) := by
  rintro _ ⟨_, ⟨opening, rfl, middle, ⟨count, -, member⟩, rfl⟩, closing, rfl, rfl⟩
  have longer : exactly [.symbol .leftParen] ^ (count + 1) * inner * exactly [.symbol .rightParen] ^ (count + 1) =
      exactly [.symbol .leftParen] * (exactly [.symbol .leftParen] ^ count * inner
        * exactly [.symbol .rightParen] ^ count) * exactly [.symbol .rightParen] := by
    rw [pow_succ', pow_succ]
    simp only [mul_assoc]
  refine ⟨count + 1, by simp, ?_⟩
  rw [longer]
  exact Language.append_mem_mul (Language.append_mem_mul rfl member) rfl

variable {ι κ : Type}

mutual

def Expr.writings (text : ι → String) : Expr ι → Language Kind
  | .identifier site occurrence => site.writings (exactly [.name (text occurrence)])
  | .literal site kind raw => site.writings (exactly [kind.token raw])
  | .binary site operator left right =>
    site.writings (left.writings text * exactly [operator.token] * right.writings text)
  | .unary site operator operand => site.writings (exactly [operator.token] * operand.writings text)
  | .call site callee arguments =>
    site.writings (callee.writings text * exactly [.symbol .leftParen] * listings true (Expr.writingsAll text arguments)
      * exactly [.symbol .rightParen])
  | .callTable site callee _ fields =>
    site.writings (callee.writings text * exactly [.symbol .leftBrace] * dividing (Field.writingsAll text fields)
      * exactly [.symbol .rightBrace])
  | .callString site callee _ raw => site.writings (callee.writings text * exactly [.string raw])
  | .index site base key =>
    site.writings (base.writings text * exactly [.symbol .leftBracket] * key.writings text
      * exactly [.symbol .rightBracket])
  | .member site base access name => site.writings (base.writings text * exactly [access.token, .name name.text])
  | .function site parameters body =>
    site.writings (exactly [.keyword .kFunction] * functionWritings (parameters.items text) (body.writings text))
  | .table site fields =>
    site.writings (exactly [.symbol .leftBrace] * dividing (Field.writingsAll text fields)
      * exactly [.symbol .rightBrace])

def Expr.writingsAll (text : ι → String) : List (Expr ι) → List (Language Kind)
  | [] => []
  | expression :: rest => expression.writings text :: Expr.writingsAll text rest

def Field.writings (text : ι → String) : Field ι → Language Kind
  | .keyed key value =>
    exactly [.symbol .leftBracket] * key.writings text * exactly [.symbol .rightBracket, .symbol .assign]
      * value.writings text
  | .named name value => exactly [.name name.text, .symbol .assign] * value.writings text
  | .item value => value.writings text

def Field.writingsAll (text : ι → String) : List (Field ι) → List (Language Kind)
  | [] => []
  | field :: rest => field.writings text :: Field.writingsAll text rest

def Stat.writings (text : ι → String) : Stat ι → Language Kind
  | .assign _ targets values =>
    listings true (Expr.writingsAll text targets) * exactly [.symbol .assign]
      * listings true (Expr.writingsAll text values)
  | .localVars _ names [] => exactly (.keyword .kLocal :: listed true (nameItems text names))
  | .localVars _ names (value :: values) =>
    exactly (.keyword .kLocal :: listed true (nameItems text names) ++ [.symbol .assign])
      * listings true (value.writings text :: Expr.writingsAll text values)
  | .call _ call => call.writings text
  | .cond _ condition body rest =>
    exactly [.keyword .kIf] * condition.writings text * exactly [.keyword .kThen] * body.writings text
      * rest.writings text
  | .whileLoop _ condition body =>
    exactly [.keyword .kWhile] * condition.writings text * exactly [.keyword .kDo] * body.writings text
      * exactly [.keyword .kEnd]
  | .doBlock _ body => exactly [.keyword .kDo] * body.writings text * exactly [.keyword .kEnd]
  | .breakLoop _ => exactly [.keyword .kBreak]
  | .repeatLoop _ body condition =>
    exactly [.keyword .kRepeat] * body.writings text * exactly [.keyword .kUntil] * condition.writings text
  | .function _ name parameters body =>
    exactly (.keyword .kFunction :: name.kinds text) * functionWritings (parameters.items text) (body.writings text)
  | .localFunction _ name parameters body =>
    exactly [.keyword .kLocal, .keyword .kFunction, .name (text name)]
      * functionWritings (parameters.items text) (body.writings text)
  | .numericFor _ counter first limit none body =>
    exactly [.keyword .kFor, .name (text counter), .symbol .assign] * first.writings text
      * exactly [.symbol .comma] * limit.writings text * exactly [.keyword .kDo] * body.writings text
      * exactly [.keyword .kEnd]
  | .numericFor _ counter first limit (some step) body =>
    exactly [.keyword .kFor, .name (text counter), .symbol .assign] * first.writings text
      * exactly [.symbol .comma] * limit.writings text * exactly [.symbol .comma] * step.writings text
      * exactly [.keyword .kDo] * body.writings text * exactly [.keyword .kEnd]
  | .genericFor _ names iterators body =>
    exactly (.keyword .kFor :: listed true (nameItems text names) ++ [.keyword .kIn])
      * listings true (Expr.writingsAll text iterators) * exactly [.keyword .kDo] * body.writings text
      * exactly [.keyword .kEnd]
  | .label _ name => exactly [.symbol .colonColon, .name name.text, .symbol .colonColon]
  | .goto _ name => exactly [.keyword .kGoto, .name name.text]

def Else.writings (text : ι → String) : Else ι → Language Kind
  | .none => exactly [.keyword .kEnd]
  | .otherwise _ body => exactly [.keyword .kElse] * body.writings text * exactly [.keyword .kEnd]
  | .elseif _ condition body rest =>
    exactly [.keyword .kElseif] * condition.writings text * exactly [.keyword .kThen] * body.writings text
      * rest.writings text

def Block.writings (text : ι → String) : Block ι → Language Kind
  | .nil => semicolons
  | .ret _ values =>
    semicolons * exactly [.keyword .kReturn] * listings true (Expr.writingsAll text values)
      * (1 + exactly [.symbol .semicolon])
  | .cons head tail => semicolons * head.writings text * tail.writings text

end

section Kinds

theorem mem_exactly (kinds : List Kind) : kinds ∈ exactly kinds := rfl

theorem mem_before {kinds : List Kind} {language : Language Kind} (kind : Kind) (member : kinds ∈ language) :
    kind :: kinds ∈ exactly [kind] * language :=
  Language.append_mem_mul (mem_exactly [kind]) member

theorem mem_between {first second : List Kind} {front back : Language Kind} (kind : Kind) (left : first ∈ front)
    (right : second ∈ back) : first ++ kind :: second ∈ front * exactly [kind] * back := by
  rw [mul_assoc]
  exact Language.append_mem_mul left (mem_before kind right)

theorem mem_behind {kinds : List Kind} {language : Language Kind} (kind : Kind) (member : kinds ∈ language) :
    kinds ++ [kind] ∈ language * exactly [kind] :=
  Language.append_mem_mul member (mem_exactly [kind])

theorem Site.enclose_mem (site : Site) {kinds : List Kind} {inner : Language Kind} (member : kinds ∈ inner) :
    site.enclose kinds ∈ site.writings inner := by
  cases marked : site.parenthesized with
  | true =>
      refine ⟨1, by simp [marked], ?_⟩
      simpa [Site.enclose, marked] using mem_behind (.symbol .rightParen) (mem_before (.symbol .leftParen) member)
  | false => exact ⟨0, by simp [marked], by simpa [Site.enclose, marked] using member⟩

theorem listed_mem {parts : List (List Kind)} {languages : List (Language Kind)}
    (members : List.Forall₂ (· ∈ ·) parts languages) (isFirst : Bool) :
    listed isFirst parts ∈ listings isFirst languages := by
  induction members generalizing isFirst with
  | nil => cases isFirst <;> exact rfl
  | cons member _ ih =>
      have inner := Language.append_mem_mul member (ih false)
      cases isFirst with
      | true => simpa [listed, listings] using inner
      | false => simpa [listed, listings, mul_assoc] using mem_before (.symbol .comma) inner

theorem closingComma_mem (last : Option (List Kind)) : closingComma last ∈ (1 + divider) := by
  unfold closingComma
  split
  · exact .inr (.inl rfl)
  · exact .inl rfl

theorem divided_mem {parts : List (List Kind)} {languages : List (Language Kind)}
    (members : List.Forall₂ (· ∈ ·) parts languages) :
    listed true parts ++ closingComma parts.getLast? ∈ dividing languages := by
  induction members with
  | nil => exact rfl
  | @cons part _ parts _ member others ih =>
      cases others with
      | nil => simpa [listed, dividing] using Language.append_mem_mul member (closingComma_mem (some part))
      | @cons next _ rest _ _ _ =>
          have comma : [Kind.symbol .comma] ∈ divider := .inl rfl
          have inner := Language.append_mem_mul (Language.append_mem_mul member comma) ih
          rw [dividing]
          · simpa [listed, List.getLast?_cons_cons] using inner
          · simp

theorem braces_mem {parts : List (List Kind)} {languages : List (Language Kind)}
    (members : List.Forall₂ (· ∈ ·) parts languages) :
    braces parts ∈ exactly [.symbol .leftBrace] * dividing languages * exactly [.symbol .rightBrace] := by
  simpa [braces] using mem_behind (.symbol .rightBrace) (mem_before (.symbol .leftBrace) (divided_mem members))

theorem functionKinds_mem (parameters : List (List Kind)) {body : List Kind} {language : Language Kind}
    (member : body ∈ language) : functionKinds parameters body ∈ functionWritings parameters language := by
  have inner := mem_behind (.keyword .kEnd) (Language.append_mem_mul
    (mem_exactly (.symbol .leftParen :: listed true parameters ++ [.symbol .rightParen])) member)
  simpa [functionKinds, functionWritings] using inner

theorem separated_mem (isFirst : Bool) {kinds : List Kind} {language : Language Kind} (member : kinds ∈ language) :
    separated isFirst kinds ∈ semicolons * language := by
  unfold separated
  split
  · have sign : [Kind.symbol .semicolon] ∈ semicolons := by simp [mem_semicolons]
    exact Language.append_mem_mul sign member
  · have empty : [] ∈ semicolons := by simp [mem_semicolons]
    exact Language.append_mem_mul empty member

variable (text : ι → String)

attribute [local simp] Expr.kinds Expr.kindsAll Field.kinds Field.kindsAll Stat.kinds Else.kinds Block.kinds
  Expr.writings Expr.writingsAll Field.writings Field.writingsAll Stat.writings Else.writings Block.writings mul_assoc

mutual

theorem Expr.kinds_mem : ∀ expression : Expr ι, expression.kinds text ∈ expression.writings text
  | .identifier site _ => site.enclose_mem (mem_exactly _)
  | .literal site .. => site.enclose_mem (mem_exactly _)
  | .binary site operator left right =>
    site.enclose_mem (mem_between operator.token left.kinds_mem right.kinds_mem)
  | .unary site operator operand => site.enclose_mem (mem_before operator.token operand.kinds_mem)
  | .call site callee arguments =>
    site.enclose_mem (mem_behind (.symbol .rightParen)
      (mem_between (.symbol .leftParen) callee.kinds_mem (listed_mem (Expr.kindsAll_mem arguments) true)))
  | .callTable site callee _ fields => by
    have inner := Language.append_mem_mul callee.kinds_mem (braces_mem (Field.kindsAll_mem fields))
    exact site.enclose_mem (by simpa using inner)
  | .callString site callee _ raw => site.enclose_mem (mem_behind (.string raw) callee.kinds_mem)
  | .index site base key =>
    site.enclose_mem (mem_behind (.symbol .rightBracket)
      (mem_between (.symbol .leftBracket) base.kinds_mem key.kinds_mem))
  | .member site base access name =>
    site.enclose_mem (Language.append_mem_mul base.kinds_mem (mem_exactly [access.token, .name name.text]))
  | .function site parameters body =>
    site.enclose_mem (mem_before (.keyword .kFunction) (functionKinds_mem _ (body.kinds_mem true)))
  | .table site fields => site.enclose_mem (braces_mem (Field.kindsAll_mem fields))

theorem Expr.kindsAll_mem : ∀ expressions : List (Expr ι),
    List.Forall₂ (· ∈ ·) (Expr.kindsAll text expressions) (Expr.writingsAll text expressions)
  | [] => .nil
  | expression :: rest => .cons expression.kinds_mem (Expr.kindsAll_mem rest)

theorem Field.kinds_mem : ∀ field : Field ι, field.kinds text ∈ field.writings text
  | .keyed key value => by
    have front := mem_behind (.symbol .rightBracket) (mem_before (.symbol .leftBracket) key.kinds_mem)
    simpa using mem_between (.symbol .assign) front value.kinds_mem
  | .named name value => by
    simpa using mem_before (.name name.text) (mem_before (.symbol .assign) value.kinds_mem)
  | .item value => value.kinds_mem

theorem Field.kindsAll_mem : ∀ fields : List (Field ι),
    List.Forall₂ (· ∈ ·) (Field.kindsAll text fields) (Field.writingsAll text fields)
  | [] => .nil
  | field :: rest => .cons field.kinds_mem (Field.kindsAll_mem rest)

theorem Stat.kinds_mem : ∀ statement : Stat ι, statement.kinds text ∈ statement.writings text
  | .assign _ targets values =>
    mem_between (.symbol .assign) (listed_mem (Expr.kindsAll_mem targets) true)
      (listed_mem (Expr.kindsAll_mem values) true)
  | .localVars _ names [] => by simp [mem_exactly]
  | .localVars _ names (value :: values) => by
    have inner := mem_between (.symbol .assign) (mem_exactly (.keyword .kLocal :: listed true (nameItems text names)))
      (listed_mem (.cons value.kinds_mem (Expr.kindsAll_mem values)) true)
    simpa using inner
  | .call _ call => call.kinds_mem
  | .cond _ condition body rest => by
    have head := mem_before (.keyword .kIf) condition.kinds_mem
    simpa using Language.append_mem_mul (mem_between (.keyword .kThen) head (body.kinds_mem true)) rest.kinds_mem
  | .whileLoop _ condition body =>
    mem_behind (.keyword .kEnd)
      (mem_between (.keyword .kDo) (mem_before (.keyword .kWhile) condition.kinds_mem) (body.kinds_mem true))
  | .doBlock _ body => mem_behind (.keyword .kEnd) (mem_before (.keyword .kDo) (body.kinds_mem true))
  | .breakLoop _ => mem_exactly _
  | .repeatLoop _ body condition =>
    mem_between (.keyword .kUntil) (mem_before (.keyword .kRepeat) (body.kinds_mem true)) condition.kinds_mem
  | .function _ name parameters body =>
    Language.append_mem_mul (mem_exactly (.keyword .kFunction :: name.kinds text))
      (functionKinds_mem _ (body.kinds_mem true))
  | .localFunction _ name parameters body =>
    Language.append_mem_mul (mem_exactly [.keyword .kLocal, .keyword .kFunction, .name (text name)])
      (functionKinds_mem _ (body.kinds_mem true))
  | .numericFor _ counter first limit none body => by
    have head := Language.append_mem_mul (mem_exactly [.keyword .kFor, .name (text counter), .symbol .assign])
      first.kinds_mem
    have front := mem_between (.symbol .comma) head limit.kinds_mem
    simpa using mem_behind (.keyword .kEnd) (mem_between (.keyword .kDo) front (body.kinds_mem true))
  | .numericFor _ counter first limit (some step) body => by
    have head := Language.append_mem_mul (mem_exactly [.keyword .kFor, .name (text counter), .symbol .assign])
      first.kinds_mem
    have front := mem_between (.symbol .comma) (mem_between (.symbol .comma) head limit.kinds_mem) step.kinds_mem
    simpa using mem_behind (.keyword .kEnd) (mem_between (.keyword .kDo) front (body.kinds_mem true))
  | .genericFor _ names iterators body => by
    have front := mem_between (.keyword .kIn) (mem_exactly (.keyword .kFor :: listed true (nameItems text names)))
      (listed_mem (Expr.kindsAll_mem iterators) true)
    simpa using mem_behind (.keyword .kEnd) (mem_between (.keyword .kDo) front (body.kinds_mem true))
  | .label .. => mem_exactly _
  | .goto .. => mem_exactly _

theorem Else.kinds_mem : ∀ rest : Else ι, rest.kinds text ∈ rest.writings text
  | .none => mem_exactly _
  | .otherwise _ body => mem_behind (.keyword .kEnd) (mem_before (.keyword .kElse) (body.kinds_mem true))
  | .elseif _ condition body rest => by
    have head := mem_before (.keyword .kElseif) condition.kinds_mem
    simpa using Language.append_mem_mul (mem_between (.keyword .kThen) head (body.kinds_mem true)) rest.kinds_mem

theorem Block.kinds_mem : ∀ (body : Block ι) (isFirst : Bool), body.kinds text isFirst ∈ body.writings text
  | .nil, _ => by simp [mem_semicolons]
  | .ret _ values, _ => by
    have empty : [] ∈ semicolons := by simp [mem_semicolons]
    have inner := mem_between (.keyword .kReturn) empty (listed_mem (Expr.kindsAll_mem values) true)
    have last : [] ∈ (1 + exactly [.symbol .semicolon]) := .inl rfl
    simpa using Language.append_mem_mul inner last
  | .cons head tail, isFirst => Language.append_mem_mul (separated_mem isFirst head.kinds_mem) (tail.kinds_mem false)

end

end Kinds

section Views

variable (text : κ → String) (see : ι → κ)

theorem nameItems_map (names : List ι) : nameItems text (names.map see) = nameItems (text ∘ see) names := by
  simp [nameItems, Function.comp_def]

theorem Parameters.items_view (parameters : Parameters ι) :
    (parameters.view see).items text = parameters.items (text ∘ see) := by
  cases vararg : parameters.vararg <;> simp [Parameters.items, Parameters.view, vararg, nameItems_map]

theorem FunctionName.kinds_view (name : FunctionName ι) :
    (name.view see).kinds text = name.kinds (text ∘ see) := by
  simp [FunctionName.kinds, FunctionName.view, List.flatMap_map, Option.map_map, Function.comp_def]

theorem Site.writings_view (multiValue asBase : Bool) (site : Site) (inner : Language Kind) :
    (site.view .exact multiValue asBase).writings inner = site.writings inner := rfl

attribute [local simp] Expr.view Expr.viewAll Field.view Field.viewAll Stat.view Else.view Block.view Expr.writings
  Expr.writingsAll Field.writings Field.writingsAll Stat.writings Else.writings Block.writings nameItems_map
  Parameters.items_view FunctionName.kinds_view Site.writings_view

mutual

theorem Expr.writings_view : ∀ (expression : Expr ι) (asBase : Bool),
    (expression.view .exact see asBase).writings text = expression.writings (text ∘ see)
  | .identifier .., _ => by simp
  | .literal .., _ => by simp
  | .binary _ _ left right, _ => by simp [left.writings_view, right.writings_view]
  | .unary _ _ operand, _ => by simp [operand.writings_view]
  | .call _ callee arguments, _ => by simp [callee.writings_view, Expr.writingsAll_view arguments]
  | .callTable _ callee _ fields, _ => by simp [callee.writings_view, Field.writingsAll_view fields]
  | .callString _ callee _ _, _ => by simp [callee.writings_view]
  | .index _ base key, _ => by simp [base.writings_view, key.writings_view]
  | .member _ base _ _, _ => by simp [base.writings_view]
  | .function _ _ body, _ => by simp [body.writings_view]
  | .table _ fields, _ => by simp [Field.writingsAll_view fields]

theorem Expr.writingsAll_view : ∀ expressions : List (Expr ι),
    Expr.writingsAll text (Expr.viewAll .exact see expressions) = Expr.writingsAll (text ∘ see) expressions
  | [] => rfl
  | expression :: rest => by simp [expression.writings_view, Expr.writingsAll_view rest]

theorem Field.writings_view : ∀ field : Field ι,
    (field.view .exact see).writings text = field.writings (text ∘ see)
  | .keyed key value => by simp [key.writings_view, value.writings_view]
  | .named _ value => by simp [value.writings_view]
  | .item value => by simp [value.writings_view]

theorem Field.writingsAll_view : ∀ fields : List (Field ι),
    Field.writingsAll text (Field.viewAll .exact see fields) = Field.writingsAll (text ∘ see) fields
  | [] => rfl
  | field :: rest => by simp [field.writings_view, Field.writingsAll_view rest]

theorem Stat.writings_view : ∀ statement : Stat ι,
    (statement.view .exact see).writings text = statement.writings (text ∘ see)
  | .assign _ targets values => by simp [Expr.writingsAll_view targets, Expr.writingsAll_view values]
  | .localVars _ _ [] => by simp
  | .localVars _ _ (value :: values) => by simp [value.writings_view, Expr.writingsAll_view values]
  | .call _ call => by simp [call.writings_view]
  | .cond _ condition body rest => by simp [condition.writings_view, body.writings_view, rest.writings_view]
  | .whileLoop _ condition body => by simp [condition.writings_view, body.writings_view]
  | .doBlock _ body => by simp [body.writings_view]
  | .breakLoop _ => rfl
  | .repeatLoop _ body condition => by simp [condition.writings_view, body.writings_view]
  | .function _ _ _ body => by simp [body.writings_view]
  | .localFunction _ _ _ body => by simp [body.writings_view]
  | .numericFor _ _ first limit none body => by
    simp [first.writings_view, limit.writings_view, body.writings_view]
  | .numericFor _ _ first limit (some step) body => by
    simp [first.writings_view, limit.writings_view, step.writings_view, body.writings_view]
  | .genericFor _ _ iterators body => by simp [Expr.writingsAll_view iterators, body.writings_view]
  | .label .. => rfl
  | .goto .. => rfl

theorem Else.writings_view : ∀ rest : Else ι, (rest.view .exact see).writings text = rest.writings (text ∘ see)
  | .none => rfl
  | .otherwise _ body => by simp [body.writings_view]
  | .elseif _ condition body rest => by simp [condition.writings_view, body.writings_view, rest.writings_view]

theorem Block.writings_view : ∀ body : Block ι, (body.view .exact see).writings text = body.writings (text ∘ see)
  | .nil => rfl
  | .ret _ values => by simp [Expr.writingsAll_view values]
  | .cons head tail => by simp [head.writings_view, tail.writings_view]

end

end Views

theorem Expr.writingsAll_ne_nil (text : ι → String) {expressions : List (Expr ι)} (filled : expressions ≠ []) :
    Expr.writingsAll text expressions ≠ [] := by
  cases expressions with
  | nil => exact absurd rfl filled
  | cons => simp [Expr.writingsAll]

theorem Expr.writings_parenthesize (text : ι → String) (expression : Expr ι) :
    Within (exactly [.symbol .leftParen] * expression.writings text * exactly [.symbol .rightParen])
      (expression.parenthesize.writings text) := by
  cases expression <;> exact Site.writings_enclose _ _

end LuaMinifier
