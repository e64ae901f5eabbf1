import LuaMinifier.Proofs.View
import LuaMinifier.Proofs.Yield

/-!
The shape of trees that stand for texts: what the grammar asks of a tree beyond its type. Literals, fields and labels
are made of valid tokens, and so are the occurrences of variables; suffixes are applied to what can carry them, a method
is only named to be called, and lists that cannot be empty are not.
-/

namespace LuaMinifier

open Token

variable {ι κ : Type}

namespace Expr

/-- What can carry a suffix. -/
def isSuffixable (expression : Expr ι) : Bool :=
  expression.site.parenthesized ||
    match expression with
    | .identifier .. | .index .. | .member .. | .call .. | .callTable .. | .callString .. => true
    | _ => false

theorem isSuffixable_parenthesize (expression : Expr ι) : expression.parenthesize.isSuffixable = true := by
  cases expression <;> rfl

end Expr

/-- A literal is spelled as its token is. -/
def LiteralKind.Formed (valid : Kind → Prop) (kind : LiteralKind) (raw : String) : Prop :=
  valid (kind.token raw) ∧ raw.toList = (kind.token raw).chars

def FunctionName.Formed (valid : Kind → Prop) (named : ι → Prop) (name : FunctionName ι) : Prop :=
  named name.root ∧ (∀ field ∈ name.fields, valid (.name field.text)) ∧
    ∀ method ∈ name.method, valid (.name method.text)

mutual

/-- The shape of an expression, which may be about to be called. -/
def Expr.Formed (valid : Kind → Prop) (named : ι → Prop) (called : Bool) : Expr ι → Prop
  | .identifier _ occurrence => named occurrence
  | .literal _ kind raw => kind.Formed valid raw
  | .binary _ _ left right => left.Formed valid named false ∧ right.Formed valid named false
  | .unary _ _ operand => operand.Formed valid named false
  | .call _ callee arguments =>
    callee.isSuffixable = true ∧ callee.Formed valid named true ∧ Expr.FormedAll valid named arguments
  | .callTable _ callee _ fields =>
    callee.isSuffixable = true ∧ callee.Formed valid named true ∧ Field.FormedAll valid named fields
  | .callString _ callee _ raw =>
    callee.isSuffixable = true ∧ callee.Formed valid named true ∧ valid (.string raw)
  | .index _ base key => base.isSuffixable = true ∧ base.Formed valid named false ∧ key.Formed valid named false
  | .member site base access name =>
    (access = .colon → called = true ∧ site.parenthesized = false) ∧ base.isSuffixable = true ∧
      base.Formed valid named false ∧ valid (.name name.text)
  | .function _ parameters body => (∀ name ∈ parameters.names, named name) ∧ body.Formed valid named
  | .table _ fields => Field.FormedAll valid named fields

def Expr.FormedAll (valid : Kind → Prop) (named : ι → Prop) : List (Expr ι) → Prop
  | [] => True
  | expression :: rest => expression.Formed valid named false ∧ Expr.FormedAll valid named rest

def Field.Formed (valid : Kind → Prop) (named : ι → Prop) : Field ι → Prop
  | .keyed key value => key.Formed valid named false ∧ value.Formed valid named false
  | .named name value => valid (.name name.text) ∧ value.Formed valid named false
  | .item value => value.Formed valid named false

def Field.FormedAll (valid : Kind → Prop) (named : ι → Prop) : List (Field ι) → Prop
  | [] => True
  | field :: rest => field.Formed valid named ∧ Field.FormedAll valid named rest

def Stat.Formed (valid : Kind → Prop) (named : ι → Prop) : Stat ι → Prop
  | .assign _ targets values =>
    targets ≠ [] ∧ (∀ target ∈ targets, target.isAssignable = true) ∧ Expr.FormedAll valid named targets ∧
      values ≠ [] ∧ Expr.FormedAll valid named values
  | .localVars _ names values =>
    names ≠ [] ∧ (∀ name ∈ names, named name) ∧ Expr.FormedAll valid named values
  | .call _ call => call.isCall = true ∧ call.site.parenthesized = false ∧ call.Formed valid named false
  | .cond _ condition body rest =>
    condition.Formed valid named false ∧ body.Formed valid named ∧ rest.Formed valid named
  | .whileLoop _ condition body => condition.Formed valid named false ∧ body.Formed valid named
  | .doBlock _ body => body.Formed valid named
  | .breakLoop _ => True
  | .repeatLoop _ body condition => body.Formed valid named ∧ condition.Formed valid named false
  | .function _ name parameters body =>
    name.Formed valid named ∧ (∀ name ∈ parameters.names, named name) ∧ body.Formed valid named
  | .localFunction _ name parameters body =>
    named name ∧ (∀ name ∈ parameters.names, named name) ∧ body.Formed valid named
  | .numericFor _ counter first limit none body =>
    named counter ∧ first.Formed valid named false ∧ limit.Formed valid named false ∧ body.Formed valid named
  | .numericFor _ counter first limit (some step) body =>
    named counter ∧ first.Formed valid named false ∧ limit.Formed valid named false ∧
      step.Formed valid named false ∧ body.Formed valid named
  | .genericFor _ names iterators body =>
    names ≠ [] ∧ (∀ name ∈ names, named name) ∧ iterators ≠ [] ∧ Expr.FormedAll valid named iterators ∧
      body.Formed valid named
  | .label _ name => valid (.name name.text)
  | .goto _ name => valid (.name name.text)

def Else.Formed (valid : Kind → Prop) (named : ι → Prop) : Else ι → Prop
  | .none => True
  | .otherwise _ body => body.Formed valid named
  | .elseif _ condition body rest =>
    condition.Formed valid named false ∧ body.Formed valid named ∧ rest.Formed valid named

def Block.Formed (valid : Kind → Prop) (named : ι → Prop) : Block ι → Prop
  | .nil => True
  | .ret _ values => Expr.FormedAll valid named values
  | .cons head tail => head.Formed valid named ∧ tail.Formed valid named

end

section Views

variable {valid : Kind → Prop} {named : κ → Prop} {see : ι → κ}

theorem Expr.mem_viewAll {detail : Detail} {see : ι → κ} {seen : Expr κ} {expressions : List (Expr ι)} :
    seen ∈ Expr.viewAll detail see expressions ↔
      ∃ expression ∈ expressions, expression.view detail see false = seen := by
  induction expressions with
  | nil => simp [Expr.viewAll]
  | cons expression rest ih => simp [Expr.viewAll, ih, eq_comm]

@[simp] theorem Expr.viewAll_eq_nil {detail : Detail} {see : ι → κ} {expressions : List (Expr ι)} :
    Expr.viewAll detail see expressions = [] ↔ expressions = [] := by
  cases expressions <;> simp [Expr.viewAll]

@[simp] theorem Expr.site_view_exact (see : ι → κ) (asBase : Bool) (expression : Expr ι) :
    (expression.view .exact see asBase).site.parenthesized = expression.site.parenthesized := by
  cases expression <;> rfl

@[simp] theorem Expr.isSuffixable_view (see : ι → κ) (asBase : Bool) (expression : Expr ι) :
    (expression.view .exact see asBase).isSuffixable = expression.isSuffixable := by
  cases expression <;> rfl

@[simp] theorem Expr.isAssignable_view (see : ι → κ) (asBase : Bool) (expression : Expr ι) :
    (expression.view .exact see asBase).isAssignable = expression.isAssignable := by
  cases expression with
  | member site base access name => cases access <;> rfl
  | _ => rfl

@[simp] theorem Expr.isCall_view (see : ι → κ) (asBase : Bool) (expression : Expr ι) :
    (expression.view .exact see asBase).isCall = expression.isCall := by
  cases expression <;> rfl

mutual

theorem Expr.formed_view (called asBase : Bool) : ∀ expression : Expr ι,
    (expression.view .exact see asBase).Formed valid named called ↔ expression.Formed valid (named ∘ see) called
  | .identifier .. => by simp [Expr.view, Expr.Formed]
  | .literal .. => by simp [Expr.view, Expr.Formed]
  | .binary _ _ left right => by
    simp [Expr.view, Expr.Formed, Expr.formed_view false false left, Expr.formed_view false false right]
  | .unary _ _ operand => by simp [Expr.view, Expr.Formed, Expr.formed_view false false operand]
  | .call _ callee arguments => by
    simp [Expr.view, Expr.Formed, Expr.formed_view true true callee, Expr.formedAll_view arguments]
  | .callTable _ callee _ fields => by
    simp [Expr.view, Expr.Formed, Expr.formed_view true true callee, Field.formedAll_view fields]
  | .callString _ callee _ _ => by simp [Expr.view, Expr.Formed, Expr.formed_view true true callee]
  | .index _ base key => by
    simp [Expr.view, Expr.Formed, Expr.formed_view false true base, Expr.formed_view false false key]
  | .member _ base _ _ => by
    simp [Expr.view, Expr.Formed, Expr.formed_view false true base, Site.view, Detail.keeps]
  | .function _ _ body => by simp [Expr.view, Expr.Formed, Block.formed_view body, Parameters.view]
  | .table _ fields => by simp [Expr.view, Expr.Formed, Field.formedAll_view fields]

theorem Expr.formedAll_view : ∀ expressions : List (Expr ι),
    Expr.FormedAll valid named (Expr.viewAll .exact see expressions) ↔
      Expr.FormedAll valid (named ∘ see) expressions
  | [] => Iff.rfl
  | expression :: rest => by
    simp [Expr.viewAll, Expr.FormedAll, Expr.formed_view false false expression, Expr.formedAll_view rest]

theorem Field.formed_view : ∀ field : Field ι,
    (field.view .exact see).Formed valid named ↔ field.Formed valid (named ∘ see)
  | .keyed key value => by
    simp [Field.view, Field.Formed, Expr.formed_view false false key, Expr.formed_view false false value]
  | .named _ value => by simp [Field.view, Field.Formed, Expr.formed_view false false value]
  | .item value => by simp [Field.view, Field.Formed, Expr.formed_view false false value]

theorem Field.formedAll_view : ∀ fields : List (Field ι),
    Field.FormedAll valid named (Field.viewAll .exact see fields) ↔ Field.FormedAll valid (named ∘ see) fields
  | [] => Iff.rfl
  | field :: rest => by
    simp [Field.viewAll, Field.FormedAll, Field.formed_view field, Field.formedAll_view rest]

theorem Stat.formed_view : ∀ statement : Stat ι,
    (statement.view .exact see).Formed valid named ↔ statement.Formed valid (named ∘ see)
  | .assign _ targets values => by
    simp [Stat.view, Stat.Formed, Expr.mem_viewAll, Expr.formedAll_view targets, Expr.formedAll_view values]
  | .localVars _ _ values => by simp [Stat.view, Stat.Formed, Expr.formedAll_view values]
  | .call _ call => by simp [Stat.view, Stat.Formed, Expr.formed_view false false call]
  | .cond _ condition body rest => by
    simp [Stat.view, Stat.Formed, Expr.formed_view false false condition, Block.formed_view body,
      Else.formed_view rest]
  | .whileLoop _ condition body => by
    simp [Stat.view, Stat.Formed, Expr.formed_view false false condition, Block.formed_view body]
  | .doBlock _ body => by simp [Stat.view, Stat.Formed, Block.formed_view body]
  | .breakLoop _ => Iff.rfl
  | .repeatLoop _ body condition => by
    simp [Stat.view, Stat.Formed, Expr.formed_view false false condition, Block.formed_view body]
  | .function _ name _ body => by
    simp [Stat.view, Stat.Formed, FunctionName.view, FunctionName.Formed, Parameters.view, Block.formed_view body]
  | .localFunction _ _ _ body => by simp [Stat.view, Stat.Formed, Parameters.view, Block.formed_view body]
  | .numericFor _ _ first limit none body => by
    simp [Stat.view, Stat.Formed, Expr.formed_view false false first, Expr.formed_view false false limit,
      Block.formed_view body]
  | .numericFor _ _ first limit (some step) body => by
    simp [Stat.view, Stat.Formed, Expr.formed_view false false first, Expr.formed_view false false limit,
      Expr.formed_view false false step, Block.formed_view body]
  | .genericFor _ _ iterators body => by
    simp [Stat.view, Stat.Formed, Expr.formedAll_view iterators, Block.formed_view body]
  | .label .. => Iff.rfl
  | .goto .. => Iff.rfl

theorem Else.formed_view : ∀ rest : Else ι,
    (rest.view .exact see).Formed valid named ↔ rest.Formed valid (named ∘ see)
  | .none => Iff.rfl
  | .otherwise _ body => by simp [Else.view, Else.Formed, Block.formed_view body]
  | .elseif _ condition body rest => by
    simp [Else.view, Else.Formed, Expr.formed_view false false condition, Block.formed_view body,
      Else.formed_view rest]

theorem Block.formed_view : ∀ body : Block ι,
    (body.view .exact see).Formed valid named ↔ body.Formed valid (named ∘ see)
  | .nil => Iff.rfl
  | .ret _ values => by simp [Block.view, Block.Formed, Expr.formedAll_view values]
  | .cons head tail => by simp [Block.view, Block.Formed, Stat.formed_view head, Block.formed_view tail]

end

end Views

section Names

variable {valid : Kind → Prop} {named weaker : ι → Prop}

mutual

theorem Expr.formed_mono (weaken : ∀ name, named name → weaker name) {called : Bool} : ∀ expression : Expr ι,
    expression.Formed valid named called → expression.Formed valid weaker called
  | .identifier _ occurrence => weaken occurrence
  | .literal .. => id
  | .binary _ _ left right => fun formed => ⟨left.formed_mono weaken formed.1, right.formed_mono weaken formed.2⟩
  | .unary _ _ operand => operand.formed_mono weaken
  | .call _ callee arguments => fun formed =>
    ⟨formed.1, callee.formed_mono weaken formed.2.1, Expr.formedAll_mono weaken arguments formed.2.2⟩
  | .callTable _ callee _ fields => fun formed =>
    ⟨formed.1, callee.formed_mono weaken formed.2.1, Field.formedAll_mono weaken fields formed.2.2⟩
  | .callString _ callee _ _ => fun formed => ⟨formed.1, callee.formed_mono weaken formed.2.1, formed.2.2⟩
  | .index _ base key => fun formed =>
    ⟨formed.1, base.formed_mono weaken formed.2.1, key.formed_mono weaken formed.2.2⟩
  | .member _ base _ _ => fun formed =>
    ⟨formed.1, formed.2.1, base.formed_mono weaken formed.2.2.1, formed.2.2.2⟩
  | .function _ _ body => fun formed =>
    ⟨fun name found => weaken name (formed.1 name found), body.formed_mono weaken formed.2⟩
  | .table _ fields => Field.formedAll_mono weaken fields

theorem Expr.formedAll_mono (weaken : ∀ name, named name → weaker name) : ∀ expressions : List (Expr ι),
    Expr.FormedAll valid named expressions → Expr.FormedAll valid weaker expressions
  | [] => id
  | first :: rest => fun formed => ⟨first.formed_mono weaken formed.1, Expr.formedAll_mono weaken rest formed.2⟩

theorem Field.formed_mono (weaken : ∀ name, named name → weaker name) : ∀ field : Field ι,
    field.Formed valid named → field.Formed valid weaker
  | .keyed key value => fun formed => ⟨key.formed_mono weaken formed.1, value.formed_mono weaken formed.2⟩
  | .named _ value => fun formed => ⟨formed.1, value.formed_mono weaken formed.2⟩
  | .item value => value.formed_mono weaken

theorem Field.formedAll_mono (weaken : ∀ name, named name → weaker name) : ∀ fields : List (Field ι),
    Field.FormedAll valid named fields → Field.FormedAll valid weaker fields
  | [] => id
  | first :: rest => fun formed => ⟨first.formed_mono weaken formed.1, Field.formedAll_mono weaken rest formed.2⟩

theorem Stat.formed_mono (weaken : ∀ name, named name → weaker name) : ∀ statement : Stat ι,
    statement.Formed valid named → statement.Formed valid weaker
  | .assign _ targets values => fun ⟨filled, assignable, formed, given, formedValues⟩ =>
    ⟨filled, assignable, Expr.formedAll_mono weaken targets formed, given,
      Expr.formedAll_mono weaken values formedValues⟩
  | .localVars _ _ values => fun ⟨filled, names, formed⟩ =>
    ⟨filled, fun name found => weaken name (names name found), Expr.formedAll_mono weaken values formed⟩
  | .call _ call => fun formed => ⟨formed.1, formed.2.1, call.formed_mono weaken formed.2.2⟩
  | .cond _ condition body rest => fun formed =>
    ⟨condition.formed_mono weaken formed.1, body.formed_mono weaken formed.2.1, rest.formed_mono weaken formed.2.2⟩
  | .whileLoop _ condition body => fun formed =>
    ⟨condition.formed_mono weaken formed.1, body.formed_mono weaken formed.2⟩
  | .doBlock _ body => body.formed_mono weaken
  | .breakLoop _ => id
  | .repeatLoop _ body condition => fun formed =>
    ⟨body.formed_mono weaken formed.1, condition.formed_mono weaken formed.2⟩
  | .function _ _ _ body => fun ⟨name, names, formed⟩ =>
    ⟨⟨weaken _ name.1, name.2⟩, fun name found => weaken name (names name found), body.formed_mono weaken formed⟩
  | .localFunction _ _ _ body => fun ⟨name, names, formed⟩ =>
    ⟨weaken _ name, fun name found => weaken name (names name found), body.formed_mono weaken formed⟩
  | .numericFor _ _ first limit none body => fun formed =>
    ⟨weaken _ formed.1, first.formed_mono weaken formed.2.1, limit.formed_mono weaken formed.2.2.1,
      body.formed_mono weaken formed.2.2.2⟩
  | .numericFor _ _ first limit (some step) body => fun formed =>
    ⟨weaken _ formed.1, first.formed_mono weaken formed.2.1, limit.formed_mono weaken formed.2.2.1,
      step.formed_mono weaken formed.2.2.2.1, body.formed_mono weaken formed.2.2.2.2⟩
  | .genericFor _ _ iterators body => fun ⟨filled, names, given, formedIterators, formed⟩ =>
    ⟨filled, fun name found => weaken name (names name found), given,
      Expr.formedAll_mono weaken iterators formedIterators, body.formed_mono weaken formed⟩
  | .label .. => id
  | .goto .. => id

theorem Else.formed_mono (weaken : ∀ name, named name → weaker name) : ∀ rest : Else ι,
    rest.Formed valid named → rest.Formed valid weaker
  | .none => id
  | .otherwise _ body => body.formed_mono weaken
  | .elseif _ condition body rest => fun formed =>
    ⟨condition.formed_mono weaken formed.1, body.formed_mono weaken formed.2.1, rest.formed_mono weaken formed.2.2⟩

theorem Block.formed_mono (weaken : ∀ name, named name → weaker name) : ∀ body : Block ι,
    body.Formed valid named → body.Formed valid weaker
  | .nil => id
  | .ret _ values => Expr.formedAll_mono weaken values
  | .cons head tail => fun formed => ⟨head.formed_mono weaken formed.1, tail.formed_mono weaken formed.2⟩

end

end Names
namespace Token.Kind

/-- Tokens that start what can carry a suffix. -/
def startsSuffixed : Kind → Bool
  | .name _ | .symbol .leftParen => true
  | _ => false

/-- Tokens that can start a statement before the last one. -/
def startsStatement : Kind → Bool
  | .name _ | .symbol .leftParen | .symbol .colonColon | .keyword .kBreak | .keyword .kDo | .keyword .kFor
  | .keyword .kFunction | .keyword .kGoto | .keyword .kIf | .keyword .kLocal | .keyword .kRepeat
  | .keyword .kWhile => true
  | _ => false

/-- Tokens that can start a statement, a return included. -/
def startsLine (kind : Kind) : Bool := kind.startsStatement || kind = .keyword .kReturn

theorem follows_of_startsLine (kind : Kind) (start : kind.startsLine = true) : kind.follows = true := by
  cases kind with
  | symbol sign => cases sign <;> first | rfl | simp [startsLine, startsStatement] at start
  | number raw => simp [startsLine, startsStatement] at start
  | _ => rfl

theorem startsLine_of_startsStatement (kind : Kind) (start : kind.startsStatement = true) :
    kind.startsLine = true := by
  simp [startsLine, start]

theorem startsStatement_of_startsSuffixed (kind : Kind) (start : kind.startsSuffixed = true) :
    kind.startsStatement = true := by
  cases kind with
  | symbol sign => cases sign <;> first | rfl | simp [startsSuffixed] at start
  | name text => rfl
  | _ => simp [startsSuffixed] at start

end Token.Kind

section Edges

variable {valid : Kind → Prop} {named : ι → Prop} (text : ι → String)

theorem endsClosed_cons_of_closes {first : Kind} {kinds : List Kind} (closes : first.closes = true)
    (closed : endsClosed kinds = true) : endsClosed (first :: kinds) = true := by
  rw [← List.singleton_append]
  exact endsClosed_append closes closed

theorem listed_closed (isFirst : Bool) {items : List (List Kind)}
    (closed : ∀ item ∈ items, endsClosed item = true) : endsClosed (listed isFirst items) = true := by
  induction items generalizing isFirst with
  | nil => cases isFirst <;> rfl
  | cons item rest ih =>
      rw [List.forall_mem_cons] at closed
      have joined := endsClosed_append closed.1 (ih false closed.2)
      cases isFirst with
      | true => exact joined
      | false => exact endsClosed_cons_of_closes rfl joined

theorem Expr.kindsAll_closed (expressions : List (Expr ι)) :
    ∀ item ∈ Expr.kindsAll text expressions, endsClosed item = true := by
  induction expressions with
  | nil => simp [Expr.kindsAll]
  | cons expression rest ih => simpa [Expr.kindsAll] using ⟨expression.kinds_closed text, ih⟩

theorem Expr.listed_head {condition : Kind → Bool} {first : Expr ι} (rest : List (Expr ι))
    (head : HeadIs condition (first.kinds text)) :
    HeadIs condition (listed true (Expr.kindsAll text (first :: rest))) :=
  head.append _

theorem Expr.suffixed_head : ∀ (expression : Expr ι) {called : Bool}, expression.isSuffixable = true →
    expression.Formed valid named called → HeadIs Kind.startsSuffixed (expression.kinds text)
  | .identifier .., _, _, _ => Site.enclose_head rfl ⟨_, _, rfl, rfl⟩
  | .call _ callee _, _, _, formed =>
    Site.enclose_head rfl (((callee.suffixed_head formed.1 formed.2.1).append _).append _)
  | .callTable _ callee _ _, _, _, formed =>
    Site.enclose_head rfl ((callee.suffixed_head formed.1 formed.2.1).append _)
  | .callString _ callee _ _, _, _, formed =>
    Site.enclose_head rfl ((callee.suffixed_head formed.1 formed.2.1).append _)
  | .index _ base _, _, _, formed =>
    Site.enclose_head rfl (((base.suffixed_head formed.1 formed.2.1).append _).append _)
  | .member _ base _ _, _, _, formed =>
    Site.enclose_head rfl ((base.suffixed_head formed.2.1 formed.2.2.1).append _)
  | .literal site .., _, marked, _ | .binary site .., _, marked, _ | .unary site .., _, marked, _
  | .function site .., _, marked, _ | .table site .., _, marked, _ => by
    simp only [Expr.isSuffixable, Expr.site, Bool.or_false] at marked
    simp only [Expr.kinds, Site.enclose, marked]
    exact ⟨_, _, rfl, rfl⟩

theorem Expr.isSuffixable_of_isAssignable {expression : Expr ι} (assignable : expression.isAssignable = true) :
    expression.isSuffixable = true := by
  cases expression <;> simp_all [Expr.isAssignable, Expr.isSuffixable]

theorem Expr.isSuffixable_of_isCall {expression : Expr ι} (call : expression.isCall = true) :
    expression.isSuffixable = true := by
  cases expression <;> simp_all [Expr.isCall, Expr.isSuffixable]

theorem Stat.kinds_head : ∀ statement : Stat ι, statement.Formed valid named →
    HeadIs Kind.startsStatement (statement.kinds text)
  | .assign _ [] _, formed => absurd rfl formed.1
  | .assign _ (target :: targets) _, ⟨_, assignable, formed, _⟩ => by
    have head := target.suffixed_head text (Expr.isSuffixable_of_isAssignable (assignable target (by simp))) formed.1
    exact ((Expr.listed_head text targets head).append _).imp Kind.startsStatement_of_startsSuffixed
  | .call _ applied, ⟨isCall, _, formed⟩ =>
    (applied.suffixed_head text (Expr.isSuffixable_of_isCall isCall) formed).imp Kind.startsStatement_of_startsSuffixed
  | .localVars .., _ | .cond .., _ | .whileLoop .., _ | .doBlock .., _ | .breakLoop .., _ | .repeatLoop .., _
  | .function .., _ | .localFunction .., _ | .numericFor _ _ _ _ none _, _ | .numericFor _ _ _ _ (some _) _, _
  | .genericFor .., _ | .label .., _ | .goto .., _ => ⟨_, _, rfl, rfl⟩

theorem functionKinds_closed (parameters : List (List Kind)) (body : List Kind) :
    endsClosed (functionKinds parameters body) = true :=
  endsClosed_concat ..

theorem nameItems_closed (names : List ι) : ∀ item ∈ nameItems text names, endsClosed item = true := by
  simp [nameItems, endsClosed, Kind.closes]

end Edges
end LuaMinifier
