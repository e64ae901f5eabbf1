import LuaMinifier.Proofs.Regrouping

/-!
The items of a tree: its tokens in order, without the parentheses, commas and semicolons that only hold them apart.
Two texts of one tree differ in nothing but those and the names of variables, so the items are what a text, the tree
read from it and the text printed from that have in common.
-/

namespace LuaMinifier

open Token

variable {ι κ μ σ δ : Type}

/-- A token of a tree: an occurrence of a variable, a literal with its position, or a word or sign of the grammar. -/
inductive Item (ι : Type)
  | occurrence (name : ι)
  | literal (kind : Kind) (position : Position)
  | fixed (kind : Kind)
deriving DecidableEq, Repr

namespace Item

def kind (text : ι → String) : Item ι → Kind
  | .occurrence name => .name (text name)
  | .literal kind _ => kind
  | .fixed kind => kind

def map (see : ι → κ) : Item ι → Item κ
  | .occurrence name => .occurrence (see name)
  | .literal kind position => .literal kind position
  | .fixed kind => .fixed kind

def view (see : ι → κ) : Item ι → Item κ
  | .occurrence name => .occurrence (see name)
  | .literal kind _ => .literal kind .start
  | .fixed kind => .fixed kind

end Item

def Symbol.separates : Symbol → Bool
  | .leftParen | .rightParen | .comma | .semicolon => true
  | _ => false

def Token.Kind.separates : Kind → Bool
  | .symbol sign => sign.separates
  | _ => false

def significant (kinds : List Kind) : List Kind := kinds.filter (!·.separates)

def Parameters.leaves (parameters : Parameters ι) : List (Item ι) :=
  parameters.names.map .occurrence
    ++ (parameters.vararg.map fun position => .literal (.symbol .dotDotDot) position).toList

def FunctionName.leaves (name : FunctionName ι) : List (Item ι) :=
  .occurrence name.root :: (name.fields.flatMap fun field => [.fixed (.symbol .dot), .fixed (.name field.text)])
    ++ (name.method.map fun method => [.fixed (.symbol .colon), .fixed (.name method.text)]).getD []

def braced (fields : List (Item ι)) : List (Item ι) :=
  .fixed (.symbol .leftBrace) :: fields ++ [.fixed (.symbol .rightBrace)]

mutual

def Expr.items : Expr ι → List (Item ι)
  | .identifier _ occurrence => [.occurrence occurrence]
  | .literal site kind raw => [.literal (kind.token raw) site.position]
  | .binary _ operator left right => left.items ++ .fixed operator.token :: right.items
  | .unary _ operator operand => .fixed operator.token :: operand.items
  | .call _ callee arguments => callee.items ++ Expr.itemsAll arguments
  | .callTable _ callee _ fields => callee.items ++ braced (Field.itemsAll fields)
  | .callString _ callee position raw => callee.items ++ [.literal (.string raw) position]
  | .index _ base key => base.items ++ .fixed (.symbol .leftBracket) :: key.items ++ [.fixed (.symbol .rightBracket)]
  | .member _ base access name => base.items ++ [.fixed access.token, .fixed (.name name.text)]
  | .function _ parameters body =>
    .fixed (.keyword .kFunction) :: parameters.leaves ++ body.items ++ [.fixed (.keyword .kEnd)]
  | .table _ fields => braced (Field.itemsAll fields)

def Expr.itemsAll : List (Expr ι) → List (Item ι)
  | [] => []
  | expression :: rest => expression.items ++ Expr.itemsAll rest

def Field.items : Field ι → List (Item ι)
  | .keyed key value =>
    .fixed (.symbol .leftBracket) :: key.items
      ++ .fixed (.symbol .rightBracket) :: .fixed (.symbol .assign) :: value.items
  | .named name value => .fixed (.name name.text) :: .fixed (.symbol .assign) :: value.items
  | .item value => value.items

def Field.itemsAll : List (Field ι) → List (Item ι)
  | [] => []
  | field :: rest => field.items ++ Field.itemsAll rest

def Stat.items : Stat ι → List (Item ι)
  | .assign _ targets values => Expr.itemsAll targets ++ .fixed (.symbol .assign) :: Expr.itemsAll values
  | .localVars _ names values =>
    .fixed (.keyword .kLocal) :: names.map .occurrence
      ++ if values.isEmpty then [] else .fixed (.symbol .assign) :: Expr.itemsAll values
  | .call _ call => call.items
  | .cond _ condition body rest =>
    .fixed (.keyword .kIf) :: condition.items ++ .fixed (.keyword .kThen) :: body.items ++ rest.items
  | .whileLoop _ condition body =>
    .fixed (.keyword .kWhile) :: condition.items ++ .fixed (.keyword .kDo) :: body.items ++ [.fixed (.keyword .kEnd)]
  | .doBlock _ body => .fixed (.keyword .kDo) :: body.items ++ [.fixed (.keyword .kEnd)]
  | .breakLoop _ => [.fixed (.keyword .kBreak)]
  | .repeatLoop _ body condition =>
    .fixed (.keyword .kRepeat) :: body.items ++ .fixed (.keyword .kUntil) :: condition.items
  | .function _ name parameters body =>
    .fixed (.keyword .kFunction) :: name.leaves ++ parameters.leaves ++ body.items ++ [.fixed (.keyword .kEnd)]
  | .localFunction _ name parameters body =>
    .fixed (.keyword .kLocal) :: .fixed (.keyword .kFunction) :: .occurrence name :: parameters.leaves ++ body.items
      ++ [.fixed (.keyword .kEnd)]
  | .numericFor _ counter first limit none body =>
    .fixed (.keyword .kFor) :: .occurrence counter :: .fixed (.symbol .assign) :: first.items ++ limit.items
      ++ .fixed (.keyword .kDo) :: body.items ++ [.fixed (.keyword .kEnd)]
  | .numericFor _ counter first limit (some step) body =>
    .fixed (.keyword .kFor) :: .occurrence counter :: .fixed (.symbol .assign) :: first.items ++ limit.items
      ++ step.items ++ .fixed (.keyword .kDo) :: body.items ++ [.fixed (.keyword .kEnd)]
  | .genericFor _ names iterators body =>
    .fixed (.keyword .kFor) :: names.map .occurrence ++ .fixed (.keyword .kIn) :: Expr.itemsAll iterators
      ++ .fixed (.keyword .kDo) :: body.items ++ [.fixed (.keyword .kEnd)]
  | .label _ name => [.fixed (.symbol .colonColon), .fixed (.name name.text), .fixed (.symbol .colonColon)]
  | .goto _ name => [.fixed (.keyword .kGoto), .fixed (.name name.text)]

def Else.items : Else ι → List (Item ι)
  | .none => [.fixed (.keyword .kEnd)]
  | .otherwise _ body => .fixed (.keyword .kElse) :: body.items ++ [.fixed (.keyword .kEnd)]
  | .elseif _ condition body rest =>
    .fixed (.keyword .kElseif) :: condition.items ++ .fixed (.keyword .kThen) :: body.items ++ rest.items

def Block.items : Block ι → List (Item ι)
  | .nil => []
  | .ret _ values => .fixed (.keyword .kReturn) :: Expr.itemsAll values
  | .cons head tail => head.items ++ tail.items

end

section Significance

@[simp] theorem Token.Kind.separates_symbol (sign : Symbol) : (Kind.symbol sign).separates = sign.separates := rfl

@[simp] theorem Token.Kind.separates_keyword (reserved : Keyword) : (Kind.keyword reserved).separates = false := rfl

@[simp] theorem Token.Kind.separates_name (text : String) : (Kind.name text).separates = false := rfl

@[simp] theorem Token.Kind.separates_string (raw : String) : (Kind.string raw).separates = false := rfl

attribute [local simp] Symbol.separates

@[simp] theorem significant_nil : significant [] = [] := rfl

@[simp] theorem significant_cons (kind : Kind) (kinds : List Kind) :
    significant (kind :: kinds) = if kind.separates then significant kinds else kind :: significant kinds := by
  cases separates : kind.separates <;> simp [significant, separates]

@[simp] theorem significant_append (first second : List Kind) :
    significant (first ++ second) = significant first ++ significant second := by
  simp [significant]

@[simp] theorem BinaryOp.token_significant (operator : BinaryOp) : operator.token.separates = false := by
  cases operator <;> rfl

@[simp] theorem UnaryOp.token_significant (operator : UnaryOp) : operator.token.separates = false := by
  cases operator <;> rfl

@[simp] theorem Access.token_significant (access : Access) : access.token.separates = false := by
  cases access <;> rfl

@[simp] theorem LiteralKind.token_significant (kind : LiteralKind) (raw : String) :
    (kind.token raw).separates = false := by
  cases kind <;> rfl

@[simp] theorem significant_enclose (site : Site) (kinds : List Kind) :
    significant (site.enclose kinds) = significant kinds := by
  unfold Site.enclose
  split <;> simp

theorem significant_listed (isFirst : Bool) (parts : List (List Kind)) :
    significant (listed isFirst parts) = significant parts.flatten := by
  induction parts generalizing isFirst with
  | nil => cases isFirst <;> rfl
  | cons part rest ih => cases isFirst <;> simp [listed, ih]

theorem significant_braces (parts : List (List Kind)) : significant (braces parts) =
    .symbol .leftBrace :: significant parts.flatten ++ [.symbol .rightBrace] := by
  unfold braces closingComma
  split <;> simp [significant_listed]

theorem significant_separated (isFirst : Bool) (statement : List Kind) :
    significant (separated isFirst statement) = significant statement := by
  unfold separated
  split <;> simp

theorem significant_functionKinds (parameters : List (List Kind)) (body : List Kind) :
    significant (functionKinds parameters body) =
      significant parameters.flatten ++ significant body ++ [.keyword .kEnd] := by
  simp [functionKinds, significant_listed]

variable (text : ι → String)

theorem significant_nameItems (names : List ι) :
    significant (nameItems text names).flatten = names.map fun name => .name (text name) := by
  induction names with
  | nil => rfl
  | cons name rest ih =>
      simp only [nameItems, List.map_cons, List.flatten_cons, significant_append] at ih ⊢
      rw [ih]
      rfl

theorem significant_parameters (parameters : Parameters ι) :
    significant (parameters.items text).flatten = parameters.leaves.map (Item.kind text) := by
  simp only [Parameters.items, List.flatten_append, significant_append, significant_nameItems]
  cases vararg : parameters.vararg <;> simp [Parameters.leaves, vararg, Item.kind, Function.comp_def]

theorem significant_functionName (name : FunctionName ι) :
    significant (name.kinds text) = name.leaves.map (Item.kind text) := by
  have fields : significant (name.fields.flatMap fun field => [.symbol .dot, .name field.text]) =
      (name.fields.flatMap fun field => [Item.fixed (.symbol .dot), .fixed (.name field.text)]).map
        (Item.kind text) := by
    induction name.fields with
    | nil => rfl
    | cons field rest ih => simp [ih, Item.kind]
  cases method : name.method <;>
    simp [FunctionName.kinds, FunctionName.leaves, fields, method, Item.kind]

end Significance

section Kinds

variable (text : ι → String)

attribute [local simp] Expr.kinds Expr.kindsAll Field.kinds Field.kindsAll Stat.kinds Else.kinds Block.kinds Expr.items
  Expr.itemsAll Field.items Field.itemsAll Stat.items Else.items Block.items significant_listed significant_braces
  significant_separated significant_functionKinds significant_nameItems significant_parameters significant_functionName
  Item.kind Symbol.separates braced

mutual

theorem Expr.significant_kinds : ∀ expression : Expr ι,
    significant (expression.kinds text) = expression.items.map (Item.kind text)
  | .identifier .. => by simp
  | .literal .. => by simp
  | .binary _ _ left right => by simp [left.significant_kinds, right.significant_kinds]
  | .unary _ _ operand => by simp [operand.significant_kinds]
  | .call _ callee arguments => by simp [callee.significant_kinds, Expr.significant_kindsAll arguments]
  | .callTable _ callee _ fields => by simp [callee.significant_kinds, Field.significant_kindsAll fields]
  | .callString _ callee _ _ => by simp [callee.significant_kinds]
  | .index _ base key => by simp [base.significant_kinds, key.significant_kinds]
  | .member _ base _ _ => by simp [base.significant_kinds]
  | .function _ _ body => by simp [body.significant_kinds]
  | .table _ fields => by simp [Field.significant_kindsAll fields]

theorem Expr.significant_kindsAll : ∀ expressions : List (Expr ι),
    significant (Expr.kindsAll text expressions).flatten = (Expr.itemsAll expressions).map (Item.kind text)
  | [] => rfl
  | expression :: rest => by simp [expression.significant_kinds, Expr.significant_kindsAll rest]

theorem Field.significant_kinds : ∀ field : Field ι,
    significant (field.kinds text) = field.items.map (Item.kind text)
  | .keyed key value => by simp [key.significant_kinds, value.significant_kinds]
  | .named _ value => by simp [value.significant_kinds]
  | .item value => by simp [value.significant_kinds]

theorem Field.significant_kindsAll : ∀ fields : List (Field ι),
    significant (Field.kindsAll text fields).flatten = (Field.itemsAll fields).map (Item.kind text)
  | [] => rfl
  | field :: rest => by simp [field.significant_kinds, Field.significant_kindsAll rest]

theorem Stat.significant_kinds : ∀ statement : Stat ι,
    significant (statement.kinds text) = statement.items.map (Item.kind text)
  | .assign _ targets values => by simp [Expr.significant_kindsAll targets, Expr.significant_kindsAll values]
  | .localVars _ _ [] => by simp [Function.comp_def]
  | .localVars _ _ (value :: values) => by
    simp [Function.comp_def, value.significant_kinds, Expr.significant_kindsAll values]
  | .call _ call => by simp [call.significant_kinds]
  | .cond _ condition body rest => by
    simp [condition.significant_kinds, body.significant_kinds, rest.significant_kinds]
  | .whileLoop _ condition body => by simp [condition.significant_kinds, body.significant_kinds]
  | .doBlock _ body => by simp [body.significant_kinds]
  | .breakLoop _ => by simp
  | .repeatLoop _ body condition => by simp [condition.significant_kinds, body.significant_kinds]
  | .function _ _ _ body => by simp [body.significant_kinds]
  | .localFunction _ _ _ body => by simp [body.significant_kinds]
  | .numericFor _ _ first limit none body => by
    simp [first.significant_kinds, limit.significant_kinds, body.significant_kinds]
  | .numericFor _ _ first limit (some step) body => by
    simp [first.significant_kinds, limit.significant_kinds, step.significant_kinds, body.significant_kinds]
  | .genericFor _ _ iterators body => by
    simp [Function.comp_def, Expr.significant_kindsAll iterators, body.significant_kinds]
  | .label .. => by simp
  | .goto .. => by simp

theorem Else.significant_kinds : ∀ rest : Else ι,
    significant (rest.kinds text) = rest.items.map (Item.kind text)
  | .none => by simp
  | .otherwise _ body => by simp [body.significant_kinds]
  | .elseif _ condition body rest => by
    simp [condition.significant_kinds, body.significant_kinds, rest.significant_kinds]

theorem Block.significant_kinds : ∀ (body : Block ι) {isFirst : Bool},
    significant (body.kinds text isFirst) = body.items.map (Item.kind text)
  | .nil, _ => by simp
  | .ret _ values, _ => by simp [Expr.significant_kindsAll values]
  | .cons head tail, _ => by simp [head.significant_kinds, tail.significant_kinds]

end
end Kinds

end LuaMinifier
