import LuaMinifier.Ast.Occurrences

/-!
Views of trees: what is left of a tree when its positions are forgotten. A view replaces every occurrence by what is
to be seen of it, and keeps either all marks of parentheses or only those that cut several values down to one.
-/

namespace LuaMinifier

variable {ι κ μ σ : Type}

/-- Which marks of parentheses a view keeps. -/
inductive Detail
  /-- All of them. -/
  | exact
  /-- Those of calls and of `...`, where nothing is applied to them. -/
  | essential
deriving DecidableEq, Repr

def Detail.keeps : Detail → Bool → Bool → Bool → Bool
  | .exact, _, _, mark => mark
  | .essential, multiValue, asBase, mark => mark && multiValue && !asBase

def Site.view (detail : Detail) (multiValue asBase : Bool) (site : Site) : Site :=
  ⟨.start, detail.keeps multiValue asBase site.parenthesized⟩

def Name.view (name : Name) : Name := ⟨name.text, .start⟩

def Parameters.view (see : ι → κ) (parameters : Parameters ι) : Parameters κ :=
  ⟨parameters.names.map see, parameters.vararg.map fun _ => .start⟩

def FunctionName.view (see : ι → κ) (name : FunctionName ι) : FunctionName κ :=
  ⟨see name.root, name.fields.map Name.view, name.method.map Name.view⟩

mutual

/-- The view of an expression; something may be applied to it. -/
def Expr.view (detail : Detail) (see : ι → κ) (asBase : Bool) : Expr ι → Expr κ
  | .identifier site occurrence => .identifier (site.view detail false asBase) (see occurrence)
  | .literal site kind raw => .literal (site.view detail (kind = .vararg) asBase) kind raw
  | .binary site operator left right =>
    .binary (site.view detail false asBase) operator (left.view detail see false) (right.view detail see false)
  | .unary site operator operand =>
    .unary (site.view detail false asBase) operator (operand.view detail see false)
  | .call site callee arguments =>
    .call (site.view detail true asBase) (callee.view detail see true) (Expr.viewAll detail see arguments)
  | .callTable site callee _ fields =>
    .callTable (site.view detail true asBase) (callee.view detail see true) .start (Field.viewAll detail see fields)
  | .callString site callee _ raw =>
    .callString (site.view detail true asBase) (callee.view detail see true) .start raw
  | .index site base key =>
    .index (site.view detail false asBase) (base.view detail see true) (key.view detail see false)
  | .member site base access name =>
    .member (site.view detail false asBase) (base.view detail see true) access name.view
  | .function site parameters body =>
    .function (site.view detail false asBase) (parameters.view see) (body.view detail see)
  | .table site fields => .table (site.view detail false asBase) (Field.viewAll detail see fields)

def Expr.viewAll (detail : Detail) (see : ι → κ) : List (Expr ι) → List (Expr κ)
  | [] => []
  | expression :: rest => expression.view detail see false :: Expr.viewAll detail see rest

def Field.view (detail : Detail) (see : ι → κ) : Field ι → Field κ
  | .keyed key value => .keyed (key.view detail see false) (value.view detail see false)
  | .named name value => .named name.view (value.view detail see false)
  | .item value => .item (value.view detail see false)

def Field.viewAll (detail : Detail) (see : ι → κ) : List (Field ι) → List (Field κ)
  | [] => []
  | field :: rest => field.view detail see :: Field.viewAll detail see rest

def Stat.view (detail : Detail) (see : ι → κ) : Stat ι → Stat κ
  | .assign _ targets values => .assign .start (Expr.viewAll detail see targets) (Expr.viewAll detail see values)
  | .localVars _ names values => .localVars .start (names.map see) (Expr.viewAll detail see values)
  | .call _ call => .call .start (call.view detail see false)
  | .cond _ condition body rest =>
    .cond .start (condition.view detail see false) (body.view detail see) (rest.view detail see)
  | .whileLoop _ condition body => .whileLoop .start (condition.view detail see false) (body.view detail see)
  | .doBlock _ body => .doBlock .start (body.view detail see)
  | .breakLoop _ => .breakLoop .start
  | .repeatLoop _ body condition => .repeatLoop .start (body.view detail see) (condition.view detail see false)
  | .function _ name parameters body =>
    .function .start (name.view see) (parameters.view see) (body.view detail see)
  | .localFunction _ name parameters body =>
    .localFunction .start (see name) (parameters.view see) (body.view detail see)
  | .numericFor _ counter first limit none body =>
    .numericFor .start (see counter) (first.view detail see false) (limit.view detail see false) none
      (body.view detail see)
  | .numericFor _ counter first limit (some step) body =>
    .numericFor .start (see counter) (first.view detail see false) (limit.view detail see false)
      (some (step.view detail see false)) (body.view detail see)
  | .genericFor _ names iterators body =>
    .genericFor .start (names.map see) (Expr.viewAll detail see iterators) (body.view detail see)
  | .label _ name => .label .start name.view
  | .goto _ name => .goto .start name.view

def Else.view (detail : Detail) (see : ι → κ) : Else ι → Else κ
  | .none => .none
  | .otherwise _ body => .otherwise .start (body.view detail see)
  | .elseif _ condition body rest =>
    .elseif .start (condition.view detail see false) (body.view detail see) (rest.view detail see)

def Block.view (detail : Detail) (see : ι → κ) : Block ι → Block κ
  | .nil => .nil
  | .ret _ values => .ret .start (Expr.viewAll detail see values)
  | .cons head tail => .cons (head.view detail see) (tail.view detail see)

end

section Composition

variable (detail : Detail) (see : ι → κ) (further : κ → μ)

@[simp] theorem Name.view_view (name : Name) : name.view.view = name.view := rfl

@[simp] theorem Name.view_text (name : Name) : name.view.text = name.text := rfl

@[simp] theorem Site.view_exact (multiValue asBase again : Bool) (site : Site) :
    (site.view .exact multiValue asBase).view detail multiValue again = site.view detail multiValue again := rfl

@[simp] theorem Parameters.view_view (parameters : Parameters ι) :
    (parameters.view see).view further = parameters.view (further ∘ see) := by
  simp [Parameters.view, Function.comp_def]

@[simp] theorem FunctionName.view_view (name : FunctionName ι) :
    (name.view see).view further = name.view (further ∘ see) := by
  simp [FunctionName.view, Function.comp_def]

mutual

theorem Expr.view_exact (asBase again : Bool) : ∀ expression : Expr ι,
    (expression.view .exact see asBase).view detail further again = expression.view detail (further ∘ see) again
  | .identifier .. => by simp [Expr.view]
  | .literal .. => by simp [Expr.view]
  | .binary _ _ left right => by simp [Expr.view, Expr.view_exact false false left, Expr.view_exact false false right]
  | .unary _ _ operand => by simp [Expr.view, Expr.view_exact false false operand]
  | .call _ callee arguments => by
    simp [Expr.view, Expr.view_exact true true callee, Expr.viewAll_exact arguments]
  | .callTable _ callee _ fields => by
    simp [Expr.view, Expr.view_exact true true callee, Field.viewAll_exact fields]
  | .callString _ callee _ _ => by simp [Expr.view, Expr.view_exact true true callee]
  | .index _ base key => by simp [Expr.view, Expr.view_exact true true base, Expr.view_exact false false key]
  | .member _ base _ _ => by simp [Expr.view, Expr.view_exact true true base]
  | .function _ _ body => by simp [Expr.view, Block.view_exact body]
  | .table _ fields => by simp [Expr.view, Field.viewAll_exact fields]

theorem Expr.viewAll_exact : ∀ expressions : List (Expr ι),
    Expr.viewAll detail further (Expr.viewAll .exact see expressions) =
      Expr.viewAll detail (further ∘ see) expressions
  | [] => rfl
  | expression :: rest => by simp [Expr.viewAll, Expr.view_exact false false expression, Expr.viewAll_exact rest]

theorem Field.view_exact : ∀ field : Field ι,
    (field.view .exact see).view detail further = field.view detail (further ∘ see)
  | .keyed key value => by simp [Field.view, Expr.view_exact false false key, Expr.view_exact false false value]
  | .named _ value => by simp [Field.view, Expr.view_exact false false value]
  | .item value => by simp [Field.view, Expr.view_exact false false value]

theorem Field.viewAll_exact : ∀ fields : List (Field ι),
    Field.viewAll detail further (Field.viewAll .exact see fields) = Field.viewAll detail (further ∘ see) fields
  | [] => rfl
  | field :: rest => by simp [Field.viewAll, Field.view_exact field, Field.viewAll_exact rest]

theorem Stat.view_exact : ∀ statement : Stat ι,
    (statement.view .exact see).view detail further = statement.view detail (further ∘ see)
  | .assign _ targets values => by simp [Stat.view, Expr.viewAll_exact targets, Expr.viewAll_exact values]
  | .localVars _ _ values => by simp [Stat.view, Expr.viewAll_exact values]
  | .call _ call => by simp [Stat.view, Expr.view_exact false false call]
  | .cond _ condition body rest => by
    simp [Stat.view, Expr.view_exact false false condition, Block.view_exact body, Else.view_exact rest]
  | .whileLoop _ condition body => by
    simp [Stat.view, Expr.view_exact false false condition, Block.view_exact body]
  | .doBlock _ body => by simp [Stat.view, Block.view_exact body]
  | .breakLoop _ => rfl
  | .repeatLoop _ body condition => by
    simp [Stat.view, Expr.view_exact false false condition, Block.view_exact body]
  | .function _ _ _ body => by simp [Stat.view, Block.view_exact body]
  | .localFunction _ _ _ body => by simp [Stat.view, Block.view_exact body]
  | .numericFor _ _ first limit none body => by
    simp [Stat.view, Expr.view_exact false false first, Expr.view_exact false false limit, Block.view_exact body]
  | .numericFor _ _ first limit (some step) body => by
    simp [Stat.view, Expr.view_exact false false first, Expr.view_exact false false limit,
      Expr.view_exact false false step, Block.view_exact body]
  | .genericFor _ _ iterators body => by simp [Stat.view, Expr.viewAll_exact iterators, Block.view_exact body]
  | .label .. => rfl
  | .goto .. => rfl

theorem Else.view_exact : ∀ rest : Else ι,
    (rest.view .exact see).view detail further = rest.view detail (further ∘ see)
  | .none => rfl
  | .otherwise _ body => by simp [Else.view, Block.view_exact body]
  | .elseif _ condition body rest => by
    simp [Else.view, Expr.view_exact false false condition, Block.view_exact body, Else.view_exact rest]

theorem Block.view_exact : ∀ body : Block ι,
    (body.view .exact see).view detail further = body.view detail (further ∘ see)
  | .nil => rfl
  | .ret _ values => by simp [Block.view, Expr.viewAll_exact values]
  | .cons head tail => by simp [Block.view, Stat.view_exact head, Block.view_exact tail]

end
end Composition

/-- Replacing occurrences while a state grows: what stands for an occurrence can still be found in any later state. -/
structure Keeps (replace : ι → StateM σ κ) (found : σ → ι → κ) (grows : σ → σ → Prop) : Prop where
  refl : ∀ state, grows state state
  trans : ∀ {first second third}, grows first second → grows second third → grows first third
  grow : ∀ occurrence state, grows state (replace occurrence state).2
  find : ∀ occurrence state later, grows (replace occurrence state).2 later →
    (replace occurrence state).1 = found later occurrence

namespace Keeps

variable {replace : ι → StateM σ κ} {found : σ → ι → κ} {grows : σ → σ → Prop} {α β : Type}

/-- A fact about the result of some work that holds from its last state on. -/
def Holds (grows : σ → σ → Prop) (work : StateM σ α) (fact : σ → α → Prop) : Prop :=
  ∀ state, grows state (work state).2 ∧ ∀ later, grows (work state).2 later → fact later (work state).1

theorem holds_pure (keeps : Keeps replace found grows) {value : α} {fact : σ → α → Prop}
    (holds : ∀ later, fact later value) : Holds grows (pure value : StateM σ α) fact :=
  fun state => ⟨keeps.refl state, fun later _ => holds later⟩

theorem holds_bind (keeps : Keeps replace found grows) {work : StateM σ α} {next : α → StateM σ β}
    {first : σ → α → Prop} {fact : σ → β → Prop} (start : Holds grows work first)
    (rest : ∀ value, Holds grows (next value) fun later result => first later value → fact later result) :
    Holds grows (work >>= next) fact := by
  intro state
  obtain ⟨grown, known⟩ := start state
  obtain ⟨further, final⟩ := rest (work state).1 (work state).2
  refine ⟨keeps.trans grown further, ?_⟩
  intro later after
  exact final later after (known later (keeps.trans further after))

theorem holds_replace (keeps : Keeps replace found grows) (occurrence : ι) :
    Holds grows (replace occurrence) fun later result => result = found later occurrence :=
  fun state => ⟨keeps.grow occurrence state, keeps.find occurrence state⟩

theorem holds_mapM (keeps : Keeps replace found grows) (occurrences : List ι) :
    Holds grows (occurrences.mapM replace) fun later result => result = occurrences.map (found later) := by
  induction occurrences with
  | nil => exact keeps.holds_pure fun _ => rfl
  | cons occurrence rest ih =>
      rw [List.mapM_cons]
      refine keeps.holds_bind (keeps.holds_replace occurrence) fun _ => keeps.holds_bind ih fun _ =>
        keeps.holds_pure ?_
      intro later others first
      simp [first, others]

theorem holds_parameters (keeps : Keeps replace found grows) (see : κ → μ) (parameters : Parameters ι) :
    Holds grows (parameters.mapM replace) fun later result =>
      result.view see = parameters.view (see ∘ found later) := by
  refine keeps.holds_bind (keeps.holds_mapM parameters.names) fun _ => keeps.holds_pure ?_
  intro later names
  simp [Parameters.view, names]

theorem holds_functionName (keeps : Keeps replace found grows) (see : κ → μ) (name : FunctionName ι) :
    Holds grows (name.mapM replace) fun later result => result.view see = name.view (see ∘ found later) := by
  refine keeps.holds_bind (keeps.holds_replace name.root) fun _ => keeps.holds_pure ?_
  intro later root
  simp [FunctionName.view, root]

variable (keeps : Keeps replace found grows) (detail : Detail) (see : κ → μ)
include keeps

mutual

theorem holds_expr : ∀ expression : Expr ι, Holds grows (expression.mapM replace) fun later result =>
    ∀ asBase, result.view detail see asBase = expression.view detail (see ∘ found later) asBase
  | .identifier _ occurrence => by
    rw [Expr.mapM]
    refine keeps.holds_bind (keeps.holds_replace occurrence) fun _ => keeps.holds_pure ?_
    intro later known asBase
    simp [Expr.view, known]
  | .literal .. => keeps.holds_pure fun _ _ => rfl
  | .binary _ _ left right => by
    rw [Expr.mapM]
    refine keeps.holds_bind (holds_expr left) fun _ => keeps.holds_bind (holds_expr right) fun _ =>
      keeps.holds_pure ?_
    intro later second first asBase
    simp [Expr.view, first, second]
  | .unary _ _ operand => by
    rw [Expr.mapM]
    refine keeps.holds_bind (holds_expr operand) fun _ => keeps.holds_pure ?_
    intro later known asBase
    simp [Expr.view, known]
  | .call _ callee arguments => by
    rw [Expr.mapM]
    refine keeps.holds_bind (holds_expr callee) fun _ => keeps.holds_bind (holds_exprs arguments) fun _ =>
      keeps.holds_pure ?_
    intro later second first asBase
    simp [Expr.view, first, second]
  | .callTable _ callee _ fields => by
    rw [Expr.mapM]
    refine keeps.holds_bind (holds_expr callee) fun _ => keeps.holds_bind (holds_fields fields) fun _ =>
      keeps.holds_pure ?_
    intro later second first asBase
    simp [Expr.view, first, second]
  | .callString _ callee _ _ => by
    rw [Expr.mapM]
    refine keeps.holds_bind (holds_expr callee) fun _ => keeps.holds_pure ?_
    intro later known asBase
    simp [Expr.view, known]
  | .index _ base key => by
    rw [Expr.mapM]
    refine keeps.holds_bind (holds_expr base) fun _ => keeps.holds_bind (holds_expr key) fun _ =>
      keeps.holds_pure ?_
    intro later second first asBase
    simp [Expr.view, first, second]
  | .member _ base _ _ => by
    rw [Expr.mapM]
    refine keeps.holds_bind (holds_expr base) fun _ => keeps.holds_pure ?_
    intro later known asBase
    simp [Expr.view, known]
  | .function _ parameters body => by
    rw [Expr.mapM]
    refine keeps.holds_bind (keeps.holds_parameters see parameters) fun _ =>
      keeps.holds_bind (holds_block body) fun _ => keeps.holds_pure ?_
    intro later second first asBase
    simp [Expr.view, first, second]
  | .table _ fields => by
    rw [Expr.mapM]
    refine keeps.holds_bind (holds_fields fields) fun _ => keeps.holds_pure ?_
    intro later known asBase
    simp [Expr.view, known]

theorem holds_exprs : ∀ expressions : List (Expr ι),
    Holds grows (Expr.mapAllM replace expressions) fun later result =>
      Expr.viewAll detail see result = Expr.viewAll detail (see ∘ found later) expressions
  | [] => keeps.holds_pure fun _ => rfl
  | expression :: rest => by
    rw [Expr.mapAllM]
    refine keeps.holds_bind (holds_expr expression) fun _ => keeps.holds_bind (holds_exprs rest) fun _ =>
      keeps.holds_pure ?_
    intro later second first
    simp [Expr.viewAll, first, second]

theorem holds_field : ∀ field : Field ι, Holds grows (field.mapM replace) fun later result =>
    result.view detail see = field.view detail (see ∘ found later)
  | .keyed key value => by
    rw [Field.mapM]
    refine keeps.holds_bind (holds_expr key) fun _ => keeps.holds_bind (holds_expr value) fun _ =>
      keeps.holds_pure ?_
    intro later second first
    simp [Field.view, first, second]
  | .named _ value => by
    rw [Field.mapM]
    refine keeps.holds_bind (holds_expr value) fun _ => keeps.holds_pure ?_
    intro later known
    simp [Field.view, known]
  | .item value => by
    rw [Field.mapM]
    refine keeps.holds_bind (holds_expr value) fun _ => keeps.holds_pure ?_
    intro later known
    simp [Field.view, known]

theorem holds_fields : ∀ fields : List (Field ι),
    Holds grows (Field.mapAllM replace fields) fun later result =>
      Field.viewAll detail see result = Field.viewAll detail (see ∘ found later) fields
  | [] => keeps.holds_pure fun _ => rfl
  | field :: rest => by
    rw [Field.mapAllM]
    refine keeps.holds_bind (holds_field field) fun _ => keeps.holds_bind (holds_fields rest) fun _ =>
      keeps.holds_pure ?_
    intro later second first
    simp [Field.viewAll, first, second]

theorem holds_stat : ∀ statement : Stat ι, Holds grows (statement.mapM replace) fun later result =>
    result.view detail see = statement.view detail (see ∘ found later)
  | .assign _ targets values => by
    rw [Stat.mapM]
    refine keeps.holds_bind (holds_exprs targets) fun _ => keeps.holds_bind (holds_exprs values) fun _ =>
      keeps.holds_pure ?_
    intro later second first
    simp [Stat.view, first, second]
  | .localVars _ names values => by
    rw [Stat.mapM]
    refine keeps.holds_bind (keeps.holds_mapM names) fun _ => keeps.holds_bind (holds_exprs values) fun _ =>
      keeps.holds_pure ?_
    intro later second first
    simp [Stat.view, first, second]
  | .call _ call => by
    rw [Stat.mapM]
    refine keeps.holds_bind (holds_expr call) fun _ => keeps.holds_pure ?_
    intro later known
    simp [Stat.view, known]
  | .cond _ condition body rest => by
    rw [Stat.mapM]
    refine keeps.holds_bind (holds_expr condition) fun _ => keeps.holds_bind (holds_block body) fun _ =>
      keeps.holds_bind (holds_else rest) fun _ => keeps.holds_pure ?_
    intro later third second first
    simp [Stat.view, first, second, third]
  | .whileLoop _ condition body => by
    rw [Stat.mapM]
    refine keeps.holds_bind (holds_expr condition) fun _ => keeps.holds_bind (holds_block body) fun _ =>
      keeps.holds_pure ?_
    intro later second first
    simp [Stat.view, first, second]
  | .doBlock _ body => by
    rw [Stat.mapM]
    refine keeps.holds_bind (holds_block body) fun _ => keeps.holds_pure ?_
    intro later known
    simp [Stat.view, known]
  | .breakLoop _ => keeps.holds_pure fun _ => rfl
  | .repeatLoop _ body condition => by
    rw [Stat.mapM]
    refine keeps.holds_bind (holds_block body) fun _ => keeps.holds_bind (holds_expr condition) fun _ =>
      keeps.holds_pure ?_
    intro later second first
    simp [Stat.view, first, second]
  | .function _ name parameters body => by
    rw [Stat.mapM]
    refine keeps.holds_bind (keeps.holds_functionName see name) fun _ =>
      keeps.holds_bind (keeps.holds_parameters see parameters) fun _ =>
        keeps.holds_bind (holds_block body) fun _ => keeps.holds_pure ?_
    intro later third second first
    simp [Stat.view, first, second, third]
  | .localFunction _ name parameters body => by
    rw [Stat.mapM]
    refine keeps.holds_bind (keeps.holds_replace name) fun _ =>
      keeps.holds_bind (keeps.holds_parameters see parameters) fun _ =>
        keeps.holds_bind (holds_block body) fun _ => keeps.holds_pure ?_
    intro later third second first
    simp [Stat.view, first, second, third]
  | .numericFor _ counter first limit none body => by
    rw [Stat.mapM]
    refine keeps.holds_bind (keeps.holds_replace counter) fun _ => keeps.holds_bind (holds_expr first) fun _ =>
      keeps.holds_bind (holds_expr limit) fun _ => keeps.holds_bind (holds_block body) fun _ =>
        keeps.holds_pure ?_
    intro later fourth third second first
    simp [Stat.view, first, second, third, fourth]
  | .numericFor _ counter first limit (some step) body => by
    rw [Stat.mapM]
    refine keeps.holds_bind (keeps.holds_replace counter) fun _ => keeps.holds_bind (holds_expr first) fun _ =>
      keeps.holds_bind (holds_expr limit) fun _ => keeps.holds_bind (holds_expr step) fun _ =>
        keeps.holds_bind (holds_block body) fun _ => keeps.holds_pure ?_
    intro later fifth fourth third second first
    simp [Stat.view, first, second, third, fourth, fifth]
  | .genericFor _ names iterators body => by
    rw [Stat.mapM]
    refine keeps.holds_bind (keeps.holds_mapM names) fun _ => keeps.holds_bind (holds_exprs iterators) fun _ =>
      keeps.holds_bind (holds_block body) fun _ => keeps.holds_pure ?_
    intro later third second first
    simp [Stat.view, first, second, third]
  | .label .. => keeps.holds_pure fun _ => rfl
  | .goto .. => keeps.holds_pure fun _ => rfl

theorem holds_else : ∀ rest : Else ι, Holds grows (rest.mapM replace) fun later result =>
    result.view detail see = rest.view detail (see ∘ found later)
  | .none => keeps.holds_pure fun _ => rfl
  | .otherwise _ body => by
    rw [Else.mapM]
    refine keeps.holds_bind (holds_block body) fun _ => keeps.holds_pure ?_
    intro later known
    simp [Else.view, known]
  | .elseif _ condition body rest => by
    rw [Else.mapM]
    refine keeps.holds_bind (holds_expr condition) fun _ => keeps.holds_bind (holds_block body) fun _ =>
      keeps.holds_bind (holds_else rest) fun _ => keeps.holds_pure ?_
    intro later third second first
    simp [Else.view, first, second, third]

/-- Replacing the occurrences of a block one after another shows the same as replacing each by what the last state
holds for it. -/
theorem holds_block : ∀ body : Block ι, Holds grows (body.mapM replace) fun later result =>
    result.view detail see = body.view detail (see ∘ found later)
  | .nil => keeps.holds_pure fun _ => rfl
  | .ret _ values => by
    rw [Block.mapM]
    refine keeps.holds_bind (holds_exprs values) fun _ => keeps.holds_pure ?_
    intro later known
    simp [Block.view, known]
  | .cons head tail => by
    rw [Block.mapM]
    refine keeps.holds_bind (holds_stat head) fun _ => keeps.holds_bind (holds_block tail) fun _ =>
      keeps.holds_pure ?_
    intro later second first
    simp [Block.view, first, second]

end
end Keeps
end LuaMinifier
