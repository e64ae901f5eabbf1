import LuaMinifier.Proofs.View
import LuaMinifier.Scope

/-!
Walking a tree in the order in which names become visible. What happens where a name is bound or used, and where a
scope opens or closes, is left open: resolving names is one such walk. Two walks that agree at every such place agree
on the whole tree.
-/

namespace LuaMinifier

variable {ι κ μ σ δ ι' κ' σ' δ' : Type}

/-- What a walk does. A name is bound where it stands, and declared where it becomes visible. -/
structure Scoping (ι κ δ σ : Type) where
  bind : ι → σ → κ × δ × σ
  use : ι → σ → κ
  declare : δ → σ → σ
  declareSelf : σ → σ
  enter : σ → σ
  /-- The state behind a scope, from those before it and at its end. -/
  leave : σ → σ → σ

namespace Scoping

variable (walk : Scoping ι κ δ σ)

def bindAll : List ι → σ → List κ × List δ × σ
  | [], state => ([], [], state)
  | name :: rest, state =>
    let first := walk.bind name state
    let others := bindAll rest first.2.2
    (first.1 :: others.1, first.2.1 :: others.2.1, others.2.2)

def declareAll (declared : List δ) (state : σ) : σ := declared.foldl (fun state each => walk.declare each state) state

/-- Something with a scope of its own. -/
def inScope {α : Type} (work : σ → α × σ) (state : σ) : α × σ :=
  let result := work (walk.enter state)
  (result.1, walk.leave state result.2)

/-- The parameters and the body of a function, which may have a parameter that is not written. -/
def function (method : Bool) (parameters : Parameters ι) (body : σ → Block κ × σ) :
    σ → (Parameters κ × Block κ) × σ :=
  walk.inScope fun inner =>
    let bound := walk.bindAll parameters.names (if method then walk.declareSelf inner else inner)
    let result := body (walk.declareAll bound.2.1 bound.2.2)
    ((⟨bound.1, parameters.vararg⟩, result.1), result.2)

end Scoping

mutual

def Expr.walk (walk : Scoping ι κ δ σ) : Expr ι → σ → Expr κ × σ
  | .identifier site name, state => (.identifier site (walk.use name state), state)
  | .literal site kind raw, state => (.literal site kind raw, state)
  | .binary site operator left right, state =>
    let first := left.walk walk state
    let second := right.walk walk first.2
    (.binary site operator first.1 second.1, second.2)
  | .unary site operator operand, state =>
    let inner := operand.walk walk state
    (.unary site operator inner.1, inner.2)
  | .call site callee arguments, state =>
    let first := callee.walk walk state
    let second := Expr.walkAll walk arguments first.2
    (.call site first.1 second.1, second.2)
  | .callTable site callee position fields, state =>
    let first := callee.walk walk state
    let second := Field.walkAll walk fields first.2
    (.callTable site first.1 position second.1, second.2)
  | .callString site callee position raw, state =>
    let first := callee.walk walk state
    (.callString site first.1 position raw, first.2)
  | .index site base key, state =>
    let first := base.walk walk state
    let second := key.walk walk first.2
    (.index site first.1 second.1, second.2)
  | .member site base access name, state =>
    let first := base.walk walk state
    (.member site first.1 access name, first.2)
  | .function site parameters body, state =>
    let inner := walk.function false parameters (body.walk walk) state
    (.function site inner.1.1 inner.1.2, inner.2)
  | .table site fields, state =>
    let inner := Field.walkAll walk fields state
    (.table site inner.1, inner.2)

def Expr.walkAll (walk : Scoping ι κ δ σ) : List (Expr ι) → σ → List (Expr κ) × σ
  | [], state => ([], state)
  | expression :: rest, state =>
    let first := expression.walk walk state
    let others := Expr.walkAll walk rest first.2
    (first.1 :: others.1, others.2)

def Field.walk (walk : Scoping ι κ δ σ) : Field ι → σ → Field κ × σ
  | .keyed key value, state =>
    let first := key.walk walk state
    let second := value.walk walk first.2
    (.keyed first.1 second.1, second.2)
  | .named name value, state =>
    let inner := value.walk walk state
    (.named name inner.1, inner.2)
  | .item value, state =>
    let inner := value.walk walk state
    (.item inner.1, inner.2)

def Field.walkAll (walk : Scoping ι κ δ σ) : List (Field ι) → σ → List (Field κ) × σ
  | [], state => ([], state)
  | field :: rest, state =>
    let first := field.walk walk state
    let others := Field.walkAll walk rest first.2
    (first.1 :: others.1, others.2)

def Stat.walk (walk : Scoping ι κ δ σ) : Stat ι → σ → Stat κ × σ
  | .assign position targets values, state =>
    let first := Expr.walkAll walk targets state
    let second := Expr.walkAll walk values first.2
    (.assign position first.1 second.1, second.2)
  -- The values do not see the new names.
  | .localVars position names values, state =>
    let bound := walk.bindAll names state
    let given := Expr.walkAll walk values bound.2.2
    (.localVars position bound.1 given.1, walk.declareAll bound.2.1 given.2)
  | .call position call, state =>
    let inner := call.walk walk state
    (.call position inner.1, inner.2)
  | .cond position condition body rest, state =>
    let test := condition.walk walk state
    let inner := walk.inScope (body.walk walk) test.2
    let others := rest.walk walk inner.2
    (.cond position test.1 inner.1 others.1, others.2)
  | .whileLoop position condition body, state =>
    let test := condition.walk walk state
    let inner := walk.inScope (body.walk walk) test.2
    (.whileLoop position test.1 inner.1, inner.2)
  | .doBlock position body, state =>
    let inner := walk.inScope (body.walk walk) state
    (.doBlock position inner.1, inner.2)
  | .breakLoop position, state => (.breakLoop position, state)
  -- The condition sees the locals of the body.
  | .repeatLoop position body condition, state =>
    let inner := walk.inScope (fun inner =>
      let first := body.walk walk inner
      let test := condition.walk walk first.2
      ((first.1, test.1), test.2)) state
    (.repeatLoop position inner.1.1 inner.1.2, inner.2)
  | .function position name parameters body, state =>
    let inner := walk.function name.method.isSome parameters (body.walk walk) state
    (.function position ⟨walk.use name.root state, name.fields, name.method⟩ inner.1.1 inner.1.2, inner.2)
  -- The function sees itself.
  | .localFunction position name parameters body, state =>
    let bound := walk.bind name state
    let inner := walk.function false parameters (body.walk walk) (walk.declare bound.2.1 bound.2.2)
    (.localFunction position bound.1 inner.1.1 inner.1.2, inner.2)
  | .numericFor position counter first limit none body, state =>
    let bound := walk.bind counter state
    let start := first.walk walk bound.2.2
    let stop := limit.walk walk start.2
    let inner := walk.inScope (fun inner => body.walk walk (walk.declare bound.2.1 inner)) stop.2
    (.numericFor position bound.1 start.1 stop.1 none inner.1, inner.2)
  | .numericFor position counter first limit (some step) body, state =>
    let bound := walk.bind counter state
    let start := first.walk walk bound.2.2
    let stop := limit.walk walk start.2
    let stride := step.walk walk stop.2
    let inner := walk.inScope (fun inner => body.walk walk (walk.declare bound.2.1 inner)) stride.2
    (.numericFor position bound.1 start.1 stop.1 (some stride.1) inner.1, inner.2)
  | .genericFor position names iterators body, state =>
    let bound := walk.bindAll names state
    let given := Expr.walkAll walk iterators bound.2.2
    let inner := walk.inScope (fun inner => body.walk walk (walk.declareAll bound.2.1 inner)) given.2
    (.genericFor position bound.1 given.1 inner.1, inner.2)
  | .label position name, state => (.label position name, state)
  | .goto position name, state => (.goto position name, state)

def Else.walk (walk : Scoping ι κ δ σ) : Else ι → σ → Else κ × σ
  | .none, state => (.none, state)
  | .otherwise position body, state =>
    let inner := walk.inScope (body.walk walk) state
    (.otherwise position inner.1, inner.2)
  | .elseif position condition body rest, state =>
    let test := condition.walk walk state
    let inner := walk.inScope (body.walk walk) test.2
    let others := rest.walk walk inner.2
    (.elseif position test.1 inner.1 others.1, others.2)

def Block.walk (walk : Scoping ι κ δ σ) : Block ι → σ → Block κ × σ
  | .nil, state => (.nil, state)
  | .ret position values, state =>
    let given := Expr.walkAll walk values state
    (.ret position given.1, given.2)
  | .cons head tail, state =>
    let first := head.walk walk state
    let others := tail.walk walk first.2
    (.cons first.1 others.1, others.2)

end

section Marks

/-- A walk after which every occurrence still shows what was there. -/
structure Scoping.Marks (walk : Scoping ι κ δ σ) (see : κ → μ) (mark : ι → μ) : Prop where
  bound : ∀ name state, see (walk.bind name state).1 = mark name
  used : ∀ name state, see (walk.use name state) = mark name

variable {walk : Scoping ι κ δ σ} {see : κ → μ} {mark : ι → μ} (detail : Detail)

theorem Scoping.Marks.map_bindAll (marks : walk.Marks see mark) (names : List ι) (state : σ) :
    (walk.bindAll names state).1.map see = names.map mark := by
  induction names generalizing state with
  | nil => rfl
  | cons name rest ih => simp [bindAll, marks.bound, ih]

theorem Scoping.Marks.view_function (marks : walk.Marks see mark) (method : Bool) (parameters : Parameters ι) {body : Block ι}
    (inner : ∀ state, (body.walk walk state).1.view detail see = body.view detail mark) (state : σ) :
    (walk.function method parameters (body.walk walk) state).1.1.view see = parameters.view mark ∧
      (walk.function method parameters (body.walk walk) state).1.2.view detail see = body.view detail mark := by
  simp [function, inScope, Parameters.view, marks.map_bindAll, inner]

mutual

/-- A walk changes nothing but the occurrences: where each shows what was there, so does the whole tree. -/
theorem Expr.view_walk (marks : walk.Marks see mark) : ∀ (expression : Expr ι) (state : σ) (asBase : Bool),
    (expression.walk walk state).1.view detail see asBase = expression.view detail mark asBase
  | .identifier .., _, _ => by simp [Expr.walk, Expr.view, marks.used]
  | .literal .., _, _ => rfl
  | .binary _ _ left right, _, _ => by simp [Expr.walk, Expr.view, Expr.view_walk marks left, Expr.view_walk marks right]
  | .unary _ _ operand, _, _ => by simp [Expr.walk, Expr.view, Expr.view_walk marks operand]
  | .call _ callee arguments, _, _ => by
    simp [Expr.walk, Expr.view, Expr.view_walk marks callee, Expr.viewAll_walk marks arguments]
  | .callTable _ callee _ fields, _, _ => by
    simp [Expr.walk, Expr.view, Expr.view_walk marks callee, Field.viewAll_walk marks fields]
  | .callString _ callee _ _, _, _ => by simp [Expr.walk, Expr.view, Expr.view_walk marks callee]
  | .index _ base key, _, _ => by simp [Expr.walk, Expr.view, Expr.view_walk marks base, Expr.view_walk marks key]
  | .member _ base _ _, _, _ => by simp [Expr.walk, Expr.view, Expr.view_walk marks base]
  | .function _ parameters body, state, _ => by
    have inner := marks.view_function detail false parameters (Block.view_walk marks body) state
    simp [Expr.walk, Expr.view, inner.1, inner.2]
  | .table _ fields, _, _ => by simp [Expr.walk, Expr.view, Field.viewAll_walk marks fields]

theorem Expr.viewAll_walk (marks : walk.Marks see mark) : ∀ (expressions : List (Expr ι)) (state : σ),
    Expr.viewAll detail see (Expr.walkAll walk expressions state).1 = Expr.viewAll detail mark expressions
  | [], _ => rfl
  | expression :: rest, _ => by
    simp [Expr.walkAll, Expr.viewAll, Expr.view_walk marks expression, Expr.viewAll_walk marks rest]

theorem Field.view_walk (marks : walk.Marks see mark) : ∀ (field : Field ι) (state : σ),
    (field.walk walk state).1.view detail see = field.view detail mark
  | .keyed key value, _ => by simp [Field.walk, Field.view, Expr.view_walk marks key, Expr.view_walk marks value]
  | .named _ value, _ => by simp [Field.walk, Field.view, Expr.view_walk marks value]
  | .item value, _ => by simp [Field.walk, Field.view, Expr.view_walk marks value]

theorem Field.viewAll_walk (marks : walk.Marks see mark) : ∀ (fields : List (Field ι)) (state : σ),
    Field.viewAll detail see (Field.walkAll walk fields state).1 = Field.viewAll detail mark fields
  | [], _ => rfl
  | field :: rest, _ => by simp [Field.walkAll, Field.viewAll, Field.view_walk marks field, Field.viewAll_walk marks rest]

theorem Stat.view_walk (marks : walk.Marks see mark) : ∀ (statement : Stat ι) (state : σ),
    (statement.walk walk state).1.view detail see = statement.view detail mark
  | .assign _ targets values, _ => by
    simp [Stat.walk, Stat.view, Expr.viewAll_walk marks targets, Expr.viewAll_walk marks values]
  | .localVars _ _ values, _ => by simp [Stat.walk, Stat.view, marks.map_bindAll, Expr.viewAll_walk marks values]
  | .call _ call, _ => by simp [Stat.walk, Stat.view, Expr.view_walk marks call]
  | .cond _ condition body rest, _ => by
    simp [Stat.walk, Stat.view, Scoping.inScope, Expr.view_walk marks condition, Block.view_walk marks body,
      Else.view_walk marks rest]
  | .whileLoop _ condition body, _ => by
    simp [Stat.walk, Stat.view, Scoping.inScope, Expr.view_walk marks condition, Block.view_walk marks body]
  | .doBlock _ body, _ => by simp [Stat.walk, Stat.view, Scoping.inScope, Block.view_walk marks body]
  | .breakLoop _, _ => rfl
  | .repeatLoop _ body condition, _ => by
    simp [Stat.walk, Stat.view, Scoping.inScope, Expr.view_walk marks condition, Block.view_walk marks body]
  | .function _ name parameters body, state => by
    have inner := marks.view_function detail name.method.isSome parameters (Block.view_walk marks body) state
    simp [Stat.walk, Stat.view, FunctionName.view, marks.used, inner.1, inner.2]
  | .localFunction _ name parameters body, state => by
    have inner := marks.view_function detail false parameters (Block.view_walk marks body)
      (walk.declare (walk.bind name state).2.1 (walk.bind name state).2.2)
    simp [Stat.walk, Stat.view, marks.bound, inner.1, inner.2]
  | .numericFor _ _ first limit none body, _ => by
    simp [Stat.walk, Stat.view, Scoping.inScope, marks.bound, Expr.view_walk marks first, Expr.view_walk marks limit,
      Block.view_walk marks body]
  | .numericFor _ _ first limit (some step) body, _ => by
    simp [Stat.walk, Stat.view, Scoping.inScope, marks.bound, Expr.view_walk marks first, Expr.view_walk marks limit,
      Expr.view_walk marks step, Block.view_walk marks body]
  | .genericFor _ _ iterators body, _ => by
    simp [Stat.walk, Stat.view, Scoping.inScope, marks.map_bindAll, Expr.viewAll_walk marks iterators,
      Block.view_walk marks body]
  | .label .., _ => rfl
  | .goto .., _ => rfl

theorem Else.view_walk (marks : walk.Marks see mark) : ∀ (rest : Else ι) (state : σ),
    (rest.walk walk state).1.view detail see = rest.view detail mark
  | .none, _ => rfl
  | .otherwise _ body, _ => by simp [Else.walk, Else.view, Scoping.inScope, Block.view_walk marks body]
  | .elseif _ condition body rest, _ => by
    simp [Else.walk, Else.view, Scoping.inScope, Expr.view_walk marks condition, Block.view_walk marks body,
      Else.view_walk marks rest]

theorem Block.view_walk (marks : walk.Marks see mark) : ∀ (body : Block ι) (state : σ),
    (body.walk walk state).1.view detail see = body.view detail mark
  | .nil, _ => rfl
  | .ret _ values, _ => by simp [Block.walk, Block.view, Expr.viewAll_walk marks values]
  | .cons head tail, _ => by simp [Block.walk, Block.view, Stat.view_walk marks head, Block.view_walk marks tail]

end
end Marks

section Simulation

/-- A second walk follows a first one over its result: read as inputs, the occurrences that the first walk left show
the same after the second, as long as the states belong together. -/
structure Scoping.Follows (first : Scoping ι κ δ σ) (second : Scoping ι' κ' δ' σ') (input : κ → ι') (see : κ → μ)
    (seeAgain : κ' → μ) (states : σ → σ' → Prop) (declared : δ → δ' → Prop) : Prop where
  bind : ∀ name {state state'}, states state state' →
    seeAgain (second.bind (input (first.bind name state).1) state').1 = see (first.bind name state).1 ∧
      declared (first.bind name state).2.1 (second.bind (input (first.bind name state).1) state').2.1 ∧
        states (first.bind name state).2.2 (second.bind (input (first.bind name state).1) state').2.2
  use : ∀ name {state state'}, states state state' →
    seeAgain (second.use (input (first.use name state)) state') = see (first.use name state)
  declare : ∀ {each each' state state'}, declared each each' → states state state' →
    states (first.declare each state) (second.declare each' state')
  declareSelf : ∀ {state state'}, states state state' → states (first.declareSelf state) (second.declareSelf state')
  enter : ∀ {state state'}, states state state' → states (first.enter state) (second.enter state')
  leave : ∀ {state state' inner inner'}, states state state' → states inner inner' →
    states (first.leave state inner) (second.leave state' inner')

@[simp] theorem Site.view_view (detail : Detail) (multiValue asBase : Bool) (site : Site) :
    (site.view detail multiValue asBase).view detail multiValue asBase = site.view detail multiValue asBase := by
  cases detail with
  | exact => rfl
  | essential => cases multiValue <;> cases asBase <;> simp [Site.view, Detail.keeps]

variable {first : Scoping ι κ δ σ} {second : Scoping ι' κ' δ' σ'} {input : κ → ι'} {see : κ → μ} {seeAgain : κ' → μ}
  {states : σ → σ' → Prop} {declared : δ → δ' → Prop}

namespace Scoping.Follows

theorem bindAll (follows : Follows first second input see seeAgain states declared) (names : List ι) {state : σ}
    {state' : σ'} (same : states state state') :
    (second.bindAll ((first.bindAll names state).1.map input) state').1.map seeAgain =
        (first.bindAll names state).1.map see ∧
      (∀ {inner inner'}, states inner inner' →
        states (first.declareAll (first.bindAll names state).2.1 inner)
          (second.declareAll (second.bindAll ((first.bindAll names state).1.map input) state').2.1 inner')) ∧
        states (first.bindAll names state).2.2
          (second.bindAll ((first.bindAll names state).1.map input) state').2.2 := by
  induction names generalizing state state' with
  | nil => exact ⟨rfl, id, same⟩
  | cons name rest ih =>
      obtain ⟨seen, declares, behind⟩ := follows.bind name same
      obtain ⟨others, declareOthers, last⟩ := ih behind
      refine ⟨?_, fun inner => ?_, last⟩
      · simp [Scoping.bindAll, seen, others]
      · exact declareOthers (follows.declare declares inner)

theorem function (follows : Follows first second input see seeAgain states declared) (method : Bool)
    (parameters : Parameters ι) {body : Block ι} {detail : Detail}
    (inner : ∀ {state state'}, states state state' →
      (((body.walk first state).1.view detail input).walk second state').1.view detail seeAgain =
          (body.walk first state).1.view detail see ∧
        states (body.walk first state).2 (((body.walk first state).1.view detail input).walk second state').2)
    {state : σ} {state' : σ'} (same : states state state') :
    let out := first.function method parameters (body.walk first) state
    let again := second.function method (out.1.1.view input) ((out.1.2.view detail input).walk second) state'
    again.1.1.view seeAgain = out.1.1.view see ∧ again.1.2.view detail seeAgain = out.1.2.view detail see ∧
      states out.2 again.2 := by
  have opened : states (if method then first.declareSelf (first.enter state) else first.enter state)
      (if method then second.declareSelf (second.enter state') else second.enter state') := by
    cases method with
    | true => exact follows.declareSelf (follows.enter same)
    | false => exact follows.enter same
  obtain ⟨names, declares, behind⟩ := follows.bindAll parameters.names opened
  obtain ⟨seen, last⟩ := inner (declares behind)
  refine ⟨?_, seen, follows.leave same last⟩
  simp [Scoping.function, Scoping.inScope, Parameters.view, names, Function.comp_def]

end Scoping.Follows

mutual

/-- A walk that follows another at every place does so on a whole tree. -/
theorem Expr.follow (follows : first.Follows second input see seeAgain states declared) (detail : Detail) :
    ∀ (expression : Expr ι) (asBase : Bool) {state : σ} {state' : σ'}, states state state' →
      (((expression.walk first state).1.view detail input asBase).walk second state').1.view detail seeAgain asBase =
          (expression.walk first state).1.view detail see asBase ∧
        states (expression.walk first state).2
          (((expression.walk first state).1.view detail input asBase).walk second state').2
  | .identifier _ name, _, _, _, same => ⟨by simp [Expr.walk, Expr.view, follows.use name same], same⟩
  | .literal .., _, _, _, same => ⟨by simp [Expr.walk, Expr.view], same⟩
  | .binary _ _ left right, _, _, _, same => by
    obtain ⟨seenLeft, middle⟩ := Expr.follow follows detail left false same
    obtain ⟨seenRight, behind⟩ := Expr.follow follows detail right false middle
    exact ⟨by simp [Expr.walk, Expr.view, seenLeft, seenRight], behind⟩
  | .unary _ _ operand, _, _, _, same => by
    obtain ⟨seen, behind⟩ := Expr.follow follows detail operand false same
    exact ⟨by simp [Expr.walk, Expr.view, seen], behind⟩
  | .call _ callee arguments, _, _, _, same => by
    obtain ⟨seen, middle⟩ := Expr.follow follows detail callee true same
    obtain ⟨given, behind⟩ := Expr.followAll follows detail arguments middle
    exact ⟨by simp [Expr.walk, Expr.view, seen, given], behind⟩
  | .callTable _ callee _ fields, _, _, _, same => by
    obtain ⟨seen, middle⟩ := Expr.follow follows detail callee true same
    obtain ⟨given, behind⟩ := Field.followAll follows detail fields middle
    exact ⟨by simp [Expr.walk, Expr.view, seen, given], behind⟩
  | .callString _ callee _ _, _, _, _, same => by
    obtain ⟨seen, behind⟩ := Expr.follow follows detail callee true same
    exact ⟨by simp [Expr.walk, Expr.view, seen], behind⟩
  | .index _ base key, _, _, _, same => by
    obtain ⟨seen, middle⟩ := Expr.follow follows detail base true same
    obtain ⟨given, behind⟩ := Expr.follow follows detail key false middle
    exact ⟨by simp [Expr.walk, Expr.view, seen, given], behind⟩
  | .member _ base _ _, _, _, _, same => by
    obtain ⟨seen, behind⟩ := Expr.follow follows detail base true same
    exact ⟨by simp [Expr.walk, Expr.view, seen], behind⟩
  | .function _ parameters body, _, _, _, same => by
    obtain ⟨names, seen, behind⟩ := follows.function false parameters (Block.follow follows detail body) same
    exact ⟨by simp [Expr.walk, Expr.view, names, seen], behind⟩
  | .table _ fields, _, _, _, same => by
    obtain ⟨seen, behind⟩ := Field.followAll follows detail fields same
    exact ⟨by simp [Expr.walk, Expr.view, seen], behind⟩

theorem Expr.followAll (follows : first.Follows second input see seeAgain states declared) (detail : Detail) :
    ∀ (expressions : List (Expr ι)) {state : σ} {state' : σ'}, states state state' →
      Expr.viewAll detail seeAgain
          (Expr.walkAll second (Expr.viewAll detail input (Expr.walkAll first expressions state).1) state').1 =
          Expr.viewAll detail see (Expr.walkAll first expressions state).1 ∧
        states (Expr.walkAll first expressions state).2
          (Expr.walkAll second (Expr.viewAll detail input (Expr.walkAll first expressions state).1) state').2
  | [], _, _, same => ⟨rfl, same⟩
  | expression :: rest, _, _, same => by
    obtain ⟨seen, middle⟩ := Expr.follow follows detail expression false same
    obtain ⟨others, behind⟩ := Expr.followAll follows detail rest middle
    exact ⟨by simp [Expr.walkAll, Expr.viewAll, seen, others], behind⟩

theorem Field.follow (follows : first.Follows second input see seeAgain states declared) (detail : Detail) :
    ∀ (field : Field ι) {state : σ} {state' : σ'}, states state state' →
      (((field.walk first state).1.view detail input).walk second state').1.view detail seeAgain =
          (field.walk first state).1.view detail see ∧
        states (field.walk first state).2 (((field.walk first state).1.view detail input).walk second state').2
  | .keyed key value, _, _, same => by
    obtain ⟨seen, middle⟩ := Expr.follow follows detail key false same
    obtain ⟨given, behind⟩ := Expr.follow follows detail value false middle
    exact ⟨by simp [Field.walk, Field.view, seen, given], behind⟩
  | .named _ value, _, _, same => by
    obtain ⟨seen, behind⟩ := Expr.follow follows detail value false same
    exact ⟨by simp [Field.walk, Field.view, seen], behind⟩
  | .item value, _, _, same => by
    obtain ⟨seen, behind⟩ := Expr.follow follows detail value false same
    exact ⟨by simp [Field.walk, Field.view, seen], behind⟩

theorem Field.followAll (follows : first.Follows second input see seeAgain states declared) (detail : Detail) :
    ∀ (fields : List (Field ι)) {state : σ} {state' : σ'}, states state state' →
      Field.viewAll detail seeAgain
          (Field.walkAll second (Field.viewAll detail input (Field.walkAll first fields state).1) state').1 =
          Field.viewAll detail see (Field.walkAll first fields state).1 ∧
        states (Field.walkAll first fields state).2
          (Field.walkAll second (Field.viewAll detail input (Field.walkAll first fields state).1) state').2
  | [], _, _, same => ⟨rfl, same⟩
  | field :: rest, _, _, same => by
    obtain ⟨seen, middle⟩ := Field.follow follows detail field same
    obtain ⟨others, behind⟩ := Field.followAll follows detail rest middle
    exact ⟨by simp [Field.walkAll, Field.viewAll, seen, others], behind⟩

theorem Stat.follow (follows : first.Follows second input see seeAgain states declared) (detail : Detail) :
    ∀ (statement : Stat ι) {state : σ} {state' : σ'}, states state state' →
      (((statement.walk first state).1.view detail input).walk second state').1.view detail seeAgain =
          (statement.walk first state).1.view detail see ∧
        states (statement.walk first state).2
          (((statement.walk first state).1.view detail input).walk second state').2
  | .assign _ targets values, _, _, same => by
    obtain ⟨seen, middle⟩ := Expr.followAll follows detail targets same
    obtain ⟨given, behind⟩ := Expr.followAll follows detail values middle
    exact ⟨by simp [Stat.walk, Stat.view, seen, given], behind⟩
  | .localVars _ names values, _, _, same => by
    obtain ⟨seen, declares, middle⟩ := follows.bindAll names same
    obtain ⟨given, behind⟩ := Expr.followAll follows detail values middle
    exact ⟨by simp [Stat.walk, Stat.view, seen, given], declares behind⟩
  | .call _ call, _, _, same => by
    obtain ⟨seen, behind⟩ := Expr.follow follows detail call false same
    exact ⟨by simp [Stat.walk, Stat.view, seen], behind⟩
  | .cond _ condition body rest, _, _, same => by
    obtain ⟨tested, opened⟩ := Expr.follow follows detail condition false same
    obtain ⟨seen, inner⟩ := Block.follow follows detail body (follows.enter opened)
    obtain ⟨others, behind⟩ := Else.follow follows detail rest (follows.leave opened inner)
    exact ⟨by simp [Stat.walk, Stat.view, Scoping.inScope, tested, seen, others], behind⟩
  | .whileLoop _ condition body, _, _, same => by
    obtain ⟨tested, opened⟩ := Expr.follow follows detail condition false same
    obtain ⟨seen, inner⟩ := Block.follow follows detail body (follows.enter opened)
    exact ⟨by simp [Stat.walk, Stat.view, Scoping.inScope, tested, seen], follows.leave opened inner⟩
  | .doBlock _ body, _, _, same => by
    obtain ⟨seen, inner⟩ := Block.follow follows detail body (follows.enter same)
    exact ⟨by simp [Stat.walk, Stat.view, Scoping.inScope, seen], follows.leave same inner⟩
  | .breakLoop _, _, _, same => ⟨rfl, same⟩
  | .repeatLoop _ body condition, _, _, same => by
    obtain ⟨seen, inner⟩ := Block.follow follows detail body (follows.enter same)
    obtain ⟨tested, behind⟩ := Expr.follow follows detail condition false inner
    exact ⟨by simp [Stat.walk, Stat.view, Scoping.inScope, seen, tested], follows.leave same behind⟩
  | .function _ name parameters body, _, _, same => by
    obtain ⟨names, seen, behind⟩ :=
      follows.function name.method.isSome parameters (Block.follow follows detail body) same
    have root := follows.use name.root same
    refine ⟨?_, ?_⟩
    · simp [Stat.walk, Stat.view, FunctionName.view, root, names, seen, Function.comp_def]
    · simpa [Stat.walk, Stat.view, FunctionName.view] using behind
  | .localFunction _ name parameters body, _, _, same => by
    obtain ⟨called, declares, middle⟩ := follows.bind name same
    obtain ⟨names, seen, behind⟩ :=
      follows.function false parameters (Block.follow follows detail body) (follows.declare declares middle)
    exact ⟨by simp [Stat.walk, Stat.view, called, names, seen], behind⟩
  | .numericFor _ counter start limit none body, _, _, same => by
    obtain ⟨counted, declares, bound⟩ := follows.bind counter same
    obtain ⟨seenStart, started⟩ := Expr.follow follows detail start false bound
    obtain ⟨seenLimit, opened⟩ := Expr.follow follows detail limit false started
    obtain ⟨seen, inner⟩ := Block.follow follows detail body (follows.declare declares (follows.enter opened))
    exact ⟨by simp [Stat.walk, Stat.view, Scoping.inScope, counted, seenStart, seenLimit, seen],
      follows.leave opened inner⟩
  | .numericFor _ counter start limit (some step) body, _, _, same => by
    obtain ⟨counted, declares, bound⟩ := follows.bind counter same
    obtain ⟨seenStart, started⟩ := Expr.follow follows detail start false bound
    obtain ⟨seenLimit, limited⟩ := Expr.follow follows detail limit false started
    obtain ⟨seenStep, opened⟩ := Expr.follow follows detail step false limited
    obtain ⟨seen, inner⟩ := Block.follow follows detail body (follows.declare declares (follows.enter opened))
    exact ⟨by simp [Stat.walk, Stat.view, Scoping.inScope, counted, seenStart, seenLimit, seenStep, seen],
      follows.leave opened inner⟩
  | .genericFor _ names iterators body, _, _, same => by
    obtain ⟨called, declares, bound⟩ := follows.bindAll names same
    obtain ⟨given, opened⟩ := Expr.followAll follows detail iterators bound
    obtain ⟨seen, inner⟩ := Block.follow follows detail body (declares (follows.enter opened))
    exact ⟨by simp [Stat.walk, Stat.view, Scoping.inScope, called, given, seen], follows.leave opened inner⟩
  | .label .., _, _, same => ⟨rfl, same⟩
  | .goto .., _, _, same => ⟨rfl, same⟩

theorem Else.follow (follows : first.Follows second input see seeAgain states declared) (detail : Detail) :
    ∀ (rest : Else ι) {state : σ} {state' : σ'}, states state state' →
      (((rest.walk first state).1.view detail input).walk second state').1.view detail seeAgain =
          (rest.walk first state).1.view detail see ∧
        states (rest.walk first state).2 (((rest.walk first state).1.view detail input).walk second state').2
  | .none, _, _, same => ⟨rfl, same⟩
  | .otherwise _ body, _, _, same => by
    obtain ⟨seen, inner⟩ := Block.follow follows detail body (follows.enter same)
    exact ⟨by simp [Else.walk, Else.view, Scoping.inScope, seen], follows.leave same inner⟩
  | .elseif _ condition body rest, _, _, same => by
    obtain ⟨tested, opened⟩ := Expr.follow follows detail condition false same
    obtain ⟨seen, inner⟩ := Block.follow follows detail body (follows.enter opened)
    obtain ⟨others, behind⟩ := Else.follow follows detail rest (follows.leave opened inner)
    exact ⟨by simp [Else.walk, Else.view, Scoping.inScope, tested, seen, others], behind⟩

theorem Block.follow (follows : first.Follows second input see seeAgain states declared) (detail : Detail) :
    ∀ (body : Block ι) {state : σ} {state' : σ'}, states state state' →
      (((body.walk first state).1.view detail input).walk second state').1.view detail seeAgain =
          (body.walk first state).1.view detail see ∧
        states (body.walk first state).2 (((body.walk first state).1.view detail input).walk second state').2
  | .nil, _, _, same => ⟨rfl, same⟩
  | .ret _ values, _, _, same => by
    obtain ⟨seen, behind⟩ := Expr.followAll follows detail values same
    exact ⟨by simp [Block.walk, Block.view, seen], behind⟩
  | .cons head tail, _, _, same => by
    obtain ⟨seen, middle⟩ := Stat.follow follows detail head same
    obtain ⟨others, behind⟩ := Block.follow follows detail tail middle
    exact ⟨by simp [Block.walk, Block.view, seen, others], behind⟩

end
end Simulation

end LuaMinifier
