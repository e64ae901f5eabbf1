import LuaMinifier.Proofs.Leaves
import LuaMinifier.Proofs.Places
import LuaMinifier.Proofs.Respelling

/-!
Which names are local, said without a stack of scopes: every construct of the language passes on to its parts the names
that are visible in them. Main statement: the flags of the identifiers that are read from a text agree with this, and
its global names are listed in the order in which the text first uses them.
-/

namespace LuaMinifier

variable {ι : Type}

/-- Places where names are bound: they mean local variables. -/
def bindings (names : List ι) : List (ι × Bool) := names.map (·, true)

/-- The names that a statement makes visible to those behind it. -/
def Stat.declared (text : ι → String) : Stat ι → List String
  | .localVars _ names _ => names.map text
  | .localFunction _ name _ _ => [text name]
  | _ => []

/-- The names that a block has made visible at its end. -/
def Block.declared (text : ι → String) : Block ι → List String
  | .nil => []
  | .ret _ _ => []
  | .cons head tail => tail.declared text ++ head.declared text

/-- The parameter of a method that is not written. -/
def FunctionName.implicit (name : FunctionName ι) : List String := if name.method.isSome then ["self"] else []

mutual

/-- Every occurrence in an expression, with whether it means a local variable where some names are visible. -/
def Expr.locality (text : ι → String) (visible : List String) : Expr ι → List (ι × Bool)
  | .identifier _ name => [(name, decide (text name ∈ visible))]
  | .literal .. => []
  | .binary _ _ left right => left.locality text visible ++ right.locality text visible
  | .unary _ _ operand => operand.locality text visible
  | .call _ callee arguments => callee.locality text visible ++ Expr.localityAll text visible arguments
  | .callTable _ callee _ fields => callee.locality text visible ++ Field.localityAll text visible fields
  | .callString _ callee _ _ => callee.locality text visible
  | .index _ base key => base.locality text visible ++ key.locality text visible
  | .member _ base _ _ => base.locality text visible
  | .function _ parameters body =>
    bindings parameters.names ++ body.locality text (parameters.names.map text ++ visible)
  | .table _ fields => Field.localityAll text visible fields

def Expr.localityAll (text : ι → String) (visible : List String) : List (Expr ι) → List (ι × Bool)
  | [] => []
  | expression :: rest => expression.locality text visible ++ Expr.localityAll text visible rest

def Field.locality (text : ι → String) (visible : List String) : Field ι → List (ι × Bool)
  | .keyed key value => key.locality text visible ++ value.locality text visible
  | .named _ value => value.locality text visible
  | .item value => value.locality text visible

def Field.localityAll (text : ι → String) (visible : List String) : List (Field ι) → List (ι × Bool)
  | [] => []
  | field :: rest => field.locality text visible ++ Field.localityAll text visible rest

def Stat.locality (text : ι → String) (visible : List String) : Stat ι → List (ι × Bool)
  | .assign _ targets values => Expr.localityAll text visible targets ++ Expr.localityAll text visible values
  | .localVars _ names values => bindings names ++ Expr.localityAll text visible values
  | .call _ call => call.locality text visible
  | .cond _ condition body rest =>
    condition.locality text visible ++ body.locality text visible ++ rest.locality text visible
  | .whileLoop _ condition body => condition.locality text visible ++ body.locality text visible
  | .doBlock _ body => body.locality text visible
  | .breakLoop _ => []
  | .repeatLoop _ body condition =>
    body.locality text visible ++ condition.locality text (body.declared text ++ visible)
  | .function _ name parameters body =>
    (name.root, decide (text name.root ∈ visible)) :: bindings parameters.names ++
      body.locality text (parameters.names.map text ++ name.implicit ++ visible)
  | .localFunction _ name parameters body =>
    (name, true) :: bindings parameters.names ++
      body.locality text (parameters.names.map text ++ text name :: visible)
  | .numericFor _ counter first limit none body =>
    (counter, true) :: first.locality text visible ++ limit.locality text visible ++
      body.locality text (text counter :: visible)
  | .numericFor _ counter first limit (some step) body =>
    (counter, true) :: first.locality text visible ++ limit.locality text visible ++ step.locality text visible ++
      body.locality text (text counter :: visible)
  | .genericFor _ names iterators body =>
    bindings names ++ Expr.localityAll text visible iterators ++ body.locality text (names.map text ++ visible)
  | .label .. => []
  | .goto .. => []

def Else.locality (text : ι → String) (visible : List String) : Else ι → List (ι × Bool)
  | .none => []
  | .otherwise _ body => body.locality text visible
  | .elseif _ condition body rest =>
    condition.locality text visible ++ body.locality text visible ++ rest.locality text visible

/-- Every occurrence in a block, with whether it means a local variable where some names are visible: those that the
statements before it declare are visible to each statement, and none of them behind the block. -/
def Block.locality (text : ι → String) (visible : List String) : Block ι → List (ι × Bool)
  | .nil => []
  | .ret _ values => Expr.localityAll text visible values
  | .cons head tail => head.locality text visible ++ tail.locality text (head.declared text ++ visible)

end

def Identifier.marked (identifier : Identifier) : Identifier × Bool := (identifier, identifier.isLocal)

namespace Scope

/-- Open scopes declare the names that are visible. -/
def Shows (scope : Scope) (visible : List String) : Prop := ∀ name, scope.declares name = decide (name ∈ visible)

variable {scope : Scope} {visible : List String}

theorem Shows.enter (shows : scope.Shows visible) : scope.enter.Shows visible := fun name =>
  (scope.declares_enter name).trans (shows name)

theorem Shows.declare (shows : scope.Shows visible) (name : String) :
    (scope.declare name).Shows (name :: visible) := by
  intro other
  rw [declares_declare, shows other, ← Bool.decide_or]
  simp

theorem Shows.of_mem {others : List String} (shows : scope.Shows visible)
    (same : ∀ name, name ∈ others ↔ name ∈ visible) : scope.Shows others := by
  intro name
  rw [shows name, decide_eq_decide]
  exact (same name).symm

theorem Shows.declareAll (shows : scope.Shows visible) (names : List String) :
    (resolving.declareAll names scope).Shows (names ++ visible) := by
  induction names generalizing scope visible with
  | nil => exact shows
  | cons name rest ih => exact (ih (shows.declare name)).of_mem (by simp [or_left_comm])

theorem Shows.opened (shows : scope.Shows visible) (method : Bool) :
    (if method then resolving.declareSelf scope.enter else scope.enter).Shows
      ((if method then ["self"] else []) ++ visible) := by
  cases method with
  | true => exact shows.enter.declare "self"
  | false => exact shows.enter

theorem walk_inScope {α : Type} (work : Scope → α × Scope) (scope : Scope) :
    resolving.inScope work scope = ((work scope.enter).1, scope) := rfl

theorem walk_function (method : Bool) (parameters : Parameters Name) (body : Block Name) (scope : Scope) :
    resolving.function method parameters (body.walk resolving) scope =
      ((⟨parameters.names.map Resolver.binding, parameters.vararg⟩,
        (body.walk resolving (resolving.declareAll (parameters.names.map Name.text)
          (if method then resolving.declareSelf scope.enter else scope.enter))).1), scope) := by
  simp only [Scoping.function, Scoping.inScope, bindAll_resolving]
  rfl

theorem names_binding (names : List Name) :
    (names.map Resolver.binding).map Identifier.name = names.map Name.text := by
  rw [List.map_map]
  rfl

theorem marked_binding (names : List Name) :
    (names.map Resolver.binding).map Identifier.marked = bindings (names.map Resolver.binding) := by
  simp [bindings, Identifier.marked, Resolver.binding]

end Scope

section Walking

open Scope

mutual

theorem Expr.locality_walk : ∀ (expression : Expr Name) {scope : Scope} {visible : List String},
    scope.Shows visible → (expression.walk resolving scope).1.locality Identifier.name visible =
      (expression.walk resolving scope).1.occurrences.map Identifier.marked
  | .identifier _ name, scope, visible, shows => by
    simp [Expr.walk, Expr.locality, Expr.occurrences, resolving, Identifier.marked, shows name.text]
  | .literal .., _, _, _ => rfl
  | .binary _ _ left right, scope, visible, shows => by
    simp only [Expr.walk, (left.resolve_eq scope).2, Expr.locality, Expr.occurrences, List.map_append,
      left.locality_walk shows, right.locality_walk shows]
  | .unary _ _ operand, scope, visible, shows => operand.locality_walk shows
  | .call _ callee arguments, scope, visible, shows => by
    simp only [Expr.walk, (callee.resolve_eq scope).2, Expr.locality, Expr.occurrences, List.map_append,
      callee.locality_walk shows, Expr.localityAll_walk arguments shows]
  | .callTable _ callee _ fields, scope, visible, shows => by
    simp only [Expr.walk, (callee.resolve_eq scope).2, Expr.locality, Expr.occurrences, List.map_append,
      callee.locality_walk shows, Field.localityAll_walk fields shows]
  | .callString _ callee _ _, scope, visible, shows => callee.locality_walk shows
  | .index _ base key, scope, visible, shows => by
    simp only [Expr.walk, (base.resolve_eq scope).2, Expr.locality, Expr.occurrences, List.map_append,
      base.locality_walk shows, key.locality_walk shows]
  | .member _ base _ _, scope, visible, shows => base.locality_walk shows
  | .function _ parameters body, scope, visible, shows => by
    have inner := (body.locality_walk ((shows.opened false).declareAll (parameters.names.map Name.text))).1
    simp only [Expr.walk, walk_function, Expr.locality, Expr.occurrences, List.map_append, names_binding,
      marked_binding]
    exact congrArg (_ ++ ·) inner
  | .table _ fields, scope, visible, shows => Field.localityAll_walk fields shows

theorem Expr.localityAll_walk : ∀ (expressions : List (Expr Name)) {scope : Scope} {visible : List String},
    scope.Shows visible → Expr.localityAll Identifier.name visible (Expr.walkAll resolving expressions scope).1 =
      (Expr.occurrencesAll (Expr.walkAll resolving expressions scope).1).map Identifier.marked
  | [], _, _, _ => rfl
  | expression :: rest, scope, visible, shows => by
    simp only [Expr.walkAll, (expression.resolve_eq scope).2, Expr.localityAll, Expr.occurrencesAll, List.map_append,
      expression.locality_walk shows, Expr.localityAll_walk rest shows]

theorem Field.locality_walk : ∀ (field : Field Name) {scope : Scope} {visible : List String},
    scope.Shows visible → (field.walk resolving scope).1.locality Identifier.name visible =
      (field.walk resolving scope).1.occurrences.map Identifier.marked
  | .keyed key value, scope, visible, shows => by
    simp only [Field.walk, (key.resolve_eq scope).2, Field.locality, Field.occurrences, List.map_append,
      key.locality_walk shows, value.locality_walk shows]
  | .named _ value, scope, visible, shows => value.locality_walk shows
  | .item value, scope, visible, shows => value.locality_walk shows

theorem Field.localityAll_walk : ∀ (fields : List (Field Name)) {scope : Scope} {visible : List String},
    scope.Shows visible → Field.localityAll Identifier.name visible (Field.walkAll resolving fields scope).1 =
      (Field.occurrencesAll (Field.walkAll resolving fields scope).1).map Identifier.marked
  | [], _, _, _ => rfl
  | field :: rest, scope, visible, shows => by
    simp only [Field.walkAll, (field.resolve_eq scope).2, Field.localityAll, Field.occurrencesAll, List.map_append,
      field.locality_walk shows, Field.localityAll_walk rest shows]

theorem Stat.locality_walk : ∀ (statement : Stat Name) {scope : Scope} {visible : List String},
    scope.Shows visible →
      (statement.walk resolving scope).1.locality Identifier.name visible =
        (statement.walk resolving scope).1.occurrences.map Identifier.marked ∧
      (statement.walk resolving scope).2.Shows ((statement.walk resolving scope).1.declared Identifier.name ++ visible)
  | .assign _ targets values, scope, visible, shows => by
    simp only [Stat.walk, (Expr.resolveAll_eq targets scope).2, (Expr.resolveAll_eq values scope).2, Stat.locality,
      Stat.occurrences, Stat.declared, List.map_append, Expr.localityAll_walk targets shows,
      Expr.localityAll_walk values shows]
    exact ⟨trivial, shows⟩
  | .localVars _ names values, scope, visible, shows => by
    simp only [Stat.walk, bindAll_resolving, (Expr.resolveAll_eq values scope).2, Stat.locality, Stat.occurrences,
      Stat.declared, List.map_append, Expr.localityAll_walk values shows, names_binding, marked_binding]
    exact ⟨trivial, shows.declareAll _⟩
  | .call _ call, scope, visible, shows => by
    refine ⟨call.locality_walk shows, ?_⟩
    simp only [Stat.walk, (call.resolve_eq scope).2]
    exact shows
  | .cond _ condition body rest, scope, visible, shows => by
    have inner := (body.locality_walk shows.enter).1
    simp only [Stat.walk, walk_inScope, (condition.resolve_eq scope).2, (rest.resolve_eq scope).2, Stat.locality,
      Stat.occurrences, Stat.declared, List.map_append, condition.locality_walk shows, inner, rest.locality_walk shows]
    exact ⟨trivial, shows⟩
  | .whileLoop _ condition body, scope, visible, shows => by
    have inner := (body.locality_walk shows.enter).1
    simp only [Stat.walk, walk_inScope, (condition.resolve_eq scope).2, Stat.locality, Stat.occurrences, Stat.declared,
      List.map_append, condition.locality_walk shows, inner]
    exact ⟨trivial, shows⟩
  | .doBlock _ body, scope, visible, shows => ⟨(body.locality_walk shows.enter).1, shows⟩
  | .breakLoop _, _, _, shows => ⟨rfl, shows⟩
  | .repeatLoop _ body condition, scope, visible, shows => by
    obtain ⟨inner, seen⟩ := body.locality_walk shows.enter
    simp only [Stat.walk, walk_inScope, Stat.locality, Stat.occurrences, Stat.declared, List.map_append, inner,
      condition.locality_walk seen]
    exact ⟨trivial, shows⟩
  | .function _ name parameters body, scope, visible, shows => by
    have inner := (body.locality_walk ((shows.opened name.method.isSome).declareAll (parameters.names.map Name.text))).1
    have root : Identifier.marked (resolving.use name.root scope) =
        (resolving.use name.root scope, decide (name.root.text ∈ visible)) := congrArg (_, ·) (shows name.root.text)
    simp only [Stat.walk, walk_function, Stat.locality, Stat.occurrences, Stat.declared, List.map_append,
      List.map_cons, names_binding, marked_binding, FunctionName.implicit, root]
    rw [← inner, List.append_assoc]
    exact ⟨rfl, shows⟩
  | .localFunction _ name parameters body, scope, visible, shows => by
    have own := shows.declare name.text
    have inner := (body.locality_walk ((own.opened false).declareAll (parameters.names.map Name.text))).1
    have bound : resolving.bind name scope = (Resolver.binding name, name.text, scope) := rfl
    simp only [Stat.walk, walk_function, bound, Stat.locality, Stat.occurrences, Stat.declared, List.map_append,
      List.map_cons, names_binding, marked_binding]
    exact ⟨congrArg (_ ++ ·) inner, own⟩
  | .numericFor _ counter start limit none body, scope, visible, shows => by
    have inner := (body.locality_walk (shows.enter.declare counter.text)).1
    have bound : resolving.bind counter scope = (Resolver.binding counter, counter.text, scope) := rfl
    simp only [Stat.walk, walk_inScope, bound, (start.resolve_eq scope).2, (limit.resolve_eq scope).2, Stat.locality,
      Stat.occurrences, Stat.declared, List.map_append, List.map_cons, start.locality_walk shows,
      limit.locality_walk shows]
    exact ⟨congrArg (_ ++ ·) inner, shows⟩
  | .numericFor _ counter start limit (some step) body, scope, visible, shows => by
    have inner := (body.locality_walk (shows.enter.declare counter.text)).1
    have bound : resolving.bind counter scope = (Resolver.binding counter, counter.text, scope) := rfl
    simp only [Stat.walk, walk_inScope, bound, (start.resolve_eq scope).2, (limit.resolve_eq scope).2,
      (step.resolve_eq scope).2, Stat.locality, Stat.occurrences, Stat.declared, List.map_append, List.map_cons,
      start.locality_walk shows, limit.locality_walk shows, step.locality_walk shows]
    exact ⟨congrArg (_ ++ ·) inner, shows⟩
  | .genericFor _ names iterators body, scope, visible, shows => by
    have inner := (body.locality_walk (shows.enter.declareAll (names.map Name.text))).1
    simp only [Stat.walk, walk_inScope, bindAll_resolving, (Expr.resolveAll_eq iterators scope).2, Stat.locality,
      Stat.occurrences, Stat.declared, List.map_append, Expr.localityAll_walk iterators shows, names_binding,
      marked_binding, inner]
    exact ⟨trivial, shows⟩
  | .label .., _, _, shows => ⟨rfl, shows⟩
  | .goto .., _, _, shows => ⟨rfl, shows⟩

theorem Else.locality_walk : ∀ (rest : Else Name) {scope : Scope} {visible : List String},
    scope.Shows visible → (rest.walk resolving scope).1.locality Identifier.name visible =
      (rest.walk resolving scope).1.occurrences.map Identifier.marked
  | .none, _, _, _ => rfl
  | .otherwise _ body, scope, visible, shows => (body.locality_walk shows.enter).1
  | .elseif _ condition body rest, scope, visible, shows => by
    have inner := (body.locality_walk shows.enter).1
    simp only [Else.walk, walk_inScope, (condition.resolve_eq scope).2, Else.locality, Else.occurrences,
      List.map_append, condition.locality_walk shows, inner, rest.locality_walk shows]

theorem Block.locality_walk : ∀ (body : Block Name) {scope : Scope} {visible : List String},
    scope.Shows visible →
      (body.walk resolving scope).1.locality Identifier.name visible =
        (body.walk resolving scope).1.occurrences.map Identifier.marked ∧
      (body.walk resolving scope).2.Shows ((body.walk resolving scope).1.declared Identifier.name ++ visible)
  | .nil, _, _, shows => ⟨rfl, shows⟩
  | .ret _ values, scope, visible, shows => by
    refine ⟨Expr.localityAll_walk values shows, ?_⟩
    simp only [Block.walk, (Expr.resolveAll_eq values scope).2]
    exact shows
  | .cons head tail, scope, visible, shows => by
    obtain ⟨first, seen⟩ := head.locality_walk shows
    obtain ⟨second, further⟩ := tail.locality_walk seen
    simp only [Block.walk, Block.locality, Block.occurrences, Block.declared, List.map_append, first, second,
      List.append_assoc]
    exact ⟨trivial, further⟩

end
end Walking

theorem Block.locality_resolve (tree : Block Name) :
    (tree.resolve.run .empty).1.locality Identifier.name [] =
      (tree.resolve.run .empty).1.occurrences.map Identifier.marked := by
  have walked : (tree.resolve.run .empty).1 = (tree.walk Scope.resolving .empty).1 :=
    congrArg Prod.fst (tree.resolve_eq .empty).1
  have nothing : Scope.empty.Shows [] := fun _ => rfl
  rw [walked]
  exact (tree.locality_walk nothing).1

section Order

theorem Lexed.ordered_of_ofText {position : Position} {text : List Char} {lexed : Lexed}
    (read : Lexed.ofText position text = .ok lexed) :
    (lexed.tokens.Pairwise fun first second => first.position.Before second.position) ∧
      ∀ token ∈ lexed.tokens, position.AtOrBefore token.position := by
  fun_induction Lexed.ofText position text generalizing lexed with
  | case1 =>
      cases read
      simp
  | case2 => simp at read
  | case3 => simp at read
  | case4 position first rest lexeme found behind cut ih =>
      cases read
      obtain ⟨ordered, later⟩ := ih cut
      have ahead : ∀ token ∈ behind.tokens, position.Before token.position := by
        intro token member
        have inside : (position.step first).AtOrBefore (position.after (first :: rest.take lexeme.tail)) :=
          Position.AtOrBefore.after (.inl rfl) _
        exact ((position.before_step first).trans_atOrBefore inside).trans_atOrBefore (later token member)
      have reached : ∀ token ∈ behind.tokens, position.AtOrBefore token.position :=
        fun token member => .inr (ahead token member)
      obtain ⟨kind, tail⟩ := lexeme
      cases kind with
      | blank => exact ⟨ordered, reached⟩
      | comment raw value => exact ⟨ordered, reached⟩
      | token kind => exact ⟨List.pairwise_cons.mpr ⟨ahead, ordered⟩, List.forall_mem_cons.mpr ⟨.inl rfl, reached⟩⟩

theorem Reads.names_sublist {tokens : List Token} {items : List (Item Name)} (reads : Reads tokens items) :
    ((items.filterMap Item.name?).map fun name => ⟨.name name.text, name.position⟩).Sublist tokens := by
  induction reads with
  | nil => exact .slnil
  | skip _ _ ih => exact ih.cons _
  | occurrence name _ ih => exact ih.cons_cons _
  | literal kind position _ ih => exact ih.cons _
  | fixed kind position _ ih => exact ih.cons _

theorem Block.occurrences_resolve (tree : Block Name) :
    (tree.resolve.run .empty).1.occurrences.map (fun identifier => (⟨identifier.name, identifier.position⟩ : Name)) =
      tree.occurrences := by
  have walked : (tree.resolve.run .empty).1 = (tree.walk Scope.resolving .empty).1 :=
    congrArg Prod.fst (tree.resolve_eq .empty).1
  have marks : Scope.resolving.Marks (fun identifier => (⟨identifier.name, identifier.position⟩ : Name)) id :=
    ⟨fun _ _ => rfl, fun _ _ => rfl⟩
  rw [← Block.occurrences_view .exact, walked, tree.view_walk .exact marks, Block.occurrences_view, List.map_id]

theorem Block.occurrences_sublist {source : String} {lexed : Lexed} {tree : Block Name}
    (found : tokenize source = .ok lexed) (parsed : Block.ofTokens lexed = .ok tree) :
    ((tree.resolve.run .empty).1.occurrences.map fun identifier =>
      (⟨.name identifier.name, identifier.position⟩ : Token)).Sublist lexed.tokens := by
  have listed := (Block.reads_all_of_ofTokens (Lexed.ne_eof_of_ofText found) parsed).names_sublist
  rw [Block.names_items, ← Block.occurrences_resolve, List.map_map] at listed
  exact listed

theorem Block.occurrences_ordered {source : String} {lexed : Lexed} {tree : Block Name}
    (found : tokenize source = .ok lexed) (parsed : Block.ofTokens lexed = .ok tree) :
    (tree.resolve.run .empty).1.occurrences.Pairwise fun first second => first.position.Before second.position := by
  have tokens := (Lexed.ordered_of_ofText found).1.sublist (Block.occurrences_sublist found parsed)
  rw [List.pairwise_map] at tokens
  exact tokens

theorem pairwise_eraseDups {α : Type} {before : α → α → Prop} (name : α → String) {items : List α}
    (ordered : items.Pairwise before) :
    (items.map name).eraseDups.Pairwise fun first second =>
      ∃ early ∈ items, name early = first ∧ ∀ late ∈ items, name late = second → before early late := by
  induction length : items.length using Nat.strongRecOn generalizing items with
  | ind bound ih =>
      cases items with
      | nil => exact .nil
      | cons item rest =>
          obtain ⟨ahead, others⟩ := List.pairwise_cons.mp ordered
          have shorter : (rest.filter fun other => !name other == name item).length < bound :=
            length ▸ Nat.lt_succ_of_le (List.length_filter_le ..)
          have filtered : (rest.map name).filter (fun word => !word == name item) =
              (rest.filter fun other => !name other == name item).map name := by
            rw [List.filter_map]
            rfl
          have different : ∀ word ∈ ((rest.filter fun other => !name other == name item).map name).eraseDups,
              word ≠ name item := by
            intro word member
            rw [List.mem_eraseDups, ← filtered] at member
            simpa using (List.mem_filter.mp member).2
          rw [List.map_cons, List.eraseDups_cons, filtered]
          refine List.pairwise_cons.mpr ⟨fun word member => ?_, ?_⟩
          · refine ⟨item, List.mem_cons_self, rfl, fun late inside same => ?_⟩
            obtain rfl | later := List.mem_cons.mp inside
            · exact absurd same.symm (different word member)
            · exact ahead late later
          · refine (ih _ shorter (others.filter _) rfl).imp_of_mem fun {first second} _ member found => ?_
            obtain ⟨early, inside, named, earlier⟩ := found
            refine ⟨early, List.mem_cons_of_mem _ (List.mem_filter.mp inside).1, named, fun late listed same => ?_⟩
            have other : name late ≠ name item := same ▸ different second member
            obtain rfl | later := List.mem_cons.mp listed
            · exact absurd rfl other
            · exact earlier late (List.mem_filter.mpr ⟨later, by simpa using other⟩) same

end Order

/-- Every occurrence of a name in a text is marked as local exactly where a declaration of it is visible, and the global
names of the text are those of the other occurrences, each listed once, in the order in which they first stand there. -/
theorem Chunk.parse_locality {source : String} {chunk : Chunk} (read : Chunk.parse source = .ok chunk) :
    let answers := chunk.body.locality Identifier.name []
    let free := (answers.filter (!·.2)).map Prod.fst
    answers = chunk.body.occurrences.map Identifier.marked ∧
      (∀ identifier ∈ chunk.body.occurrences,
        Token.StandsIn source ⟨.name identifier.name, identifier.position⟩) ∧
      chunk.globals.Nodup ∧ (∀ name, name ∈ chunk.globals ↔ ∃ identifier ∈ free, identifier.name = name) ∧
      chunk.globals.Pairwise fun first second => ∃ early ∈ free, early.name = first ∧
        ∀ late ∈ free, late.name = second → early.position.Before late.position := by
  obtain ⟨lexed, tree, found, parsed, rfl⟩ := Chunk.parse_eq_ok.mp read
  intro answers free
  let body := (tree.resolve.run .empty).1
  have flags : answers = body.occurrences.map Identifier.marked := tree.locality_resolve
  have listed := Block.occurrences_sublist found parsed
  have unbound : free = body.occurrences.filter (!·.isLocal) := by
    simp only [free, flags, List.filter_map, List.map_map]
    exact List.map_id _
  have globals : body.globals = (free.map Identifier.name).eraseDups := by rw [unbound]; rfl
  have ordered := Block.occurrences_ordered found parsed
  have first := pairwise_eraseDups Identifier.name (unbound ▸ ordered.filter _)
  refine ⟨flags, ?_, ?_, ?_, ?_⟩
  · intro identifier member
    exact standsIn_of_tokenize found _ (listed.subset (List.mem_map_of_mem member))
  · show body.globals.Nodup
    rw [globals]
    refine first.imp ?_
    rintro one _ ⟨early, inside, named, earlier⟩ rfl
    exact (earlier early inside named).ne rfl
  · intro name
    show name ∈ body.globals ↔ _
    rw [globals, List.mem_eraseDups, List.mem_map]
  · show body.globals.Pairwise _
    rw [globals]
    exact first

/-- A value that does not see its variable, a function that sees itself, a method, a loop whose bounds do not see its
counter, a condition that sees the body of its loop, and a name behind its scope. -/
theorem Chunk.parse_locality_scopes :
    let source := "local x=x local function f(a)return f,a end function t:m(b)return self,b end " ++
      "for i=i,x do g(i)end repeat local y until y return y"
    ∃ chunk, Chunk.parse source = .ok chunk ∧
      (chunk.body.locality Identifier.name []).map (fun answer => (answer.1.name, answer.2)) =
        [("x", true), ("x", false), ("f", true), ("a", true), ("f", true), ("a", true), ("t", false), ("b", true),
          ("self", true), ("b", true), ("i", true), ("i", false), ("x", true), ("g", false), ("i", true), ("y", true),
          ("y", true), ("y", false)] ∧
      chunk.globals = ["x", "t", "i", "g", "y"] ∧ chunk.globals.Nodup := by
  intro source
  have check : (Chunk.parse source).toOption.any (fun chunk => decide (
      chunk.body.occurrences.map (fun identifier => (identifier.name, identifier.isLocal)) =
        [("x", true), ("x", false), ("f", true), ("a", true), ("f", true), ("a", true), ("t", false), ("b", true),
          ("self", true), ("b", true), ("i", true), ("i", false), ("x", true), ("g", false), ("i", true), ("y", true),
          ("y", true), ("y", false)] ∧ chunk.globals = ["x", "t", "i", "g", "y"])) = true := by
    decide +kernel
  obtain ⟨chunk, read, known⟩ := Chunk.exists_of_parse check
  obtain ⟨occurrences, globals⟩ := of_decide_eq_true known
  obtain ⟨answers, -, nodup, -⟩ := Chunk.parse_locality read
  refine ⟨chunk, read, ?_, globals, nodup⟩
  rw [answers, List.map_map]
  exact occurrences

end LuaMinifier
