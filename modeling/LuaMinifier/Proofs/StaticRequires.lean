import LuaMinifier.Proofs.Requests
import LuaMinifier.Proofs.Visibility

/-!
Which modules a text requires. A call of the global `require` with one string names a module, wherever in the text it
stands. Main statement: the requires of a text are the modules that such calls name, each listed once, in the order in
which the text first calls for them.
-/

namespace LuaMinifier

section Expressions

variable {ι : Type}

mutual

/-- All expressions in an expression, each in front of its own parts. -/
def Expr.expressions : Expr ι → List (Expr ι)
  | .identifier site occurrence => [.identifier site occurrence]
  | .literal site kind raw => [.literal site kind raw]
  | .binary site operator left right => .binary site operator left right :: (left.expressions ++ right.expressions)
  | .unary site operator operand => .unary site operator operand :: operand.expressions
  | .call site callee arguments =>
    .call site callee arguments :: (callee.expressions ++ Expr.expressionsAll arguments)
  | .callTable site callee position fields =>
    .callTable site callee position fields :: (callee.expressions ++ Field.expressionsAll fields)
  | .callString site callee position raw => .callString site callee position raw :: callee.expressions
  | .index site base key => .index site base key :: (base.expressions ++ key.expressions)
  | .member site base access name => .member site base access name :: base.expressions
  | .function site parameters body => .function site parameters body :: body.expressions
  | .table site fields => .table site fields :: Field.expressionsAll fields

def Expr.expressionsAll : List (Expr ι) → List (Expr ι)
  | [] => []
  | expression :: rest => expression.expressions ++ Expr.expressionsAll rest

def Field.expressions : Field ι → List (Expr ι)
  | .keyed key value => key.expressions ++ value.expressions
  | .named _ value => value.expressions
  | .item value => value.expressions

def Field.expressionsAll : List (Field ι) → List (Expr ι)
  | [] => []
  | field :: rest => field.expressions ++ Field.expressionsAll rest

def Stat.expressions : Stat ι → List (Expr ι)
  | .assign _ targets values => Expr.expressionsAll targets ++ Expr.expressionsAll values
  | .localVars _ _ values => Expr.expressionsAll values
  | .call _ call => call.expressions
  | .cond _ condition body rest => condition.expressions ++ body.expressions ++ rest.expressions
  | .whileLoop _ condition body => condition.expressions ++ body.expressions
  | .doBlock _ body => body.expressions
  | .breakLoop _ => []
  | .repeatLoop _ body condition => body.expressions ++ condition.expressions
  | .function _ _ _ body => body.expressions
  | .localFunction _ _ _ body => body.expressions
  | .numericFor _ _ first limit none body => first.expressions ++ limit.expressions ++ body.expressions
  | .numericFor _ _ first limit (some step) body =>
    first.expressions ++ limit.expressions ++ step.expressions ++ body.expressions
  | .genericFor _ _ iterators body => Expr.expressionsAll iterators ++ body.expressions
  | .label .. => []
  | .goto .. => []

def Else.expressions : Else ι → List (Expr ι)
  | .none => []
  | .otherwise _ body => body.expressions
  | .elseif _ condition body rest => condition.expressions ++ body.expressions ++ rest.expressions

def Block.expressions : Block ι → List (Expr ι)
  | .nil => []
  | .ret _ values => Expr.expressionsAll values
  | .cons head tail => head.expressions ++ tail.expressions

end

end Expressions

section Calls

/-- A call, with one string in parentheses or without them, of a variable `require` that is not local. The variable
stands in the text as a token of its own, and the value of the string is the module that the call names. -/
inductive Expr.Requests : Expr Identifier → Identifier → String → Prop
  | call {site place inner : Site} {token : Identifier} {raw module : String} :
      token.isLocal = false → token.name = "require" → stringValue raw = some module →
        Requests (.call site (.identifier place token) [.literal inner .string raw]) token module
  | string {site place : Site} {position : Position} {token : Identifier} {raw module : String} :
      token.isLocal = false → token.name = "require" → stringValue raw = some module →
        Requests (.callString site (.identifier place token) position raw) token module

/-- What a call names, with the token that it does it by. -/
def Expr.request? : Expr Identifier → Option (Identifier × String)
  | .call _ (.identifier place token) [.literal _ .string raw] =>
    (requiredBy (.identifier place token) raw).map (token, ·)
  | .callString _ (.identifier place token) _ raw => (requiredBy (.identifier place token) raw).map (token, ·)
  | _ => none

theorem requiredBy_identifier (place : Site) {token : Identifier} {raw module : String} :
    requiredBy (.identifier place token) raw = some module ↔
      token.isLocal = false ∧ token.name = "require" ∧ stringValue raw = some module := by
  rw [requiredBy]
  split <;> simp_all

theorem Expr.request?_eq_some {expression : Expr Identifier} {token : Identifier} {module : String} :
    expression.request? = some (token, module) ↔ expression.Requests token module := by
  constructor
  · intro found
    unfold Expr.request? at found
    split at found
    next =>
      obtain ⟨_, named, same⟩ := Option.map_eq_some_iff.mp found
      cases same
      obtain ⟨free, spelled, value⟩ := (requiredBy_identifier _).mp named
      exact .call free spelled value
    next =>
      obtain ⟨_, named, same⟩ := Option.map_eq_some_iff.mp found
      cases same
      obtain ⟨free, spelled, value⟩ := (requiredBy_identifier _).mp named
      exact .string free spelled value
    next => cases found
  · intro requests
    cases requests with
    | call free spelled value => simp [Expr.request?, (requiredBy_identifier _).mpr ⟨free, spelled, value⟩]
    | string free spelled value => simp [Expr.request?, (requiredBy_identifier _).mpr ⟨free, spelled, value⟩]

theorem Expr.requires_call_of_request? {site : Site} {callee : Expr Identifier} {arguments : List (Expr Identifier)}
    (nothing : (Expr.call site callee arguments).request? = none) :
    (Expr.call site callee arguments).requires = callee.requires ++ Expr.requiresAll arguments := by
  obtain ⟨place, raw, rfl, named⟩ | plain := Expr.requires_call site callee arguments
  · have unnamed : requiredBy callee raw = none := by
      cases callee with
      | identifier place token => simpa [Expr.request?] using nothing
      | _ => rfl
    simp [unnamed, Expr.requiresAll, Expr.requires]
  · exact plain

theorem Expr.requires_callString_of_request? {site : Site} {callee : Expr Identifier} {position : Position}
    {raw : String} (nothing : (Expr.callString site callee position raw).request? = none) :
    (Expr.callString site callee position raw).requires = callee.requires := by
  have unnamed : requiredBy callee raw = none := by
    cases callee with
    | identifier place token => simpa [Expr.request?] using nothing
    | _ => rfl
  simp [unnamed, Expr.requires]

end Calls

/-- Expressions with the modules that calls among them name, and the variables that stand in them. The tokens of the
calls are some of these variables, in the same order. -/
structure Naming (expressions : List (Expr Identifier)) (modules : List String) (occurrences : List Identifier) :
    Prop where
  modules_eq : (expressions.filterMap Expr.request?).map Prod.snd = modules
  tokens : ((expressions.filterMap Expr.request?).map Prod.fst).Sublist occurrences

namespace Naming

variable {expressions others : List (Expr Identifier)} {modules more : List String}
  {occurrences further : List Identifier}

theorem nil : Naming [] [] [] := ⟨rfl, .slnil⟩

theorem append (first : Naming expressions modules occurrences) (second : Naming others more further) :
    Naming (expressions ++ others) (modules ++ more) (occurrences ++ further) where
  modules_eq := by rw [List.filterMap_append, List.map_append, first.modules_eq, second.modules_eq]
  tokens := by
    rw [List.filterMap_append, List.map_append]
    exact first.tokens.append second.tokens

/-- Variables that are declared stand in front. -/
theorem behind (names : List Identifier) (naming : Naming expressions modules occurrences) :
    Naming expressions modules (names ++ occurrences) :=
  ⟨naming.modules_eq, naming.tokens.trans (List.sublist_append_right ..)⟩

theorem plain {expression : Expr Identifier} (nothing : expression.request? = none)
    (naming : Naming expressions modules occurrences) : Naming (expression :: expressions) modules occurrences := by
  constructor <;> rw [List.filterMap_cons_none nothing]
  · exact naming.modules_eq
  · exact naming.tokens

/-- In a call that names a module stands nothing but its token and its string. -/
theorem request {expression : Expr Identifier} {token : Identifier} {module : String}
    (found : expression.request? = some (token, module)) :
    Naming expression.expressions expression.requires expression.occurrences := by
  cases Expr.request?_eq_some.mp found with
  | call free spelled value =>
      have named := fun place => (requiredBy_identifier place).mpr ⟨free, spelled, value⟩
      constructor <;>
        simp [Expr.expressions, Expr.expressionsAll, Expr.requires, Expr.occurrences, Expr.occurrencesAll,
          Expr.request?, named]
  | string free spelled value =>
      have named := fun place => (requiredBy_identifier place).mpr ⟨free, spelled, value⟩
      constructor <;> simp [Expr.expressions, Expr.requires, Expr.occurrences, Expr.request?, named]

end Naming

mutual

theorem Expr.naming : ∀ expression : Expr Identifier,
    Naming expression.expressions expression.requires expression.occurrences
  | .identifier .. => .plain rfl (.behind [_] .nil)
  | .literal .. => .plain rfl .nil
  | .binary _ _ left right => .plain rfl (left.naming.append right.naming)
  | .unary _ _ operand => .plain rfl operand.naming
  | .call site callee arguments => by
    cases found : (Expr.call site callee arguments).request? with
    | some request => exact .request found
    | none =>
        rw [Expr.requires_call_of_request? found]
        exact .plain found (callee.naming.append (Expr.naming_all arguments))
  | .callTable _ callee _ fields => .plain rfl (callee.naming.append (Field.naming_all fields))
  | .callString site callee position raw => by
    cases found : (Expr.callString site callee position raw).request? with
    | some request => exact .request found
    | none =>
        rw [Expr.requires_callString_of_request? found]
        exact .plain found callee.naming
  | .index _ base key => .plain rfl (base.naming.append key.naming)
  | .member _ base _ _ => .plain rfl base.naming
  | .function _ parameters body => .plain rfl (.behind parameters.names body.naming)
  | .table _ fields => .plain rfl (Field.naming_all fields)

theorem Expr.naming_all : ∀ expressions : List (Expr Identifier),
    Naming (Expr.expressionsAll expressions) (Expr.requiresAll expressions) (Expr.occurrencesAll expressions)
  | [] => .nil
  | expression :: rest => expression.naming.append (Expr.naming_all rest)

theorem Field.naming : ∀ field : Field Identifier, Naming field.expressions field.requires field.occurrences
  | .keyed key value => key.naming.append value.naming
  | .named _ value => value.naming
  | .item value => value.naming

theorem Field.naming_all : ∀ fields : List (Field Identifier),
    Naming (Field.expressionsAll fields) (Field.requiresAll fields) (Field.occurrencesAll fields)
  | [] => .nil
  | field :: rest => field.naming.append (Field.naming_all rest)

theorem Stat.naming : ∀ statement : Stat Identifier,
    Naming statement.expressions statement.requires statement.occurrences
  | .assign _ targets values => (Expr.naming_all targets).append (Expr.naming_all values)
  | .localVars _ names values => .behind names (Expr.naming_all values)
  | .call _ call => call.naming
  | .cond _ condition body rest => (condition.naming.append body.naming).append rest.naming
  | .whileLoop _ condition body => condition.naming.append body.naming
  | .doBlock _ body => body.naming
  | .breakLoop _ => .nil
  | .repeatLoop _ body condition => body.naming.append condition.naming
  | .function _ name parameters body => .behind (name.root :: parameters.names) body.naming
  | .localFunction _ name parameters body => .behind (name :: parameters.names) body.naming
  | .numericFor _ counter first limit none body =>
    .behind [counter] ((first.naming.append limit.naming).append body.naming)
  | .numericFor _ counter first limit (some step) body =>
    .behind [counter] (((first.naming.append limit.naming).append step.naming).append body.naming)
  | .genericFor _ names iterators body => by
    rw [Stat.occurrences, List.append_assoc]
    exact .behind names ((Expr.naming_all iterators).append body.naming)
  | .label .. => .nil
  | .goto .. => .nil

theorem Else.naming : ∀ rest : Else Identifier, Naming rest.expressions rest.requires rest.occurrences
  | .none => .nil
  | .otherwise _ body => body.naming
  | .elseif _ condition body rest => (condition.naming.append body.naming).append rest.naming

theorem Block.naming : ∀ body : Block Identifier, Naming body.expressions body.requires body.occurrences
  | .nil => .nil
  | .ret _ values => Expr.naming_all values
  | .cons head tail => head.naming.append tail.naming

end

/-- A text requires the modules that its calls of the global `require` name by a string, wherever in the text they
stand: each module is listed once, in the order of the first of these tokens for each. -/
theorem Chunk.parse_requires {source : String} {chunk : Chunk} (read : Chunk.parse source = .ok chunk) :
    let calls := chunk.body.expressions
    chunk.requires.Nodup ∧
      (∀ module, module ∈ chunk.requires ↔ ∃ call ∈ calls, ∃ token, call.Requests token module) ∧
      (∀ call ∈ calls, ∀ token module, call.Requests token module →
        Token.StandsIn source ⟨.name "require", token.position⟩) ∧
      chunk.requires.Pairwise fun first second => ∃ call ∈ calls, ∃ token, call.Requests token first ∧
        ∀ other ∈ calls, ∀ later, other.Requests later second → token.position.Before later.position := by
  obtain ⟨lexed, tree, found, parsed, rfl⟩ := Chunk.parse_eq_ok.mp read
  intro calls
  let body := (tree.resolve.run .empty).1
  let requests := calls.filterMap Expr.request?
  obtain ⟨modules, tokens⟩ : Naming calls body.requires body.occurrences := body.naming
  have mem_requests : ∀ token module, (token, module) ∈ requests ↔ ∃ call ∈ calls, call.Requests token module := by
    intro token module
    simp only [requests, List.mem_filterMap, Expr.request?_eq_some]
  have ordered : requests.Pairwise fun first second => first.1.position.Before second.1.position := by
    have sorted := (Block.occurrences_ordered found parsed).sublist tokens
    rw [List.pairwise_map] at sorted
    exact sorted
  have listed : body.requires.eraseDups = (requests.map Prod.snd).eraseDups := congrArg _ modules.symm
  have first := pairwise_eraseDups Prod.snd ordered
  rw [← listed] at first
  refine ⟨?_, ?_, ?_, ?_⟩
  · refine first.imp ?_
    rintro one _ ⟨early, inside, named, earlier⟩ rfl
    exact (earlier early inside named).ne rfl
  · intro module
    show module ∈ body.requires.eraseDups ↔ _
    rw [listed, List.mem_eraseDups, List.mem_map]
    constructor
    · rintro ⟨⟨token, _⟩, inside, rfl⟩
      obtain ⟨call, member, requests⟩ := (mem_requests _ _).mp inside
      exact ⟨call, member, token, requests⟩
    · rintro ⟨call, member, token, requests⟩
      exact ⟨(token, module), (mem_requests _ _).mpr ⟨call, member, requests⟩, rfl⟩
  · intro call member token module requested
    have inside : token ∈ body.occurrences :=
      tokens.subset (List.mem_map_of_mem ((mem_requests _ _).mpr ⟨call, member, requested⟩))
    have spelled : token.name = "require" := by cases requested <;> assumption
    rw [← spelled]
    exact standsIn_of_tokenize found _
      ((Block.occurrences_sublist found parsed).subset (List.mem_map_of_mem inside))
  · refine first.imp ?_
    rintro one two ⟨⟨token, _⟩, inside, rfl, earlier⟩
    obtain ⟨call, member, requested⟩ := (mem_requests _ _).mp inside
    refine ⟨call, member, token, requested, fun other among later names => ?_⟩
    exact earlier (later, two) ((mem_requests _ _).mpr ⟨other, among, names⟩) rfl

/-- Calls in a key of a table, in a function that is an argument, and among other arguments; one of a local variable,
one with two strings, and one for a module that was named before. -/
theorem Chunk.parse_requires_nested :
    let source := "local t=\x7b[require'b']=f(function()return require('a')end)\x7d" ++
      "do local require=g;require'c'end x(require[[d]],require'b',require('e','f'))"
    ∃ chunk, Chunk.parse source = .ok chunk ∧ chunk.requires = ["b", "a", "d"] ∧ chunk.requires.Nodup ∧
      ∃ call ∈ chunk.body.expressions, ∃ token, call.Requests token "a" ∧
        ∀ other ∈ chunk.body.expressions, ∀ later, other.Requests later "d" →
          token.position.Before later.position := by
  intro source
  have check : (Chunk.parse source).toOption.any (fun chunk => chunk.requires = ["b", "a", "d"]) = true := by
    decide +kernel
  obtain ⟨chunk, read, known⟩ := Chunk.exists_of_parse check
  have listed := of_decide_eq_true known
  obtain ⟨nodup, -, -, ordered⟩ := Chunk.parse_requires read
  rw [listed] at ordered
  obtain ⟨-, further⟩ := List.pairwise_cons.mp ordered
  exact ⟨chunk, read, listed, nodup, (List.pairwise_cons.mp further).1 "d" List.mem_cons_self⟩

end LuaMinifier
