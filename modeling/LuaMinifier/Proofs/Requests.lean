import LuaMinifier.Bundle.Library
import LuaMinifier.Proofs.ReadItems
import LuaMinifier.Proofs.Respelling
import LuaMinifier.Require

/-!
How many modules a text can require. Each call that names a module holds a string of its own, so a text names no more
modules than it has tokens, and a library of finitely many texts no more than these have bytes.
-/

namespace LuaMinifier

section Calls

theorem length_requiredBy_le (callee : Expr Identifier) (raw : String) : (requiredBy callee raw).toList.length ≤ 1 := by
  cases requiredBy callee raw <;> simp

theorem Expr.requires_call (site : Site) (callee : Expr Identifier) (arguments : List (Expr Identifier)) :
    (∃ place raw, arguments = [.literal place .string raw] ∧
        (Expr.call site callee arguments).requires = (requiredBy callee raw).toList ++ callee.requires) ∨
      (Expr.call site callee arguments).requires = callee.requires ++ Expr.requiresAll arguments := by
  rw [Expr.requires.eq_def]
  split <;> rename_i same <;> cases same
  · exact .inl ⟨_, _, rfl, rfl⟩
  · exact .inr rfl

attribute [local simp] Expr.requires Expr.requiresAll Field.requires Field.requiresAll Stat.requires Else.requires
  Block.requires Expr.items Expr.itemsAll Field.items Field.itemsAll Stat.items Else.items Block.items braced

mutual

theorem Expr.length_requires_le : ∀ expression : Expr Identifier, expression.requires.length ≤ expression.items.length
  | .identifier .. => by simp
  | .literal .. => by simp
  | .binary _ _ left right => by
    have first := left.length_requires_le
    have second := right.length_requires_le
    simp
    omega
  | .unary _ _ operand => by
    have inner := operand.length_requires_le
    simp
    omega
  | .call site callee arguments => by
    have first := callee.length_requires_le
    have others := Expr.length_requiresAll_le arguments
    obtain ⟨place, raw, rfl, named⟩ | plain := Expr.requires_call site callee arguments
    · have one := length_requiredBy_le callee raw
      simp only [named, Expr.items, Expr.itemsAll, List.length_append, List.length_singleton, List.length_nil]
      omega
    · simp only [plain, Expr.items, List.length_append]
      omega
  | .callTable _ callee _ fields => by
    have first := callee.length_requires_le
    have others := Field.length_requiresAll_le fields
    simp
    omega
  | .callString _ callee _ raw => by
    have first := callee.length_requires_le
    have one := length_requiredBy_le callee raw
    simp only [Expr.requires, Expr.items, List.length_append, List.length_singleton]
    omega
  | .index _ base key => by
    have first := base.length_requires_le
    have second := key.length_requires_le
    simp
    omega
  | .member _ base _ _ => by
    have first := base.length_requires_le
    simp
    omega
  | .function _ _ body => by
    have inner := body.length_requires_le
    simp
    omega
  | .table _ fields => by
    have inner := Field.length_requiresAll_le fields
    simp
    omega

theorem Expr.length_requiresAll_le : ∀ expressions : List (Expr Identifier),
    (Expr.requiresAll expressions).length ≤ (Expr.itemsAll expressions).length
  | [] => Nat.le_refl 0
  | expression :: rest => by
    have first := expression.length_requires_le
    have others := Expr.length_requiresAll_le rest
    simp
    omega

theorem Field.length_requires_le : ∀ field : Field Identifier, field.requires.length ≤ field.items.length
  | .keyed key value => by
    have first := key.length_requires_le
    have second := value.length_requires_le
    simp
    omega
  | .named _ value => by
    have inner := value.length_requires_le
    simp
    omega
  | .item value => value.length_requires_le

theorem Field.length_requiresAll_le : ∀ fields : List (Field Identifier),
    (Field.requiresAll fields).length ≤ (Field.itemsAll fields).length
  | [] => Nat.le_refl 0
  | field :: rest => by
    have first := field.length_requires_le
    have others := Field.length_requiresAll_le rest
    simp
    omega

theorem Stat.length_requires_le : ∀ statement : Stat Identifier, statement.requires.length ≤ statement.items.length
  | .assign _ targets values => by
    have first := Expr.length_requiresAll_le targets
    have second := Expr.length_requiresAll_le values
    simp
    omega
  | .localVars _ names [] => by simp
  | .localVars _ names (value :: values) => by
    have first := value.length_requires_le
    have others := Expr.length_requiresAll_le values
    simp
    omega
  | .call _ call => call.length_requires_le
  | .cond _ condition body rest => by
    have test := condition.length_requires_le
    have inner := body.length_requires_le
    have others := rest.length_requires_le
    simp
    omega
  | .whileLoop _ condition body => by
    have test := condition.length_requires_le
    have inner := body.length_requires_le
    simp
    omega
  | .doBlock _ body => by
    have inner := body.length_requires_le
    simp
    omega
  | .breakLoop _ => by simp
  | .repeatLoop _ body condition => by
    have test := condition.length_requires_le
    have inner := body.length_requires_le
    simp
    omega
  | .function _ _ _ body => by
    have inner := body.length_requires_le
    simp
    omega
  | .localFunction _ _ _ body => by
    have inner := body.length_requires_le
    simp
    omega
  | .numericFor _ _ first limit none body => by
    have start := first.length_requires_le
    have stop := limit.length_requires_le
    have inner := body.length_requires_le
    simp
    omega
  | .numericFor _ _ first limit (some step) body => by
    have start := first.length_requires_le
    have stop := limit.length_requires_le
    have stride := step.length_requires_le
    have inner := body.length_requires_le
    simp
    omega
  | .genericFor _ _ iterators body => by
    have given := Expr.length_requiresAll_le iterators
    have inner := body.length_requires_le
    simp
    omega
  | .label .. => by simp
  | .goto .. => by simp

theorem Else.length_requires_le : ∀ rest : Else Identifier, rest.requires.length ≤ rest.items.length
  | .none => by simp
  | .otherwise _ body => by
    have inner := body.length_requires_le
    simp
    omega
  | .elseif _ condition body rest => by
    have test := condition.length_requires_le
    have inner := body.length_requires_le
    have others := rest.length_requires_le
    simp
    omega

theorem Block.length_requires_le : ∀ body : Block Identifier, body.requires.length ≤ body.items.length
  | .nil => Nat.le_refl 0
  | .ret _ values => by
    have given := Expr.length_requiresAll_le values
    simp
    omega
  | .cons head tail => by
    have first := head.length_requires_le
    have others := tail.length_requires_le
    simp
    omega

end
end Calls

theorem Lexed.length_tokens_cons_le (kind : Lexeme.Kind) (position : Position) (lexed : Lexed) :
    (lexed.cons kind position).tokens.length ≤ lexed.tokens.length + 1 := by
  cases kind <;> simp [Lexed.cons]

theorem Lexed.length_tokens_le {position : Position} {text : List Char} {lexed : Lexed}
    (found : Lexed.ofText position text = .ok lexed) : lexed.tokens.length ≤ text.length := by
  induction position, text using Lexed.ofText.induct generalizing lexed with
  | case1 position =>
      rw [Lexed.ofText] at found
      cases found
      exact Nat.le_refl 0
  | case2 position first rest fault read =>
      rw [Lexed.ofText, read] at found
      cases found
  | case3 position first rest lexeme read error failed _ =>
      rw [Lexed.ofText, read] at found
      simp only [failed] at found
      cases found
  | case4 position first rest lexeme read inner ran ih =>
      rw [Lexed.ofText, read] at found
      simp only [ran] at found
      cases found
      have fewer := ih ran
      have one := inner.length_tokens_cons_le lexeme.kind position
      rw [List.length_drop] at fewer
      rw [List.length_cons]
      omega

theorem length_tokens_tokenize_le {source : String} {lexed : Lexed} (found : tokenize source = .ok lexed) :
    lexed.tokens.length ≤ source.toList.length := by
  have bound := Lexed.length_tokens_le found
  rw [List.length_drop] at bound
  omega

theorem length_le_utf8ByteSize (text : List Char) : text.length ≤ (String.ofList text).utf8ByteSize := by
  induction text with
  | nil => exact Nat.zero_le _
  | cons character rest ih =>
      have front : String.ofList (character :: rest) = String.singleton character ++ String.ofList rest := by
        rw [String.singleton_eq_ofList, ← String.ofList_append]
        rfl
      have size := character.utf8Size_pos
      rw [front, String.utf8ByteSize_append, String.utf8ByteSize_singleton, List.length_cons]
      omega

/-- A text that requires modules has a byte for each. -/
theorem Chunk.length_requires_le {source : String} {chunk : Chunk} (read : Chunk.parse source = .ok chunk) :
    chunk.body.requires.length ≤ source.utf8ByteSize := by
  obtain ⟨lexed, tree, found, parsed, rfl⟩ := Chunk.parse_eq_ok.mp read
  have same := congrArg List.length tree.items_resolve
  rw [List.length_map] at same
  calc (tree.resolve.run .empty).1.requires.length
      ≤ (tree.resolve.run .empty).1.items.length := Block.length_requires_le _
    _ = tree.items.length := same
    _ ≤ lexed.tokens.length := Block.length_items_le parsed
    _ ≤ source.toList.length := length_tokens_tokenize_le found
    _ ≤ source.utf8ByteSize := by simpa using length_le_utf8ByteSize source.toList

/-- The modules that a text requires; none if it cannot be read. -/
def requiredIn (source : String) : List String :=
  match Chunk.parse source with
  | .ok chunk => chunk.body.requires
  | .error _ => []

theorem length_requiredIn_le (source : String) : (requiredIn source).length ≤ source.utf8ByteSize := by
  unfold requiredIn
  split
  next chunk read => exact Chunk.length_requires_le read
  next => exact Nat.zero_le _

theorem Chunk.mem_requiredIn {source name : String} {chunk : Chunk} (read : Chunk.parse source = .ok chunk)
    (required : name ∈ chunk.requires) : name ∈ requiredIn source := by
  rw [requiredIn, read]
  exact List.mem_eraseDups.mp required

namespace Library

def requiredNames (library : Library) : List String := library.texts.flatMap requiredIn

theorem length_requiredNames_le (library : Library) : library.requiredNames.length ≤ library.requestBound := by
  unfold requiredNames requestBound
  induction library.texts with
  | nil => exact Nat.le_refl 0
  | cons text rest ih =>
      have first := length_requiredIn_le text
      simp only [List.flatMap_cons, List.length_append, List.foldr_cons]
      omega

theorem mem_requiredNames {library : Library} {name required : String} {loaded : LoadedModule} {chunk : Chunk}
    (found : library.load name = .ok loaded) (read : Chunk.parse loaded.source = .ok chunk)
    (named : required ∈ chunk.requires) : required ∈ library.requiredNames :=
  List.mem_flatMap.mpr ⟨loaded.source, library.complete name loaded found, Chunk.mem_requiredIn read named⟩

end Library
end LuaMinifier
