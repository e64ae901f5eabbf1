import LuaMinifier.Minify
import LuaMinifier.Proofs.Grammar
import LuaMinifier.Proofs.ReadStatements
import LuaMinifier.Proofs.Rendering
import LuaMinifier.Proofs.Respelling

/-!
Printing a text and reading it again. What is printed is always a text that can be read, and where no operand is
regrouped it is read as the tree that was printed.
-/

namespace LuaMinifier

open Token
open Lexeme hiding Kind

/-- Whether a token is a numeral of Lua, if it is a number. -/
def Token.isStandard (token : Token) : Bool :=
  match token.kind with
  | .number raw => isNumeral raw.toList
  | _ => true

/-- Whether every number in a source text is a numeral of Lua. -/
def hasNumerals (source : String) : Bool :=
  match tokenize source with
  | .ok lexed => lexed.tokens.all Token.isStandard
  | .error _ => true

theorem written_of_hasNumerals {source : String} (numerals : hasNumerals source = true) {lexed : Lexed}
    (found : tokenize source = .ok lexed) : ∀ token ∈ lexed.tokens, token.kind.Written := by
  refine Lexed.written_of_ofText found fun token member raw isNumber => ?_
  simp only [hasNumerals, found, List.all_eq_true] at numerals
  simpa [Token.isStandard, isNumber] using numerals token member

namespace Token.Kind

theorem head_ne_numberSign {kind : Kind} (written : kind.Written) (start : kind.startsLine = true) :
    kind.chars.head? ≠ some '#' := by
  intro head
  obtain ⟨rest, same⟩ := List.head?_eq_some_iff.mp head
  have first := startsWith_head written same
  cases kind with
  | symbol sign => cases sign <;> simp [startsWith, Symbol.text, startsLine, startsStatement] at first start
  | name text => simp [startsWith, Lexeme.startsName] at first
  | keyword reserved => simp [startsWith, Lexeme.startsName] at first
  | _ => simp [startsLine, startsStatement] at start

end Token.Kind

theorem Block.kinds_head {ι : Type} (text : ι → String) {valid : Kind → Prop} {named : ι → Prop} {body : Block ι}
    (formed : body.Formed valid named) {kind : Kind} {kinds : List Kind}
    (same : body.kinds text true = kind :: kinds) : kind.startsLine = true := by
  cases body with
  | nil => simp [Block.kinds] at same
  | ret position values =>
      rw [Block.kinds] at same
      obtain ⟨rfl, _⟩ := List.cons.inj same
      rfl
  | cons head tail =>
      obtain ⟨first, rest, found, start⟩ := head.kinds_head text formed.1
      simp only [Block.kinds, separated, found, Bool.not_true, Bool.and_false, Bool.false_eq_true, ↓reduceIte,
        List.cons_append] at same
      obtain ⟨rfl, _⟩ := List.cons.inj same
      exact Kind.startsLine_of_startsStatement first start

theorem Spaced.tokenize {kinds : List Kind} {text : List Char} (spaced : Spaced kinds text)
    (plain : text.head? ≠ some '#') :
    ∃ lexed, LuaMinifier.tokenize (String.ofList text) = .ok lexed ∧ lexed.tokens.map (·.kind) = kinds ∧
      lexed.comments = [] := by
  obtain ⟨lexed, read, same⟩ := spaced.ofText .start
  exact ⟨lexed, by simpa [LuaMinifier.tokenize, interpreterLine, plain] using read, same⟩

theorem Block.head_printed (module : String) {body : Block Spelling}
    (formed : body.Formed Kind.Written Spelling.Written) :
    (body.printOnto module .empty).chars.head? ≠ some '#' := by
  have printed := (body.printed module formed).spaced
  cases kinds : body.reread.kinds Spelling.text true with
  | nil =>
      rw [kinds] at printed
      simp [printed.text_eq_nil.mpr rfl]
  | cons kind rest =>
      rw [kinds] at printed
      rw [printed.head]
      exact Kind.head_ne_numberSign (printed.written kind (by simp))
        (Block.kinds_head _ (body.formed_reread formed) kinds)

/-- What is printed of a well formed block is read as the block that its text spells. -/
theorem Block.read_print (module : String) {body : Block Spelling}
    (formed : body.Formed Kind.Written Spelling.Written) :
    ∃ lexed tree, tokenize (body.print module).toText = .ok lexed ∧ lexed.comments = [] ∧
      Block.ofTokens lexed = .ok tree ∧ tree.view .exact Name.text = body.reread.view .exact Spelling.text := by
  have printed := (body.printed module formed).spaced
  have text : (body.print module).toText = String.ofList (body.printOnto module .empty).chars := by
    simp [Fragment.toText_eq, Block.print, Print.node]
  obtain ⟨lexed, found, same, silent⟩ := printed.tokenize (body.head_printed module formed)
  obtain ⟨tree, isRead, read⟩ := Block.ofTokens_kinds (body.formed_reread formed) body.grouped_reread same
  exact ⟨lexed, tree, by rw [text, found], silent, read, isRead⟩

namespace Block

theorem formed_resolve {valid : Kind → Prop} {tree : Block Name} (formed : tree.Formed valid (Parser.Named valid)) :
    (tree.resolve.run .empty).1.Formed valid fun identifier => valid (.name identifier.name) := by
  have seen : (tree.view .exact Name.text).Formed valid fun name => valid (.name name) :=
    tree.formed_view.mpr formed
  rw [← tree.view_resolve, Block.formed_view] at seen
  exact seen

theorem formed_spell {session : Session} (sound : session.Sound) {body : Block Identifier}
    (formed : body.Formed Kind.Written fun identifier => (Kind.name identifier.name).Written) :
    (body.spell session).1.Formed Kind.Written Spelling.Written := by
  have grown := Session.spell_block_grows body session
  have seen : (body.view .exact (Spelling.text ∘ (body.spell session).2.spelling)).Formed Kind.Written
      fun name => (Kind.name name).Written := by
    refine body.formed_view.mpr (body.formed_mono (fun identifier written => ?_) formed)
    simp only [Function.comp_apply, Session.spelling]
    split
    · exact Session.shortName_written (grown.sound sound) _
    · exact written
  rw [← Session.spell_view, Block.formed_view] at seen
  exact seen

end Block

theorem Expr.leftGrouped_view {ι κ : Type} (detail : Detail) (see : ι → κ) :
    Agrees detail see Expr.LeftGrouped Expr.LeftGrouped := by
  intro expression asBase
  cases expression with
  | binary _ _ _ right => cases right <;> rfl
  | _ => rfl

theorem Block.leftGrouped_spell (body : Block Identifier) (session : Session) :
    (body.spell session).1.All Expr.LeftGrouped ↔ body.All Expr.LeftGrouped := by
  rw [← Block.all_view (Expr.leftGrouped_view .exact Spelling.text), Session.spell_view,
    Block.all_view (Expr.leftGrouped_view .exact _)]

theorem Block.resolve_reread {session : Session} (sound : session.Sound) {tree again : Block Name}
    (reserves : session.Reserves (tree.resolve.run .empty).1) {detail : Detail}
    (same : again.view detail Name.text =
      ((tree.resolve.run .empty).1.spell session).1.view detail Spelling.text) :
    (again.resolve.run .empty).1.view detail Identifier.global? =
      (tree.resolve.run .empty).1.view detail Identifier.global? := by
  have bound := Block.bound_spell (fun _ name => name) detail sound rfl reserves
  rw [← same, ← again.view_resolve, freeName_eq] at bound
  have old := Block.bound_resolve_exact (fun name isLocal => if isLocal then none else some name) detail
    (rfl : (tree.resolve.run .empty).1 = _)
  have new := Block.bound_resolve (fun name isLocal => if isLocal then none else some name) detail
    (rfl : (again.resolve.run .empty).1 = _)
  exact new.symm.trans (bound.trans old)

/-- The short form of a text can be read again. Where no sum is the right operand of a sum and no product that of a
product, it is read as the same statements and expressions: positions, the names of local variables and marks of
parentheses can differ, but not the marks that cut the values of a call or of `...` down to one. -/
theorem Chunk.parse_minified {source : String} {chunk : Chunk} (module : String)
    (read : Chunk.parse source = .ok chunk) (numerals : hasNumerals source = true) :
    ∃ again, Chunk.parse (chunk.minified module).toText = .ok again ∧
      (chunk.body.All Expr.LeftGrouped →
        again.body.view .essential Identifier.global? = chunk.body.view .essential Identifier.global?) := by
  obtain ⟨lexed, tree, found, parsed, rfl⟩ := Chunk.parse_eq_ok.mp read
  let body := (tree.resolve.run .empty).1
  have formed : body.Formed Kind.Written fun identifier => (Kind.name identifier.name).Written :=
    Block.formed_resolve (Block.formed_of_ofTokens (written_of_hasNumerals numerals found) parsed)
  have sound := Session.withReserved_sound body.globals
  obtain ⟨lexedAgain, treeAgain, foundAgain, _, parsedAgain, same⟩ :=
    Block.read_print module (Block.formed_spell sound formed)
  refine ⟨_, Chunk.parse_eq_ok.mpr ⟨lexedAgain, treeAgain, foundAgain, parsedAgain, rfl⟩, fun grouped => ?_⟩
  refine Block.resolve_reread sound (Session.withReserved_reserves body) ?_
  have essential := congrArg (Block.view .essential id) same
  rw [Block.view_exact, Block.view_exact] at essential
  exact essential.trans (Block.view_reread _ _ ((Block.leftGrouped_spell body _).mpr grouped))

/-- A difference on the right of a difference and a call that is cut down to one value. -/
theorem Chunk.parse_minified_difference : ∃ chunk,
    Chunk.parse "local x=0x1p4 return a-(x-2),(f())" = .ok chunk ∧
      hasNumerals "local x=0x1p4 return a-(x-2),(f())" = true ∧ chunk.body.All Expr.LeftGrouped ∧
      ∃ again, Chunk.parse (chunk.minified "main").toText = .ok again ∧
        again.body.view .essential Identifier.global? = chunk.body.view .essential Identifier.global? := by
  have read : (Chunk.parse "local x=0x1p4 return a-(x-2),(f())").toOption.any
      (fun chunk => decide (chunk.body.All Expr.LeftGrouped)) = true := by decide +kernel
  have numerals : hasNumerals "local x=0x1p4 return a-(x-2),(f())" = true := by decide +kernel
  obtain ⟨chunk, parsed, grouped⟩ := Chunk.exists_of_parse read
  obtain ⟨again, readAgain, same⟩ := Chunk.parse_minified "main" parsed numerals
  exact ⟨chunk, parsed, numerals, of_decide_eq_true grouped, again, readAgain, same (of_decide_eq_true grouped)⟩

end LuaMinifier
