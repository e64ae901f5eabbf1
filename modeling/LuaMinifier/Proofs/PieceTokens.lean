import LuaMinifier.Proofs.Leaves
import LuaMinifier.Proofs.Mirroring
import LuaMinifier.Proofs.PrintedLayout
import LuaMinifier.Proofs.RoundTrip

/-!
The tokens of the pieces of a printed text. Main statement: a printed text has the tokens that its leaves have one by
one, so that no two of them fuse and none is cut.
-/

namespace LuaMinifier

open Token
open Lexeme hiding Kind

theorem le_numeralLength (isDigit isMark : Char → Bool) (afterMark : Bool) (text : List Char) (count : Nat) :
    count ≤ numeralLength isDigit isMark afterMark text count := by
  fun_induction numeralLength isDigit isMark afterMark text count <;> omega

theorem Lexeme.number_ne_point {rest : List Char} {raw : String} {tail : Nat}
    (read : Lexeme.read '.' rest = .ok ⟨.token (.number raw), tail⟩) : rest.take tail ≠ [] := by
  have plain : isBlank '.' = false ∧ startsName '.' = false := by decide
  simp only [Lexeme.read, plain, Bool.false_eq_true, ↓reduceIte, Char.reduceEq, decide_false, Bool.false_and,
    Bool.or_self, decide_true, Bool.true_and, show '.'.isDigit = false by decide, Bool.false_or] at read
  split at read
  next digit =>
    cases rest with
    | nil => simp at digit
    | cons first more =>
        have number : first.isDigit = true := by simpa using digit
        have unmarked : first ≠ 'e' ∧ first ≠ 'E' := by
          constructor <;> (rintro rfl; exact absurd number (by decide))
        have least := le_numeralLength Char.isDigit (fun mark => mark = 'e' || mark = 'E') false more 1
        simp only [readNumeral] at read
        split at read
        · cases read
        · cases read
          have tail : numeralTail '.' (first :: more) =
              numeralLength Char.isDigit (fun mark => mark = 'e' || mark = 'E') false more 1 := by
            simp [numeralTail, numeralLength, unmarked, number]
          rw [tail]
          simp only [ne_eq, List.take_eq_nil_iff, reduceCtorEq, or_false]
          omega
  next =>
    unfold readSymbol at read
    split at read <;> cases read

theorem Lexeme.legible_of_read {first : Char} {rest : List Char} {kind : Token.Kind} {tail : Nat}
    (read : Lexeme.read first rest = .ok ⟨.token kind, tail⟩) : kind.Legible := by
  cases kind with
  | number raw =>
      have text : raw.toList = first :: rest.take tail := Lexeme.chars_of_read read
      refine ⟨by simp [text], fun point => ?_⟩
      rw [text] at point
      obtain ⟨rfl, empty⟩ := List.cons.inj point
      exact number_ne_point read empty
  | _ => exact Lexeme.written_of_read read (by simp)

theorem legible_of_tokenize {source : String} {lexed : Lexed} (found : tokenize source = .ok lexed) :
    ∀ token ∈ lexed.tokens, token.kind.Legible :=
  Lexed.forall_of_ofText Lexeme.legible_of_read found

namespace Block

theorem formed_spelled {valid : Kind → Prop} {session : Session} (names : session.Names) {body : Block Identifier}
    (formed : body.Formed valid fun identifier => (Kind.name identifier.name).Written) :
    (body.spell session).1.Formed valid Spelling.Written := by
  have later : (body.spell session).2.Names := by
    rw [Session.spell_after]
    exact names.after _
  have seen : (body.view .exact (Spelling.text ∘ (body.spell session).2.spelling)).Formed valid
      fun name => (Kind.name name).Written := by
    refine body.formed_view.mpr (body.formed_mono (fun identifier written => ?_) formed)
    simp only [Function.comp_apply, Session.spelling]
    split
    · exact later.shortName_written _
    · exact written
  rw [← Session.spell_view, Block.formed_view] at seen
  exact seen

end Block

/-- A printed text has the tokens of its leaves, each leaf read alone, whatever the session was used for before. -/
theorem Chunk.tokens_print {source : String} {chunk : Chunk} (module : String) (calls : List Session.Call)
    (read : Chunk.parse source = .ok chunk) (numerals : hasNumerals source = true) :
    let printed := ((chunk.print module).run (Session.history calls).1).1
    ∃ lexed parts, tokenize printed.toText = .ok lexed ∧ printed.leaves.mapM tokenKinds = some parts ∧
      lexed.tokens.map (·.kind) = parts.flatten := by
  obtain ⟨lexed, tree, found, parsed, rfl⟩ := Chunk.parse_eq_ok.mp read
  let body := (tree.resolve.run .empty).1
  let spelled := (body.spell (Session.history calls).1).1
  have names := Session.history_names calls
  have formed : spelled.Formed Kind.Written Spelling.Written :=
    Block.formed_spelled names
      (Block.formed_resolve (Block.formed_of_ofTokens (written_of_hasNumerals numerals found) parsed))
  have legible : spelled.Formed Kind.Legible Spelling.Written :=
    Block.formed_spelled names (Block.formed_resolve (Block.formed_of_ofTokens (legible_of_tokenize found) parsed))
  have spaced := (spelled.printed module formed).spaced
  have laid := (spelled.laidOnto_print module legible).whole
  obtain ⟨again, reread, same, _⟩ := spaced.tokenize (spelled.head_printed module formed)
  obtain ⟨parts, cut, flat⟩ := laid.cut spaced.written
  have text : (spelled.print module).toText = String.ofList (spelled.printOnto module .empty).chars := by
    simp [Fragment.toText_eq, Block.print, Print.node]
  exact ⟨again, parts, (congrArg tokenize text).trans reread, cut, same.trans flat⟩

/-- Pieces that would fuse: a number before a concatenation, a hyphen before a hyphen and a bracket before a bracket. -/
theorem Chunk.tokens_print_fusing : ∃ chunk,
    Chunk.parse "local x = 0x1p4 .. - - 1 return t[ [[x]] ]" = .ok chunk ∧
      hasNumerals "local x = 0x1p4 .. - - 1 return t[ [[x]] ]" = true ∧
      let printed := ((chunk.print "main").run (Session.history [.reserve ["a", "t"], .fresh, .rename "x"]).1).1
      ∃ lexed parts, tokenize printed.toText = .ok lexed ∧ printed.leaves.mapM tokenKinds = some parts ∧
        lexed.tokens.map (·.kind) = parts.flatten := by
  have parsed : (Chunk.parse "local x = 0x1p4 .. - - 1 return t[ [[x]] ]").toOption.any (fun _ => true) = true := by
    decide +kernel
  have numerals : hasNumerals "local x = 0x1p4 .. - - 1 return t[ [[x]] ]" = true := by decide +kernel
  obtain ⟨chunk, read, _⟩ := Chunk.exists_of_parse parsed
  exact ⟨chunk, read, numerals, Chunk.tokens_print "main" [.reserve ["a", "t"], .fresh, .rename "x"] read numerals⟩

end LuaMinifier
