import LuaMinifier.Proofs.SourceMapping

/-!
Lines of pragmas in front of a minified text. Main statement: the text is cut into the tokens that are printed without
the pragmas, and its comments are those of the source that begin with the marker, up to carriage returns at their ends.
-/

namespace LuaMinifier

open Lexeme hiding Kind
open Token

/-- A text without the carriage returns at its end. -/
def trimReturns (text : String) : String :=
  String.ofList (text.toList.reverse.dropWhile (· = '\r')).reverse

def Comment.trimmed (comment : Comment) : String × String := (trimReturns comment.raw, trimReturns comment.value)

theorem trimReturns_dropReturn (text : String) :
    trimReturns (String.ofList (dropReturn text.toList)) = trimReturns text := by
  rw [trimReturns, trimReturns, String.toList_ofList, dropReturn]
  split
  next last =>
    obtain ⟨line, same⟩ := List.getLast?_eq_some_iff.mp last
    simp [same]
  next => rfl

theorem Comment.trimmed_reread (comment : Comment) : comment.reread.trimmed = comment.trimmed := by
  rw [Comment.reread]
  split
  · simp only [Comment.trimmed, trimReturns_dropReturn]
  · rfl

theorem Comment.trimmed_eq_of_texts {comments others : List Comment}
    (same : comments.map Comment.texts = others.map (·.reread.texts)) :
    comments.map Comment.trimmed = others.map Comment.trimmed := by
  have through (each : Comment) : each.trimmed = Prod.map trimReturns trimReturns each.texts := rfl
  have again := congrArg (List.map (Prod.map trimReturns trimReturns)) same
  simp only [List.map_map, Function.comp_def, ← through, Comment.trimmed_reread] at again
  exact again

theorem pragmas_eq_filter (marker : String) (comments : List Comment) : pragmas marker comments =
    comments.filter fun comment => !marker.isEmpty && marker.toList.isPrefixOf comment.value.toList := by
  unfold pragmas
  by_cases silent : marker.isEmpty
  · simp [silent]
  · simp [silent]

/-- Minifying a text puts the comments that begin with the marker in front of what is printed, and nothing else changes:
the tokens are those of the printed text, which has no comment of its own. -/
theorem minify_comments {name source : String} {options : Options} {file : Option String} {output : Output}
    (done : minify name source options file = .ok output) (numerals : hasNumerals source = true) :
    ∃ chunk lexed printed again, Chunk.parse source = .ok chunk ∧ tokenize source = .ok lexed ∧
      tokenize (chunk.minified name).toText = .ok printed ∧ printed.comments = [] ∧
      tokenize output.code = .ok again ∧ again.tokens.map (·.kind) = printed.tokens.map (·.kind) ∧
      again.comments.map Comment.trimmed = (lexed.comments.filter fun comment =>
        !options.pragmaMarker.isEmpty && options.pragmaMarker.toList.isPrefixOf comment.value.toList).map
          Comment.trimmed := by
  obtain ⟨chunk, read, rfl⟩ := minify_eq_ok.mp done
  obtain ⟨lexed, tree, found, parsed, rfl⟩ := Chunk.parse_eq_ok.mp read
  let chunk := Chunk.ofTree tree lexed.comments
  have formed : chunk.body.Formed Kind.Written fun identifier => (Kind.name identifier.name).Written :=
    Block.formed_resolve (Block.formed_of_ofTokens (written_of_hasNumerals numerals found) parsed)
  have closed : ∀ comment ∈ pragmas options.pragmaMarker lexed.comments, comment.Closed :=
    fun comment kept => Lexed.closed_of_ofText found comment (pragmas_subset _ _ kept)
  have cut := Block.cut_print name (Block.formed_spell (Session.withReserved_sound chunk.globals) formed)
  obtain ⟨printed, foundPrinted, kinds, silent⟩ := cut.tokenize
  obtain ⟨again, foundAgain, kindsAgain, comments⟩ := (cut.withPragmas closed name).tokenize
  refine ⟨chunk, lexed, printed, again, read, found, ?_, List.map_eq_nil_iff.mp silent, ?_, kindsAgain.trans kinds.symm,
    ?_⟩
  · exact (congrArg tokenize (Fragment.toText_eq _)).trans foundPrinted
  · exact (congrArg tokenize (Fragment.toText_eq _)).trans foundAgain
  · rw [← pragmas_eq_filter]
    exact Comment.trimmed_eq_of_texts (comments.trans (List.append_nil _))

/-- An opener without an end, carriage returns, brackets inside a comment, and a pragma behind code. -/
theorem minify_comments_openers :
    let options : Options := { pragmaMarker := "[=" }
    let source := "--[=a\r\r\nlocal x=1 --[==[[=b]\r]==] --x\n--[[y]]return x--[="
    hasNumerals source = true ∧ ∃ output, minify "main" source options none = .ok output ∧
      ∃ chunk printed again, Chunk.parse source = .ok chunk ∧ tokenize (chunk.minified "main").toText = .ok printed ∧
        printed.comments = [] ∧ tokenize output.code = .ok again ∧
        again.tokens.map (·.kind) = printed.tokens.map (·.kind) ∧
        again.comments.map Comment.trimmed =
          [("--[=a", "[=a"), ("--[==[[=b]\r]==]", "[=b]"), ("--[=", "[=")] := by
  intro options source
  have numerals : hasNumerals source = true := by decide +kernel
  have check : (tokenize source).toOption.any (fun lexed => decide ((lexed.comments.filter fun comment =>
      !options.pragmaMarker.isEmpty && options.pragmaMarker.toList.isPrefixOf comment.value.toList).map
        Comment.trimmed = [("--[=a", "[=a"), ("--[==[[=b]\r]==]", "[=b]"), ("--[=", "[=")])) = true := by
    decide +kernel
  have reads : (Chunk.parse source).toOption.any (fun _ => true) = true := by decide +kernel
  obtain ⟨chunk, read, -⟩ := Chunk.exists_of_parse reads
  have done : minify "main" source options none = .ok _ := minify_eq_ok.mpr ⟨chunk, read, rfl⟩
  obtain ⟨chunk, lexed, printed, again, read, found, alone, silent, foundAgain, kinds, comments⟩ :=
    minify_comments done numerals
  rw [found] at check
  have kept := of_decide_eq_true (show decide _ = true by simpa [Except.toOption] using check)
  exact ⟨numerals, _, done, chunk, printed, again, read, alone, silent, foundAgain, kinds, comments.trans kept⟩

end LuaMinifier
