import LuaMinifier.Bundle.Loader
import LuaMinifier.Proofs.TokenText
import LuaMinifier.Require

/-!
The names of modules in quotes. Main statement: the value of a quoted name is the name, and a quoted name is read as one
string exactly if the name has no carriage return in it.
-/

namespace LuaMinifier

open Lexeme

theorem quotedLength_escape {text : List Char} (plain : '\r' ∉ text) (count : Nat) :
    quotedLength '"' (text.flatMap escapeInName ++ ['"']) count =
      some (count + (text.flatMap escapeInName).length + 1) := by
  induction text generalizing count with
  | nil => simp [quotedLength_cons]
  | cons character rest ih =>
      simp only [List.mem_cons, not_or] at plain
      have further := ih plain.2
      simp only [List.flatMap_cons, List.append_assoc, List.length_append, escapeInName]
      split
      next special =>
        simp only [List.cons_append, List.nil_append, quotedLength, further, List.length_cons, List.length_nil]
        congr 1
        omega
      next ordinary =>
        split
        next =>
          simp only [List.cons_append, List.nil_append, quotedLength, further, List.length_cons, List.length_nil]
          congr 1
          omega
        next visible =>
          simp only [Bool.or_eq_true, decide_eq_true_eq, not_or] at ordinary
          simp [quotedLength_cons ordinary.1, ordinary, visible, Ne.symm plain.1, further]
          omega

/-- A carriage return is not escaped, and it leaves the string open. -/
theorem quotedLength_escape_of_mem {text : List Char} (broken : '\r' ∈ text) (count : Nat) :
    quotedLength '"' (text.flatMap escapeInName ++ ['"']) count = none := by
  induction text generalizing count with
  | nil => cases broken
  | cons character rest ih =>
      simp only [List.flatMap_cons, List.append_assoc]
      obtain rfl | later := List.mem_cons.mp broken
      · exact quotedLength_cons (by decide) ..
      · rw [escapeInName]
        split
        next => exact ih later _
        next ordinary =>
          simp only [Bool.or_eq_true, decide_eq_true_eq, not_or] at ordinary
          split
          next => exact ih later _
          next =>
            rw [List.singleton_append, quotedLength_cons ordinary.1, if_neg ordinary.2, ih later, ite_self]

theorem textOf_quoteName (name : String) : textOf '"' (name.toList.flatMap escapeInName ++ ['"'])
    (0 + (name.toList.flatMap escapeInName).length + 1) = quoteName name := by
  simp [textOf, quoteName, List.take_of_length_le]

theorem written_quoteName {name : String} (plain : '\r' ∉ name.toList) :
    (Token.Kind.string (quoteName name)).Written := by
  have quoted := written_quoted (.inl rfl) (quotedLength_escape plain 0)
  rwa [textOf_quoteName] at quoted

theorem unescape_escape (text : List Char) : unescape (text.flatMap escapeInName) = some text := by
  induction text with
  | nil => rfl
  | cons character rest ih =>
      rw [List.flatMap_cons, escapeInName]
      split
      next special =>
        simp only [Bool.or_eq_true, decide_eq_true_eq] at special
        rcases special with rfl | rfl <;> simp [unescape, ih]
      next ordinary =>
        simp only [Bool.or_eq_true, decide_eq_true_eq, not_or] at ordinary
        split
        next broken => simp [unescape, ih, broken]
        next => simp [unescape, ih, ordinary]

theorem charsInBytes_cons {bytes : Nat} {character : Char} (fits : character.utf8Size ≤ bytes) (rest : List Char) :
    charsInBytes bytes (character :: rest) = (charsInBytes (bytes - character.utf8Size) rest).map (· + 1) := by
  have size := character.utf8Size_pos
  cases bytes with
  | zero => omega
  | succ bytes => rw [charsInBytes, if_pos fits]

theorem byteCount_cons (character : Char) (rest : List Char) :
    byteCount (character :: rest) = character.utf8Size + byteCount rest := rfl

theorem byteCount_append (text more : List Char) : byteCount (text ++ more) = byteCount text + byteCount more := by
  induction text with
  | nil => simp [byteCount]
  | cons character rest ih => rw [List.cons_append, byteCount_cons, byteCount_cons, ih, Nat.add_assoc]

theorem charsInBytes_append (text more : List Char) :
    charsInBytes (byteCount text) (text ++ more) = some text.length := by
  induction text with
  | nil => cases more <;> rfl
  | cons character rest ih =>
      rw [byteCount_cons, List.cons_append, charsInBytes_cons (Nat.le_add_right ..), Nat.add_sub_cancel_left, ih]
      rfl

theorem stringValue_quoteName (name : String) : stringValue (quoteName name) = some name := by
  have quote : ('"').utf8Size = 1 := by decide
  have first : charsInBytes 1 ('"' :: (name.toList.flatMap escapeInName ++ ['"'])) = some 1 := by
    rw [charsInBytes_cons (by decide)]
    simp [quote, charsInBytes]
  have inner : sliceBytes 1 (byteCount ('"' :: name.toList.flatMap escapeInName ++ ['"']) - 1)
      ('"' :: name.toList.flatMap escapeInName ++ ['"']) = some (name.toList.flatMap escapeInName) := by
    have stop : byteCount ('"' :: name.toList.flatMap escapeInName ++ ['"']) - 1 =
        1 + byteCount (name.toList.flatMap escapeInName) := by
      rw [byteCount_append, byteCount_cons]
      simp [byteCount, quote]
    rw [stop]
    simp [sliceBytes, first, charsInBytes_append]
  simp [stringValue, quoteName] at inner ⊢
  simp [inner, unescape_escape]

theorem read_quote (rest : List Char) : Lexeme.read '"' rest = readQuoted '"' rest := read_quotation (.inl rfl) rest

/-- The value of a quoted name is the name. Read as a text, a quoted name is one string and nothing else; but a carriage
return in the name ends the line within the string, which is then not finished. -/
theorem tokenize_quoteName (name : String) :
    stringValue (quoteName name) = some name ∧
      tokenize (quoteName name) =
        if '\r' ∈ name.toList then .error ⟨.unfinishedString, .start⟩
        else .ok ⟨[⟨.string (quoteName name), .start⟩], [], Position.start.after (quoteName name).toList⟩ := by
  refine ⟨stringValue_quoteName name, ?_⟩
  have text : (quoteName name).toList = '"' :: (name.toList.flatMap escapeInName ++ ['"']) := by simp [quoteName]
  have cut : tokenize (quoteName name) =
      Lexed.ofText .start ('"' :: (name.toList.flatMap escapeInName ++ ['"'])) := by
    simp [tokenize, interpreterLine, text]
  rw [cut, Lexed.ofText, read_quote, readQuoted]
  by_cases broken : '\r' ∈ name.toList
  · simp [quotedLength_escape_of_mem broken, broken]
  · have whole : 0 + (name.toList.flatMap escapeInName).length + 1 =
        (name.toList.flatMap escapeInName ++ ['"']).length := by
      rw [List.length_append, Nat.zero_add, List.length_singleton]
    simp only [quotedLength_escape broken, textOf_quoteName, if_neg broken]
    rw [whole, List.take_length, List.drop_length, Lexed.ofText, text]
    rfl

/-- A carriage return in a name is lost with the whole string. -/
theorem quoteName_return_unread : ¬∃ lexed, tokenize (quoteName "a\rb") = .ok lexed := by
  have failed : (tokenize (quoteName "a\rb")).toBool = false := by decide +kernel
  rintro ⟨lexed, found⟩
  rw [found] at failed
  cases failed

end LuaMinifier
