import LuaMinifier.Proofs.TokenText

/-!
The short strings of Lua 5.3, with all their escapes. Main statement: a short string is read as one token exactly if
each of its line breaks is one character directly behind a backslash; else the string is reported as not finished.
-/

namespace LuaMinifier

open Lexeme

namespace ShortString

def isLineBreak (character : Char) : Bool := character = '\n' || character = '\r'

def lineBreaks : List (List Char) := [['\n'], ['\r'], ['\r', '\n'], ['\n', '\r']]

/-- The characters that are escaped by a backslash and nothing else. -/
def escapedSigns : List Char := ['a', 'b', 'f', 'n', 'r', 't', 'v', '\\', '"', '\'']

def digitValue (digit : Char) : Nat :=
  if digit.isDigit then digit.toNat - '0'.toNat
  else if 'a' ≤ digit then digit.toNat - 'a'.toNat + 10
  else digit.toNat - 'A'.toNat + 10

/-- The number that some digits write. -/
def valueOf (base : Nat) (digits : List Char) : Nat :=
  digits.foldl (fun value digit => base * value + digitValue digit) 0

/-- What stands behind the backslash of an escape, with the rest of the string behind it. -/
inductive Escape (rest : List Char) : List Char → Prop
  | sign {character : Char} (listed : character ∈ escapedSigns) : Escape rest [character]
  | lineBreak {signs : List Char} (listed : signs ∈ lineBreaks) : Escape rest signs
  -- The blanks are skipped, line breaks among them.
  | span {blanks : List Char} (blank : ∀ character ∈ blanks, isBlank character = true) : Escape rest ('z' :: blanks)
  | byte {high low : Char} (first : isHexDigit high = true) (second : isHexDigit low = true) :
      Escape rest ['x', high, low]
  -- Fewer than three digits are written only where no digit follows.
  | decimal {digits : List Char} (digital : isDigits digits = true) (few : digits.length ≤ 3)
      (bounded : valueOf 10 digits ≤ 255)
      (whole : digits.length = 3 ∨ ∀ next, rest.head? = some next → next.isDigit = false) : Escape rest digits
  | codePoint {digits : List Char} (present : digits ≠ []) (hexadecimal : ∀ digit ∈ digits, isHexDigit digit = true)
      (bounded : valueOf 16 digits ≤ 0x10FFFF) : Escape rest ('u' :: '{' :: (digits ++ ['}']))

/-- A short string behind its opening quote, up to the closing one. -/
inductive Body (quote : Char) : List Char → Prop
  | close : Body quote [quote]
  | plain {character : Char} {rest : List Char} (inside : character ≠ quote) (unescaped : character ≠ '\\')
      (inLine : isLineBreak character = false) (more : Body quote rest) : Body quote (character :: rest)
  | escape {escaped rest : List Char} (valid : Escape rest escaped) (more : Body quote rest) :
      Body quote ('\\' :: (escaped ++ rest))

end ShortString

/-- A short string: matching quotes, and between them characters of one line and escapes. -/
def ShortString (text : List Char) : Prop :=
  ∃ quote body, (quote = '"' ∨ quote = '\'') ∧ text = quote :: body ∧ ShortString.Body quote body

namespace ShortString

/-- Whether each line break behind the first character stands directly behind a backslash. -/
def escapesBreaks : List Char → Bool
  | before :: character :: rest =>
    (!isLineBreak character || before = '\\') && escapesBreaks (character :: rest)
  | _ => true

theorem escapesBreaks_cons (before character : Char) (rest : List Char) :
    escapesBreaks (before :: character :: rest) =
      ((!isLineBreak character || before = '\\') && escapesBreaks (character :: rest)) := rfl

theorem Body.head_inLine {quote : Char} (isQuote : quote = '"' ∨ quote = '\'') {body : List Char}
    (valid : Body quote body) : ∃ first rest, body = first :: rest ∧ isLineBreak first = false := by
  cases valid with
  | close => exact ⟨quote, [], rfl, by rcases isQuote with rfl | rfl <;> decide⟩
  | plain _ _ inLine _ => exact ⟨_, _, rfl, inLine⟩
  | escape => exact ⟨_, _, rfl, by decide⟩

/-- What stands before a body is not asked for: no body begins with a line break. -/
theorem Body.escapesBreaks_behind {quote : Char} (isQuote : quote = '"' ∨ quote = '\'') {body : List Char}
    (valid : Body quote body) (before : Char) : escapesBreaks (before :: body) = escapesBreaks body := by
  obtain ⟨first, rest, rfl, inLine⟩ := valid.head_inLine isQuote
  simp [escapesBreaks_cons, inLine]

/-- Characters that neither close a string nor escape anything. -/
def Inert (text : List Char) : Prop := ∀ character ∈ text, character ≠ '\\' ∧ character ≠ '"' ∧ character ≠ '\''

theorem inert_of_continuesName {character : Char} (name : continuesName character = true) :
    character ≠ '\\' ∧ character ≠ '"' ∧ character ≠ '\'' := by
  refine ⟨?_, ?_, ?_⟩ <;> rintro rfl <;> exact absurd name (by decide)

theorem inert_of_isBlank {character : Char} (blank : isBlank character = true) :
    character ≠ '\\' ∧ character ≠ '"' ∧ character ≠ '\'' := by
  refine ⟨?_, ?_, ?_⟩ <;> rintro rfl <;> exact absurd blank (by decide)

/-- An escape has a first character, which may be any, and inert ones behind it. -/
theorem Escape.inert {rest escaped : List Char} (valid : Escape rest escaped) :
    ∃ first others, escaped = first :: others ∧ Inert others ∧ (first = '\\' → others = []) := by
  cases valid with
  | sign => exact ⟨_, [], rfl, by simp [Inert], fun _ => rfl⟩
  | lineBreak listed =>
      simp only [lineBreaks, List.mem_cons, List.not_mem_nil, or_false] at listed
      rcases listed with rfl | rfl | rfl | rfl
      · exact ⟨_, _, rfl, by simp [Inert], fun _ => rfl⟩
      · exact ⟨_, _, rfl, by simp [Inert], fun _ => rfl⟩
      · exact ⟨_, _, rfl, by simp [Inert], by simp⟩
      · exact ⟨_, _, rfl, by simp [Inert], by simp⟩
  | span blank => exact ⟨_, _, rfl, fun character member => inert_of_isBlank (blank character member), by simp⟩
  | byte first second =>
      refine ⟨_, _, rfl, ?_, by simp⟩
      simp only [Inert, List.forall_mem_cons]
      exact ⟨inert_of_continuesName (continuesName_of_isHexDigit first),
        inert_of_continuesName (continuesName_of_isHexDigit second), by simp⟩
  | decimal digital few bounded whole =>
      cases escaped with
      | nil => simp [isDigits] at digital
      | cons first others =>
          simp only [isDigits, Bool.and_eq_true, List.all_cons, List.all_eq_true] at digital
          refine ⟨first, others, rfl, fun digit member => ?_, ?_⟩
          · exact inert_of_continuesName (continuesName_of_isDigit (digital.2.2 digit member))
          · rintro rfl
            exact absurd digital.2.1 (by decide)
  | codePoint _ hexadecimal _ =>
      refine ⟨_, _, rfl, ?_, by simp⟩
      simp only [Inert, List.forall_mem_cons, List.forall_mem_append]
      exact ⟨by decide, fun digit member =>
        inert_of_continuesName (continuesName_of_isHexDigit (hexadecimal digit member)), by simp⟩

theorem escapesBreaks_append {before : Char} {others rest : List Char} (inert : Inert others)
    (unescaped : before = '\\' → others = [])
    (free : ∀ character, escapesBreaks (character :: rest) = escapesBreaks rest) :
    escapesBreaks (before :: (others ++ rest)) = (!others.any isLineBreak && escapesBreaks rest) := by
  induction others generalizing before with
  | nil => simp [free]
  | cons character others ih =>
      simp only [Inert, List.forall_mem_cons] at inert
      have different : before ≠ '\\' := fun same => by cases unescaped same
      have behind := ih inert.2 fun same => absurd same inert.1.1
      rw [List.cons_append, escapesBreaks_cons, behind]
      simp [different, Bool.and_assoc]

theorem quotedLength_inert {quote : Char} (isQuote : quote = '"' ∨ quote = '\'') {others : List Char}
    (inert : Inert others) (rest : List Char) (count : Nat) :
    quotedLength quote (others ++ rest) count =
      if others.any isLineBreak then none else quotedLength quote rest (count + others.length) := by
  induction others generalizing count with
  | nil => simp
  | cons character others ih =>
      simp only [Inert, List.forall_mem_cons] at inert
      have different : character ≠ quote := by
        rcases isQuote with rfl | rfl
        · exact inert.1.2.1
        · exact inert.1.2.2
      rw [List.cons_append, quotedLength_cons inert.1.1, if_neg different, ih inert.2]
      cases broken : isLineBreak character with
      | true =>
          simp only [isLineBreak] at broken
          simp [inert.1.1, broken, isLineBreak]
      | false =>
          simp only [isLineBreak, Bool.or_eq_false_iff] at broken
          simp [inert.1.1, broken, isLineBreak, Nat.add_assoc, Nat.add_comm 1]

/-- The body of a short string is read to its end unless a line break stands bare in it. -/
theorem Body.quotedLength {quote : Char} (isQuote : quote = '"' ∨ quote = '\'') {body : List Char}
    (valid : Body quote body) (count : Nat) :
    Lexeme.quotedLength quote body count = if escapesBreaks body then some (count + body.length) else none := by
  have bare : quote ≠ '\\' := by rcases isQuote with rfl | rfl <;> decide
  induction valid generalizing count with
  | close => simp [quotedLength_cons bare, escapesBreaks]
  | @plain character rest inside unescaped inLine more ih =>
      have line := inLine
      simp only [isLineBreak, Bool.or_eq_false_iff] at line
      rw [quotedLength_cons unescaped, if_neg inside, ih, more.escapesBreaks_behind isQuote]
      simp [unescaped, line, Nat.add_assoc, Nat.add_comm 1]
  | @escape escaped rest valid more ih =>
      obtain ⟨first, others, rfl, inert, unescaped⟩ := valid.inert
      -- The reader skips the first character of the escape; the others count as plain ones.
      have spread := escapesBreaks_append inert unescaped (more.escapesBreaks_behind isQuote)
      rw [List.cons_append, Lexeme.quotedLength, quotedLength_inert isQuote inert, ih,
        escapesBreaks_cons, spread]
      cases others.any isLineBreak with
      | true => simp
      | false =>
          simp only [List.length_cons, List.length_append]
          simp [Nat.add_assoc, Nat.add_comm, Nat.add_left_comm]

end ShortString

/-- A short string alone is read as one string and nothing else where its line breaks are single characters that stand
directly behind a backslash. A line break of two characters, or one among the blanks that `\z` skips, leaves the
string open. -/
theorem tokenize_shortString {text : String} (short : ShortString text.toList) :
    tokenize text =
      if ShortString.escapesBreaks text.toList then
        .ok ⟨[⟨.string text, .start⟩], [], Position.start.after text.toList⟩
      else .error ⟨.unfinishedString, .start⟩ := by
  obtain ⟨quote, body, isQuote, whole, valid⟩ := short
  have plain : interpreterLine (quote :: body) = [] := by
    rcases isQuote with rfl | rfl <;> simp [interpreterLine]
  have raw : textOf quote body body.length = text := by
    rw [textOf, List.take_length, ← whole, String.ofList_toList]
  have cut : tokenize text = Lexed.ofText .start (quote :: body) := by simp [tokenize, whole, plain]
  rw [cut, whole, valid.escapesBreaks_behind isQuote, Lexed.ofText, read_quotation isQuote, readQuoted,
    valid.quotedLength isQuote]
  cases ShortString.escapesBreaks body with
  | true => simp [raw, Lexed.ofText, Lexed.cons]
  | false => simp

/-- An escape of three digits, a span without a line break, a line break of one character and the other quote. -/
theorem tokenize_shortString_escapes :
    let text := "'\\065\\z \\\n\"'"
    ShortString text.toList ∧ tokenize text = .ok ⟨[⟨.string text, .start⟩], [], ⟨2, 2⟩⟩ := by
  intro text
  have chars : text.toList =
      '\'' :: '\\' :: (['0', '6', '5'] ++ '\\' :: ('z' :: [' '] ++ '\\' :: (['\n'] ++ ['"', '\'']))) := by
    decide +kernel
  have blank : ∀ character ∈ [' '], isBlank character = true := by simp [isBlank]
  have short : ShortString text.toList :=
    ⟨'\'', _, .inr rfl, chars, .escape (.decimal (by decide) (by decide) (by decide) (.inl rfl))
      (.escape (.span blank) (.escape (.lineBreak (by decide))
        (.plain (by decide) (by decide) (by decide) .close)))⟩
  have escaped : ShortString.escapesBreaks text.toList = true := by decide +kernel
  have finish : Position.start.after text.toList = ⟨2, 2⟩ := by decide +kernel
  rw [← finish]
  exact ⟨short, (tokenize_shortString short).trans (if_pos escaped)⟩

/-- A line break of two characters is not read as one, and the string is lost with it. -/
theorem shortString_continued_unread :
    ShortString "\"a\\\r\nb\"".toList ∧ ¬∃ lexed, tokenize "\"a\\\r\nb\"" = .ok lexed := by
  have chars : "\"a\\\r\nb\"".toList = '"' :: 'a' :: '\\' :: (['\r', '\n'] ++ ['b', '"']) := by decide +kernel
  have failed : (tokenize "\"a\\\r\nb\"").toBool = false := by decide +kernel
  refine ⟨⟨'"', _, .inl rfl, chars, .plain (by decide) (by decide) (by decide) (.escape (.lineBreak (by decide))
    (.plain (by decide) (by decide) (by decide) .close))⟩, ?_⟩
  rintro ⟨lexed, found⟩
  rw [found] at failed
  cases failed

end LuaMinifier
