import LuaMinifier.Proofs.Numeral

/-!
How tokens are written, and that a token is read back from its own text wherever the character behind it does not
become part of it.
-/

namespace LuaMinifier

open Lexeme

namespace Token.Kind

def chars : Kind → List Char
  | .number raw | .string raw | .name raw => raw.toList
  | .keyword reserved => reserved.text.toList
  | .symbol sign => sign.text.toList
  | .eof => []

/-- Whether a token stays itself when a character stands directly behind it. -/
def separate : Kind → Char → Bool
  | .number _, next => !continuesName next && next ≠ '.'
  | .string _, _ => true
  | .name _, next | .keyword _, next => !continuesName next
  | .symbol .minus, next => next ≠ '-'
  | .symbol .slash, next => next ≠ '/'
  | .symbol .tilde, next | .symbol .assign, next => next ≠ '='
  | .symbol .lt, next => next ≠ '=' && next ≠ '<'
  | .symbol .gt, next => next ≠ '=' && next ≠ '>'
  | .symbol .leftBracket, next => next ≠ '[' && next ≠ '='
  | .symbol .colon, next => next ≠ ':'
  | .symbol .dot, next => next ≠ '.' && !next.isDigit
  | .symbol .dotDot, next => next ≠ '.'
  | .symbol _, _ => true
  | .eof, _ => false

end Token.Kind

namespace Lexeme

/-- A letter or underscore, and any number of letters, digits and underscores behind it. -/
def isName : List Char → Bool
  | [] => false
  | first :: rest => startsName first && rest.all continuesName

end Lexeme

namespace Token.Kind

/-- What tokens of a text look like: numerals and names by their grammar, strings by being read as a whole whatever
stands behind them. -/
def Written : Kind → Prop
  | .number raw => isNumeral raw.toList = true
  | .string raw => ∃ first rest, raw.toList = first :: rest ∧ (first = '"' ∨ first = '\'' ∨ first = '[') ∧
      ∀ more, Lexeme.read first (rest ++ more) = .ok ⟨.token (.string raw), rest.length⟩
  | .name text => isName text.toList = true ∧ Keyword.ofText? text = none
  | .keyword _ | .symbol _ => True
  | .eof => False

end Token.Kind

theorem Symbol.read_text {sign : Symbol} {first : Char} {rest : List Char} (written : sign.text.toList = first :: rest)
    (more : List Char) (stop : ∀ next, more.head? = some next → Token.Kind.separate (.symbol sign) next = true) :
      Symbol.read first (rest ++ more) = some (sign, rest.length) := by
  cases sign
  case slash | tilde | assign | lt | gt | colon | dot | dotDot =>
    simp only [Symbol.text] at written
    simp at written
    obtain ⟨rfl, rfl⟩ := written
    cases more with
    | nil => rfl
    | cons next more =>
        have apart := stop next rfl
        simp [Token.Kind.separate] at apart
        simp [Symbol.read, apart]
  all_goals
    simp only [Symbol.text] at written
    simp at written
    obtain ⟨rfl, rfl⟩ := written
    rfl
theorem Keyword.text_isName (reserved : Keyword) :
    ∃ first rest, reserved.text.toList = first :: rest ∧ isName (first :: rest) = true := by
  cases reserved <;> exact ⟨_, _, rfl, by decide⟩

theorem Keyword.ofText?_text (reserved : Keyword) : Keyword.ofText? reserved.text = some reserved := by
  cases reserved <;> decide

namespace Lexeme

theorem isBlank_of_continuesName {character : Char} (name : continuesName character = true) :
    isBlank character = false := by
  rw [Bool.eq_false_iff]
  intro blank
  simp only [isBlank, Bool.or_eq_true, decide_eq_true_eq] at blank
  rcases blank with ((((rfl | rfl) | rfl) | rfl) | rfl) | rfl <;> revert name <;> decide

theorem ne_of_continuesName {character : Char} (name : continuesName character = true) :
    character ≠ '-' ∧ character ≠ '"' ∧ character ≠ '\'' ∧ character ≠ '[' ∧ character ≠ '.' := by
  refine ⟨?_, ?_, ?_, ?_, ?_⟩ <;> (rintro rfl; revert name; decide)

theorem isDigit_of_startsName {character : Char} (start : startsName character = true) :
    character.isDigit = false := by
  rw [Bool.eq_false_iff]
  intro digit
  have below : character.val ≤ '9'.val := of_decide_eq_true ((Bool.and_eq_true ..).mp digit).2
  simp only [startsName, Bool.or_eq_true, decide_eq_true_eq] at start
  rcases start with alpha | rfl
  · have cases : character.isUpper = true ∨ character.isLower = true := (Bool.or_eq_true ..).mp alpha
    rcases cases with upper | lower
    · have above : 'A'.val ≤ character.val := (of_decide_eq_true upper).1
      exact absurd (UInt32.le_trans above below) (by decide)
    · have above : 'a'.val ≤ character.val := of_decide_eq_true ((Bool.and_eq_true ..).mp lower).1
      exact absurd (UInt32.le_trans above below) (by decide)
  · revert digit
    decide

theorem isName_ending {text : List Char} (name : isName text = true) : endsName text := by
  cases text with
  | nil => simp [isName] at name
  | cons first rest =>
      simp only [isName, Bool.and_eq_true] at name
      refine endsName_of_all (by simp) ?_ fun _ => id
      simp [continuesName_of_startsName name.1, name.2]

theorem countWhile_all {condition : Char → Bool} (text more : List Char) (all : text.all condition = true)
    (stop : ∀ next, more.head? = some next → condition next = false) :
    countWhile condition (text ++ more) = text.length := by
  have none : more.takeWhile condition = [] := by
    cases more with
    | nil => rfl
    | cons next rest => simp [stop next rfl]
  rw [List.all_eq_true] at all
  rw [countWhile, List.takeWhile_append_of_pos all, none, List.append_nil]

theorem textOf_append (first : Char) (rest more : List Char) :
    textOf first (rest ++ more) rest.length = String.ofList (first :: rest) := by
  simp [textOf]

theorem read_of_startsName {first : Char} (start : startsName first = true) (rest : List Char) :
    Lexeme.read first rest = .ok (readWord first rest) := by
  have name := continuesName_of_startsName start
  obtain ⟨minus, double, single, bracket, point⟩ := ne_of_continuesName name
  simp [Lexeme.read, isBlank_of_continuesName name, minus, double, single, bracket, point,
    isDigit_of_startsName start, start]

theorem read_word {first : Char} {rest : List Char} (name : isName (first :: rest) = true) (more : List Char)
    (stop : ∀ next, more.head? = some next → continuesName next = false) :
    Lexeme.read first (rest ++ more) =
      .ok ⟨.token (.ofWord (String.ofList (first :: rest))), rest.length⟩ := by
  simp only [isName, Bool.and_eq_true] at name
  rw [read_of_startsName name.1, readWord]
  simp only [countWhile_all rest more name.2 stop, textOf_append]

theorem isNumeralIn_head {isDigit isMark : Char → Bool} {first : Char} {rest : List Char}
    (numeral : isNumeralIn isDigit isMark (first :: rest) = true) :
    isDigit first = true ∨ first = '.' ∧ rest.head?.any isDigit = true := by
  by_cases digit : isDigit first = true
  · exact .inl digit
  · right
    simp only [isNumeralIn, List.dropWhile_cons, List.takeWhile_cons, digit, Bool.false_eq_true, ↓reduceIte,
      List.nil_append] at numeral
    split at numeral
    next behind same =>
      obtain ⟨rfl, rfl⟩ := List.cons.inj same
      refine ⟨rfl, ?_⟩
      cases rest with
      | nil => simp at numeral
      | cons next tail =>
          by_cases following : isDigit next = true
          · simpa using following
          · simp [following] at numeral
    next => simp at numeral

theorem numeralLength_succ (isDigit isMark : Char → Bool) (afterMark : Bool) (text : List Char) (count : Nat) :
    numeralLength isDigit isMark afterMark text (count + 1) =
      numeralLength isDigit isMark afterMark text count + 1 := by
  induction text generalizing afterMark count with
  | nil => rfl
  | cons character rest ih =>
      simp only [numeralLength, ih]
      split
      · rfl
      · split
        · rfl
        · split <;> rfl

theorem numeralTail_decimal (first : Char) (rest : List Char)
    (plain : ∀ letter digits, first = '0' → letter = 'x' ∨ letter = 'X' → rest ≠ letter :: digits) :
    numeralTail first rest =
      numeralLength Char.isDigit (fun mark => mark = 'e' || mark = 'E') false rest 0 := by
  unfold numeralTail
  split
  · exact absurd rfl (plain 'x' _ rfl (.inl rfl))
  · exact absurd rfl (plain 'X' _ rfl (.inr rfl))
  · rfl

theorem signsApart_decimal : signsApart Char.isDigit fun mark => mark = 'e' || mark = 'E' := by
  refine ⟨by decide, ?_⟩
  rintro sign (rfl | rfl) <;> decide

theorem signsApart_hexadecimal : signsApart isHexDigit fun mark => mark = 'p' || mark = 'P' := by
  refine ⟨by decide, ?_⟩
  rintro sign (rfl | rfl) <;> decide

theorem numeralTail_numeral {first : Char} {rest : List Char} (numeral : isNumeral (first :: rest) = true)
    (more : List Char) (stop : ∀ next, more.head? = some next → continuesName next = false ∧ next ≠ '.') :
    numeralTail first (rest ++ more) = rest.length := by
  unfold isNumeral at numeral
  split at numeral
  next digits same =>
    obtain ⟨rfl, rfl⟩ := List.cons.inj same
    have length := numeralLength_numeral hexadecimalAlphabet digits more numeral signsApart_hexadecimal stop 0
    simp only [List.cons_append, numeralTail, length, List.length_cons]
    omega
  next digits same =>
    obtain ⟨rfl, rfl⟩ := List.cons.inj same
    have length := numeralLength_numeral hexadecimalAlphabet digits more numeral signsApart_hexadecimal stop 0
    simp only [List.cons_append, numeralTail, length, List.length_cons]
    omega
  next lower upper =>
    have length := numeralLength_numeral decimalAlphabet (first :: rest) more numeral signsApart_decimal stop 0
    have unmarked : (decide (first = 'e') || decide (first = 'E')) = false := by
      rcases isNumeralIn_head numeral with digit | ⟨rfl, _⟩
      · exact decimalAlphabet.apart first digit
      · decide
    have counted : (first.isDigit || decide (first = '.')) = true := by
      rcases isNumeralIn_head numeral with digit | ⟨rfl, _⟩
      · simp [digit]
      · decide
    rw [List.cons_append, numeralLength, unmarked, counted] at length
    simp only [Bool.false_eq_true, ↓reduceIte, numeralLength_succ, List.length_cons] at length
    have decimal := numeralTail_decimal first (rest ++ more) (by
      intro letter digits zero hexadecimal same
      subst zero
      cases rest with
      | nil =>
          refine absurd (stop letter (by simpa using congrArg List.head? same)).1 ?_
          rcases hexadecimal with rfl | rfl <;> decide
      | cons next tail =>
          obtain ⟨rfl, _⟩ := List.cons.inj same
          rcases hexadecimal with rfl | rfl
          · exact lower tail rfl
          · exact upper tail rfl)
    rw [decimal]
    omega

theorem isNumeral_head {first : Char} {rest : List Char} (numeral : isNumeral (first :: rest) = true) :
    first.isDigit = true ∨ first = '.' ∧ rest.head?.any Char.isDigit = true := by
  unfold isNumeral at numeral
  split at numeral
  next digits same =>
    obtain ⟨rfl, _⟩ := List.cons.inj same
    exact .inl (by decide)
  next digits same =>
    obtain ⟨rfl, _⟩ := List.cons.inj same
    exact .inl (by decide)
  next => exact isNumeralIn_head numeral

/-- A digit starts a number, and so does a point before a digit. -/
def startsNumber (first : Char) (rest : List Char) : Bool :=
  first.isDigit || first = '.' && rest.head?.any Char.isDigit

theorem read_startsNumber {first : Char} {rest : List Char} (starts : startsNumber first rest = true) :
    Lexeme.read first rest = readNumeral first rest := by
  by_cases digit : first.isDigit = true
  · have name := continuesName_of_isDigit digit
    obtain ⟨minus, double, single, bracket, _⟩ := ne_of_continuesName name
    simp [Lexeme.read, isBlank_of_continuesName name, minus, double, single, bracket, digit]
  · simp only [startsNumber, digit, Bool.false_or, Bool.and_eq_true, decide_eq_true_eq] at starts
    obtain ⟨rfl, next⟩ := starts
    simp only [Lexeme.read, next]
    simp [isBlank]

theorem read_numeral {first : Char} {rest : List Char} (numeral : isNumeral (first :: rest) = true)
    (more : List Char) (stop : ∀ next, more.head? = some next → continuesName next = false ∧ next ≠ '.') :
    Lexeme.read first (rest ++ more) =
      .ok ⟨.token (.number (String.ofList (first :: rest))), rest.length⟩ := by
  have reader : Lexeme.read first (rest ++ more) = readNumeral first (rest ++ more) := by
    apply read_startsNumber
    rcases isNumeral_head numeral with digit | ⟨rfl, following⟩
    · simp [startsNumber, digit]
    · cases rest with
      | nil => simp at following
      | cons next tail => simpa [startsNumber] using following
  have ended : (more.head?.any continuesName) = false := by
    cases more with
    | nil => rfl
    | cons next tail => simpa using (stop next rfl).1
  simp [reader, readNumeral, numeralTail_numeral numeral more stop, ended, textOf_append]

theorem read_symbol {sign : Symbol} {first : Char} {rest : List Char} (written : sign.text.toList = first :: rest)
    (more : List Char) (stop : ∀ next, more.head? = some next → Token.Kind.separate (.symbol sign) next = true) :
    Lexeme.read first (rest ++ more) = .ok ⟨.token (.symbol sign), rest.length⟩ := by
  have read := Symbol.read_text written more stop
  have symbol : Lexeme.read first (rest ++ more) = readSymbol first (rest ++ more) := by
    cases sign
    case minus =>
      simp [Symbol.text] at written
      obtain ⟨rfl, rfl⟩ := written
      have apart : more.head? ≠ some '-' := fun same => absurd (stop '-' same) (by decide)
      simp [Lexeme.read, isBlank, apart]
      exact fun start => absurd start (by decide)
    case dot =>
      simp [Symbol.text] at written
      obtain ⟨rfl, rfl⟩ := written
      have apart : more.head?.any Char.isDigit = false := by
        cases more with
        | nil => rfl
        | cons next rest => 
          have apart := stop next rfl
          simp [Token.Kind.separate] at apart
          simpa using apart.2
      simp [Lexeme.read, isBlank, apart]
      exact fun start => absurd start (by decide)
    case leftBracket =>
      simp [Symbol.text] at written
      obtain ⟨rfl, rfl⟩ := written
      have closed : openingLevel more = none := by
        cases more with
        | nil => rfl
        | cons next rest => 
          have apart := stop next rfl
          simp [Token.Kind.separate] at apart
          simp [openingLevel, countWhile, apart]
      simp [Lexeme.read, isBlank, readBracket, closed]
    all_goals
      simp [Symbol.text] at written
      obtain ⟨rfl, rfl⟩ := written
      rfl
  rw [symbol, readSymbol, read]
theorem quotedLength_cons {quote character : Char} (unescaped : character ≠ '\\') (rest : List Char) (count : Nat) :
    quotedLength quote (character :: rest) count =
      if character = quote then some (count + 1)
      else if character = '\\' || character = '\n' || character = '\r' then none
      else quotedLength quote rest (count + 1) := by
  rw [quotedLength]
  intro _ _ same
  exact absurd same unescaped

theorem quotedLength_local {quote : Char} (bare : quote ≠ '\\') {text : List Char} {count total : Nat}
    (closed : quotedLength quote text count = some total) :
    ∃ body rest, text = body ++ rest ∧ total = count + body.length ∧
      ∀ more start, quotedLength quote (body ++ more) start = some (start + body.length) := by
  fun_induction quotedLength quote text count with
  | case1 => simp at closed
  | case2 escaped rest count ih =>
      obtain ⟨body, behind, rfl, rfl, again⟩ := ih closed
      refine ⟨'\\' :: escaped :: body, behind, rfl, by simp; omega, fun more start => ?_⟩
      simp only [List.cons_append, quotedLength, again, List.length_cons]
      congr 1
      omega
  | case3 rest count plain =>
      refine ⟨[quote], _, rfl, by simpa using closed.symm, fun more start => ?_⟩
      simp [quotedLength_cons bare]
  | case4 => simp at closed
  | case5 count character rest _ other ordinary ih =>
      obtain ⟨body, behind, rfl, rfl, again⟩ := ih closed
      refine ⟨_ :: body, behind, rfl, by simp; omega, fun more start => ?_⟩
      simp only [Bool.or_eq_true, decide_eq_true_eq, not_or] at ordinary
      simp [quotedLength_cons ordinary.1.1, other, ordinary, again]
      omega

theorem countWhile_replicate (level : Nat) (sign : Char) (other : sign ≠ '=') (rest : List Char) :
    countWhile (· = '=') (List.replicate level '=' ++ sign :: rest) = level := by
  have run : countWhile (· = '=') (List.replicate level '=' ++ sign :: rest) = (List.replicate level '=').length :=
    countWhile_all _ _ (by simp) (by simpa using other)
  rw [run, List.length_replicate]

theorem replicate_of_countWhile (text : List Char) :
    text.take (countWhile (· = '=') text) = List.replicate (countWhile (· = '=') text) '=' := by
  induction text with
  | nil => rfl
  | cons character rest ih =>
      by_cases same : character = '='
      · simpa [countWhile, same, List.replicate_succ] using ih
      · simp [countWhile, same]

/-- A run of `=` up to another sign, as both kinds of long brackets have it. -/
theorem bracketRun (level : Nat) (sign : Char) (other : sign ≠ '=') (text : List Char) :
    (countWhile (· = '=') text = level ∧ (text.drop level).head? = some sign) ↔
      ∃ inner, text = List.replicate level '=' ++ sign :: inner := by
  constructor
  · rintro ⟨rfl, head⟩
    obtain ⟨inner, split⟩ := List.head?_eq_some_iff.mp head
    refine ⟨inner, ?_⟩
    rw [← replicate_of_countWhile, ← split, List.take_append_drop]
  · rintro ⟨inner, rfl⟩
    exact ⟨countWhile_replicate level sign other inner, by simp⟩

theorem openingLevel_eq_some (text : List Char) (level : Nat) :
    openingLevel text = some level ↔ ∃ inner, text = List.replicate level '=' ++ '[' :: inner := by
  rw [← bracketRun level '[' (by decide), openingLevel]
  split
  next opened =>
    constructor
    · rintro ⟨⟩
      exact ⟨rfl, opened⟩
    · rintro ⟨rfl, _⟩
      rfl
  next closed =>
    simp only [reduceCtorEq, false_iff]
    rintro ⟨rfl, opened⟩
    exact closed opened

theorem closesLevel_iff (level : Nat) (text : List Char) :
    closesLevel level text = true ↔ ∃ inner, text = List.replicate level '=' ++ ']' :: inner := by
  rw [← bracketRun level ']' (by decide), closesLevel, Bool.and_eq_true, decide_eq_true_eq, decide_eq_true_eq]

theorem closesLevel_before (level : Nat) (body more further : List Char) :
    closesLevel level (body ++ ']' :: more) = closesLevel level (body ++ ']' :: further) := by
  rw [Bool.eq_iff_iff, closesLevel_iff, closesLevel_iff]
  induction body generalizing level with
  | nil => cases level <;> simp [List.replicate_succ]
  | cons character rest ih =>
      cases level with
      | zero => simp
      | succ level => simp [List.replicate_succ, ih level]

theorem longBodyLength_local {level : Nat} {text : List Char} {count total : Nat}
    (closed : longBodyLength level text count = some total) :
    ∃ body rest, text = body ++ ']' :: (List.replicate level '=' ++ ']' :: rest) ∧ total = count + body.length ∧
      ∀ more start, longBodyLength level (body ++ ']' :: (List.replicate level '=' ++ ']' :: more)) start =
        some (start + body.length) := by
  fun_induction longBodyLength level text count with
  | case1 => simp at closed
  | case2 count character rest closes =>
      simp only [Bool.and_eq_true, decide_eq_true_eq] at closes
      obtain ⟨rfl, closing⟩ := closes
      obtain ⟨behind, rfl⟩ := (closesLevel_iff level _).mp closing
      refine ⟨[], behind, rfl, by simpa using closed.symm, fun more start => ?_⟩
      have closes := (closesLevel_iff level _).mpr ⟨more, rfl⟩
      simp [longBodyLength, closes]
  | case3 count character rest stays ih =>
      obtain ⟨body, behind, rfl, rfl, again⟩ := ih closed
      refine ⟨_ :: body, behind, rfl, by simp; omega, fun more start => ?_⟩
      rw [closesLevel_before level body _ (List.replicate level '=' ++ ']' :: more)] at stays
      simp only [List.cons_append, longBodyLength, stays, again, List.length_cons]
      simp
      omega

theorem readComment_ne_token (body : List Char) (kind : Token.Kind) (tail : Nat) :
    readComment body ≠ .ok ⟨.token kind, tail⟩ := by
  unfold readComment readComment.readLine
  split
  next =>
    split
    next =>
      dsimp only
      split <;> simp
    next => simp
  next => simp

theorem written_word {first : Char} (start : startsName first = true) (rest : List Char) :
    (Token.Kind.ofWord (textOf first rest (countWhile continuesName rest))).Written := by
  unfold Token.Kind.ofWord
  split
  next => trivial
  next free =>
    refine ⟨?_, free⟩
    have taken : rest.take (countWhile continuesName rest) = rest.takeWhile continuesName :=
      (List.prefix_iff_eq_take.mp (List.takeWhile_prefix continuesName)).symm
    simp [textOf, taken, isName, start]

theorem read_quotation {quote : Char} (isQuote : quote = '"' ∨ quote = '\'') (rest : List Char) :
    Lexeme.read quote rest = readQuoted quote rest := by
  rcases isQuote with rfl | rfl <;> simp [Lexeme.read, isBlank]

theorem written_quoted {quote : Char} (isQuote : quote = '"' ∨ quote = '\'') {rest : List Char} {tail : Nat}
    (closed : quotedLength quote rest 0 = some tail) :
    Token.Kind.Written (.string (textOf quote rest tail)) := by
  have bare : quote ≠ '\\' := by rcases isQuote with rfl | rfl <;> decide
  obtain ⟨body, behind, rfl, rfl, again⟩ := quotedLength_local bare closed
  refine ⟨quote, body, by simp [textOf], isQuote.imp_right .inl, fun more => ?_⟩
  simp [read_quotation isQuote, readQuoted, again, textOf]

/-- A long bracket, from its first `=` or its second `[` up to its end, is read alike whatever stands behind it. -/
theorem longBracket_local {inner : List Char} {level length : Nat}
    (closed : longBodyLength level inner 0 = some length) :
    ∃ whole behind, List.replicate level '=' ++ '[' :: inner = whole ++ behind ∧
      whole.length + 1 = length + 2 * (level + 2) ∧ ∀ more, openingLevel (whole ++ more) = some level ∧
        longBodyLength level ((whole ++ more).drop (level + 1)) 0 = some length := by
  obtain ⟨body, behind, rfl, rfl, again⟩ := longBodyLength_local closed
  let whole := List.replicate level '=' ++ '[' :: (body ++ ']' :: (List.replicate level '=' ++ [']']))
  have split (more : List Char) : whole ++ more =
      List.replicate level '=' ++ '[' :: (body ++ ']' :: (List.replicate level '=' ++ ']' :: more)) := by
    simp [whole]
  refine ⟨whole, behind, (split behind).symm, ?_, fun more => ⟨(openingLevel_eq_some _ _).mpr ⟨_, split more⟩, ?_⟩⟩
  · simp only [whole, List.length_append, List.length_replicate, List.length_cons, List.length_nil]
    omega
  · have inner : (whole ++ more).drop (level + 1) =
        body ++ ']' :: (List.replicate level '=' ++ ']' :: more) := by
      rw [split]
      simp [List.drop_append]
    rw [inner, again]

theorem written_bracketed {inner : List Char} {level length : Nat}
    (closed : longBodyLength level inner 0 = some length) :
    Token.Kind.Written
      (.string (textOf '[' (List.replicate level '=' ++ '[' :: inner) (length + 2 * (level + 2) - 1))) := by
  obtain ⟨whole, behind, same, count, again⟩ := longBracket_local closed
  rw [same, ← count, Nat.add_sub_cancel, textOf_append]
  refine ⟨'[', whole, by simp, .inr (.inr rfl), fun more => ?_⟩
  have bracket : Lexeme.read '[' (whole ++ more) = readBracket (whole ++ more) := by
    simp [Lexeme.read, isBlank]
  rw [bracket, readBracket, (again more).1]
  simp only [(again more).2, ← count, Nat.add_sub_cancel, textOf_append]

theorem written_of_read {first : Char} {rest : List Char} {kind : Token.Kind} {tail : Nat}
    (read : Lexeme.read first rest = .ok ⟨.token kind, tail⟩)
    (numerals : ∀ raw, kind = .number raw → isNumeral raw.toList = true) : kind.Written := by
  have symbols (read : readSymbol first rest = .ok ⟨.token kind, tail⟩) : kind.Written := by
    unfold readSymbol at read
    split at read <;> simp at read
    simp [← read.1, Token.Kind.Written]
  unfold Lexeme.read at read
  split at read
  next => simp at read
  split at read
  next => exact absurd read (readComment_ne_token rest.tail kind tail)
  split at read
  next isQuote =>
    unfold readQuoted at read
    split at read <;> simp at read
    next total closed =>
      rw [← read.1]
      exact written_quoted (by simpa using isQuote) closed
  split at read
  next isBracket =>
    subst isBracket
    unfold readBracket at read
    split at read
    next level opened =>
      obtain ⟨inner, rfl⟩ := (openingLevel_eq_some _ _).mp opened
      split at read <;> simp at read
      next total closed =>
        rw [← read.1]
        exact written_bracketed (by simpa [List.drop_append] using closed)
    next => exact symbols read
  split at read
  next =>
    simp only [readNumeral] at read
    split at read <;> simp at read
    rw [← read.1] at numerals ⊢
    exact numerals _ rfl
  split at read
  next start =>
    simp only [readWord, Except.ok.injEq, Lexeme.mk.injEq, Kind.token.injEq] at read
    rw [← read.1]
    exact written_word start _
  next => exact symbols read

theorem read_written {kind : Token.Kind} (written : kind.Written) :
    ∃ first rest, kind.chars = first :: rest ∧ ∀ more,
      (∀ next, more.head? = some next → kind.separate next = true) →
      Lexeme.read first (rest ++ more) = .ok ⟨.token kind, rest.length⟩ := by
  cases kind with
  | number raw =>
      simp only [Token.Kind.Written] at written
      cases text : raw.toList with
      | nil => simp [text, isNumeral, isNumeralIn] at written
      | cons first rest =>
          refine ⟨first, rest, text, fun more stop => ?_⟩
          rw [text] at written
          rw [read_numeral written more (by simpa [Token.Kind.separate] using stop), ← text, String.ofList_toList]
  | string raw =>
      obtain ⟨first, rest, text, _, read⟩ := written
      exact ⟨first, rest, text, fun more _ => read more⟩
  | name word =>
      obtain ⟨name, free⟩ := written
      cases text : word.toList with
      | nil => simp [text, isName] at name
      | cons first rest =>
          refine ⟨first, rest, text, fun more stop => ?_⟩
          rw [text] at name
          rw [read_word name more (by simpa [Token.Kind.separate] using stop), ← text, String.ofList_toList]
          simp [Token.Kind.ofWord, free]
  | keyword reserved =>
      obtain ⟨first, rest, text, name⟩ := Keyword.text_isName reserved
      refine ⟨first, rest, text, fun more stop => ?_⟩
      rw [read_word name more (by simpa [Token.Kind.separate] using stop), ← text, String.ofList_toList]
      simp [Token.Kind.ofWord, Keyword.ofText?_text]
  | symbol sign =>
      cases text : sign.text.toList with
      | nil => cases sign <;> simp [Symbol.text] at text
      | cons first rest => exact ⟨first, rest, text, read_symbol text⟩
  | eof => exact written.elim

end Lexeme

theorem Lexed.forall_of_ofText {valid : Token.Kind → Prop}
    (each : ∀ {first rest kind tail}, Lexeme.read first rest = .ok ⟨.token kind, tail⟩ → valid kind)
    {position : Position} {text : List Char} {lexed : Lexed} (read : Lexed.ofText position text = .ok lexed) :
    ∀ token ∈ lexed.tokens, valid token.kind := by
  fun_induction Lexed.ofText position text generalizing lexed with
  | case1 =>
      cases read
      simp
  | case2 => simp at read
  | case3 => simp at read
  | case4 position first rest lexeme found behind cut ih =>
      cases read
      have later := ih cut
      obtain ⟨kind, tail⟩ := lexeme
      cases kind with
      | blank => exact later
      | comment raw value => exact later
      | token kind => exact List.forall_mem_cons.mpr ⟨each found, later⟩

theorem Lexed.written_of_ofText {position : Position} {text : List Char} {lexed : Lexed}
    (read : Lexed.ofText position text = .ok lexed)
    (numerals : ∀ token ∈ lexed.tokens, ∀ raw, token.kind = .number raw → isNumeral raw.toList = true) :
    ∀ token ∈ lexed.tokens, token.kind.Written := by
  fun_induction Lexed.ofText position text generalizing lexed with
  | case1 =>
      cases read
      simp
  | case2 => simp at read
  | case3 => simp at read
  | case4 position first rest lexeme found behind cut ih =>
      cases read
      cases lexeme with
      | mk kind tail =>
          cases kind with
          | blank => exact ih cut numerals
          | comment raw value =>
              simp only [Lexed.cons] at numerals ⊢
              exact ih cut numerals
          | token kind =>
              simp only [Lexed.cons, List.forall_mem_cons] at numerals ⊢
              exact ⟨Lexeme.written_of_read found numerals.1, ih cut numerals.2⟩

end LuaMinifier
