import LuaMinifier.Proofs.TokenText

/-!
Which texts are read as one number. Digits, points and exponent marks are taken in any order, so that there are more
such texts than numerals of Lua 5.3. Main statement: exactly these texts are read as numbers, and a number is a numeral
exactly if it has a digit and at most one point before its first mark, and a decimal exponent behind it.
-/

namespace LuaMinifier

open Lexeme

namespace Lexeme

/-- Whether a number goes on with a character: a digit, a mark or a point, or a sign directly behind a mark. -/
def prolongs (isDigit isMark : Char → Bool) (before character : Char) : Bool :=
  isDigit character || isMark character || character = '.' || isMark before && (character = '+' || character = '-')

def prolongsAll (isDigit isMark : Char → Bool) : Char → List Char → Bool
  | _, [] => true
  | before, character :: rest => prolongs isDigit isMark before character && prolongsAll isDigit isMark character rest

def isDecimalMark (mark : Char) : Bool := mark = 'e' || mark = 'E'

def isHexMark (mark : Char) : Bool := mark = 'p' || mark = 'P'

/-- The texts that are read as one number. -/
def isNumber : List Char → Bool
  | '0' :: 'x' :: rest | '0' :: 'X' :: rest => prolongsAll isHexDigit isHexMark 'x' rest
  | first :: rest => startsNumber first rest && prolongsAll Char.isDigit isDecimalMark first rest
  | [] => false

/-- Whether the characters behind the first mark of a number are decimal digits, apart from signs. -/
def isRegularExponent : List Char → Bool
  | [] => true
  | _ :: rest =>
    rest.any Char.isDigit && rest.all fun character => character.isDigit || character = '+' || character = '-'

/-- Whether a number has a digit and at most one point before its first mark, and a regular exponent. -/
def isRegularIn (isDigit isMark : Char → Bool) (text : List Char) : Bool :=
  let mantissa := text.takeWhile (!isMark ·)
  mantissa.any isDigit && mantissa.count '.' ≤ 1 && isRegularExponent (text.dropWhile (!isMark ·))

def isRegular : List Char → Bool
  | '0' :: 'x' :: digits | '0' :: 'X' :: digits => isRegularIn isHexDigit isHexMark digits
  | text => isRegularIn Char.isDigit isDecimalMark text

section Reading

variable {isDigit isMark : Char → Bool}

theorem prolongsAll_cons (before character : Char) (rest : List Char) :
    prolongsAll isDigit isMark before (character :: rest) =
      (prolongs isDigit isMark before character && prolongsAll isDigit isMark character rest) := rfl

/-- One step of reading a number: the flag says whether the character before is a mark. -/
theorem numeralLength_cons (before character : Char) (rest : List Char) :
    numeralLength isDigit isMark (isMark before) (character :: rest) 0 =
      if prolongs isDigit isMark before character then
        numeralLength isDigit isMark (isMark character) rest 0 + 1
      else 0 := by
  rw [numeralLength, ← numeralLength_succ]
  cases mark : isMark character with
  | true => simp [prolongs, mark]
  | false =>
      cases digit : isDigit character || decide (character = '.') with
      | true =>
          have goesOn : prolongs isDigit isMark before character = true := by
            simp only [Bool.or_eq_true] at digit
            rcases digit with digit | point
            · simp [prolongs, digit]
            · simp [prolongs, point]
          simp [goesOn]
      | false =>
          simp only [Bool.or_eq_false_iff] at digit
          simp [prolongs, mark, digit]

theorem prolongsAll_take (isDigit isMark : Char → Bool) (before : Char) (text : List Char) :
    prolongsAll isDigit isMark before (text.take (numeralLength isDigit isMark (isMark before) text 0)) = true := by
  induction text generalizing before with
  | nil => rfl
  | cons character rest ih =>
      rw [numeralLength_cons]
      split
      next goesOn => simp [prolongsAll_cons, goesOn, ih]
      next => rfl

theorem numeralLength_of_prolongsAll {before : Char} {text : List Char}
    (all : prolongsAll isDigit isMark before text = true) :
    numeralLength isDigit isMark (isMark before) text 0 = text.length := by
  induction text generalizing before with
  | nil => rfl
  | cons character rest ih =>
      rw [prolongsAll_cons, Bool.and_eq_true] at all
      rw [numeralLength_cons, if_pos all.1, ih all.2, List.length_cons]

end Reading

section Numerals

variable {isDigit isMark : Char → Bool}

theorem takeWhile_append_stop {condition : Char → Bool} (text : List Char) {more : List Char}
    (stop : ∀ next, more.head? = some next → condition next = false) :
    (text ++ more).takeWhile condition = text.takeWhile condition ∧
      (text ++ more).dropWhile condition = text.dropWhile condition ++ more := by
  induction text with
  | nil =>
      cases more with
      | nil => exact ⟨rfl, rfl⟩
      | cons next rest => simp [stop next rfl]
  | cons character rest ih =>
      simp only [List.cons_append, List.takeWhile_cons, List.dropWhile_cons]
      split
      · exact ⟨by rw [ih.1], ih.2⟩
      · exact ⟨rfl, rfl⟩

theorem mantissa_of_prolongsAll {before : Char} {text : List Char} (unmarked : isMark before = false)
    (all : prolongsAll isDigit isMark before text = true) :
    ∀ character ∈ text.takeWhile (!isMark ·), isDigit character = true ∨ character = '.' := by
  induction text generalizing before with
  | nil => simp
  | cons character rest ih =>
      rw [prolongsAll_cons, Bool.and_eq_true] at all
      cases mark : isMark character with
      | true => simp [mark]
      | false =>
          have first : isDigit character = true ∨ character = '.' := by
            simpa [prolongs, mark, unmarked] using all.1
          simp only [List.takeWhile_cons, mark, Bool.not_false, ↓reduceIte, List.forall_mem_cons]
          exact ⟨first, ih mark all.2⟩

theorem exponent_of_prolongsAll {before : Char} {text : List Char}
    (all : prolongsAll isDigit isMark before text = true) :
    text.dropWhile (!isMark ·) = [] ∨ ∃ mark rest, text.dropWhile (!isMark ·) = mark :: rest ∧ isMark mark = true ∧
      prolongsAll isDigit isMark mark rest = true := by
  induction text generalizing before with
  | nil => exact .inl rfl
  | cons character rest ih =>
      rw [prolongsAll_cons, Bool.and_eq_true] at all
      cases mark : isMark character with
      | true => exact .inr ⟨character, rest, by simp [mark], mark, all.2⟩
      | false => simpa [mark] using ih all.2

theorem dropWhile_plain {text : List Char} (plain : ∀ character ∈ text, isDigit character = true ∨ character = '.') :
    text.dropWhile isDigit = [] ∨ ∃ rest, text.dropWhile isDigit = '.' :: rest := by
  induction text with
  | nil => exact .inl rfl
  | cons character rest ih =>
      rw [List.forall_mem_cons] at plain
      cases digit : isDigit character with
      | true => simpa [digit] using ih plain.2
      | false => exact .inr ⟨rest, by simpa [digit] using plain.1⟩

theorem any_digits {text : List Char} (digits : text.all isDigit = true) : text.any isDigit = !text.isEmpty := by
  cases text with
  | nil => rfl
  | cons first rest =>
      rw [List.all_cons, Bool.and_eq_true] at digits
      simp [digits.1]

theorem isDigits_eq (text : List Char) : isDigits text = (text.any Char.isDigit && text.all Char.isDigit) := by
  cases digits : text.all Char.isDigit with
  | true => simp [isDigits, digits, any_digits digits]
  | false => simp [isDigits, digits]

variable (alphabet : NumeralAlphabet isDigit isMark)
include alphabet

theorem isDigit_point : isDigit '.' = false := by
  rw [Bool.eq_false_iff]
  exact fun digit => absurd (alphabet.digit '.' digit) (by decide)

theorem count_point {text : List Char} (digits : text.all isDigit = true) : text.count '.' = 0 := by
  rw [List.count_eq_zero]
  intro member
  rw [List.all_eq_true] at digits
  exact absurd (digits '.' member) (by simp [isDigit_point alphabet])

/-- Digits and points before an exponent are a numeral if there is a digit and at most one point among them. -/
theorem isNumeralIn_append {mantissa exponent : List Char}
    (plain : ∀ character ∈ mantissa, isDigit character = true ∨ character = '.')
    (marked : ∀ next, exponent.head? = some next → isMark next = true) (point : isMark '.' = false) :
    isNumeralIn isDigit isMark (mantissa ++ exponent) =
      (mantissa.any isDigit && mantissa.count '.' ≤ 1 && isExponent isMark exponent) := by
  have stop : ∀ next, exponent.head? = some next → isDigit next = false := by
    intro next head
    rw [Bool.eq_false_iff]
    intro digit
    have unmarked := alphabet.apart next digit
    rw [marked next head] at unmarked
    cases unmarked
  have noPoint (rest : List Char) : exponent ≠ '.' :: rest := by
    rintro rfl
    have mark := marked '.' rfl
    rw [point] at mark
    cases mark
  have whole := List.takeWhile_append_dropWhile (p := isDigit) (l := mantissa)
  have digits : (mantissa.takeWhile isDigit).all isDigit = true := List.all_takeWhile
  obtain ⟨front, back⟩ := takeWhile_append_stop mantissa stop
  have spread : mantissa.any isDigit =
      (!(mantissa.takeWhile isDigit).isEmpty || (mantissa.dropWhile isDigit).any isDigit) := by
    conv => lhs; rw [← whole]
    rw [List.any_append, any_digits digits]
  have counted : mantissa.count '.' = (mantissa.dropWhile isDigit).count '.' := by
    conv => lhs; rw [← whole]
    rw [List.count_append, count_point alphabet digits, Nat.zero_add]
  unfold isNumeralIn
  rw [front, back, spread, counted]
  -- The mantissa has no point, one with digits behind it, or a second one at which the numeral would have to end.
  rcases dropWhile_plain plain with ended | ⟨rest, pointed⟩
  · rw [ended, List.nil_append]
    split
    next rest => exact absurd rfl (noPoint rest)
    next => simp
  · have later : ∀ character ∈ rest, isDigit character = true ∨ character = '.' := fun character member =>
      plain character ((List.dropWhile_sublist isDigit).subset (by rw [pointed]; exact List.mem_cons_of_mem _ member))
    obtain ⟨fraction, behind⟩ := takeWhile_append_stop rest stop
    simp only [pointed, List.cons_append, fraction, behind]
    rcases dropWhile_plain later with ended | ⟨more, second⟩
    · have whole := List.takeWhile_append_dropWhile (p := isDigit) (l := rest)
      have digits : (rest.takeWhile isDigit).all isDigit = true := List.all_takeWhile
      rw [ended, List.append_nil] at whole
      rw [whole] at digits
      simp only [ended, whole, any_digits digits, count_point alphabet digits, isDigit_point alphabet, List.any_cons,
        List.count_cons_self, List.nil_append, Bool.false_or, Nat.zero_add, Nat.le_refl, decide_true, Bool.and_true]
      cases mantissa.takeWhile isDigit <;> simp
    · have again : 1 ≤ rest.count '.' := List.one_le_count_iff.mpr
        ((List.dropWhile_sublist isDigit).subset (by rw [second]; exact List.mem_cons_self))
      have many : ¬(rest.count '.' + 1 ≤ 1) := by omega
      simp [second, isExponent, point, many]

theorem not_isMark_of_digit {character : Char} (digit : character.isDigit = true) : isMark character = false :=
  alphabet.apart character (alphabet.decimal character digit)

theorem all_digits_eq {before : Char} {text : List Char} (apart : signsApart isDigit isMark)
    (unmarked : isMark before = false) (all : prolongsAll isDigit isMark before text = true) :
    text.all Char.isDigit = text.all fun character => character.isDigit || character = '+' || character = '-' := by
  induction text generalizing before with
  | nil => rfl
  | cons character rest ih =>
      rw [prolongsAll_cons, Bool.and_eq_true] at all
      cases digit : character.isDigit with
      | true => simp [digit, ih (not_isMark_of_digit alphabet digit) all.2]
      | false =>
          have unsigned : ¬(character = '+' ∨ character = '-') := by
            intro sign
            have goesOn := all.1
            simp only [prolongs, apart.2 character sign, unmarked] at goesOn
            rcases sign with rfl | rfl <;> simp at goesOn
          rw [not_or] at unsigned
          simp [digit, unsigned]

theorem isExponent_eq_regular {mark : Char} {rest : List Char} (apart : signsApart isDigit isMark)
    (isMarked : isMark mark = true) (all : prolongsAll isDigit isMark mark rest = true) :
    isExponent isMark (mark :: rest) = isRegularExponent (mark :: rest) := by
  rw [isExponent, isRegularExponent, isMarked, Bool.true_and]
  fun_cases dropSign rest with
  | case1 digits =>
      rw [prolongsAll_cons, Bool.and_eq_true] at all
      rw [isDigits_eq, all_digits_eq alphabet apart (apart.2 '+' (.inl rfl)).1 all.2]
      simp [show '+'.isDigit = false by decide]
  | case2 digits =>
      rw [prolongsAll_cons, Bool.and_eq_true] at all
      rw [isDigits_eq, all_digits_eq alphabet apart (apart.2 '-' (.inr rfl)).1 all.2]
      simp [show '-'.isDigit = false by decide]
  | case3 _ noPlus noMinus =>
      cases rest with
      | nil => rfl
      | cons first digits =>
          rw [prolongsAll_cons, Bool.and_eq_true] at all
          have unsigned : first ≠ '+' ∧ first ≠ '-' :=
            ⟨fun same => noPlus digits (by rw [same]), fun same => noMinus digits (by rw [same])⟩
          cases digit : first.isDigit with
          | true =>
              have behind := all_digits_eq alphabet apart (not_isMark_of_digit alphabet digit) all.2
              simp [isDigits_eq, digit, behind]
          | false => simp [isDigits, digit, unsigned]

theorem isNumeralIn_eq_regular {before : Char} {text : List Char} (apart : signsApart isDigit isMark)
    (unmarked : isMark before = false) (all : prolongsAll isDigit isMark before text = true) :
    isNumeralIn isDigit isMark text = isRegularIn isDigit isMark text := by
  have plain := mantissa_of_prolongsAll unmarked all
  have whole := List.takeWhile_append_dropWhile (p := (!isMark ·)) (l := text)
  unfold isRegularIn
  conv => lhs; rw [← whole]
  rcases exponent_of_prolongsAll all with ended | ⟨mark, rest, marked, isMarked, behind⟩
  · rw [ended, isNumeralIn_append alphabet plain (by simp) apart.1]
    rfl
  · rw [marked, isNumeralIn_append alphabet plain (by simpa using isMarked) apart.1,
      isExponent_eq_regular alphabet apart isMarked behind]

end Numerals

section Texts

theorem hexadecimal_or_decimal (first : Char) (rest : List Char) :
    (first = '0' ∧ ∃ letter digits, (letter = 'x' ∨ letter = 'X') ∧ rest = letter :: digits) ∨
      ∀ letter digits, first = '0' → letter = 'x' ∨ letter = 'X' → rest ≠ letter :: digits := by
  by_cases zero : first = '0' ∧ ∃ letter digits, (letter = 'x' ∨ letter = 'X') ∧ rest = letter :: digits
  · exact .inl zero
  · exact .inr fun letter digits first isLetter same => zero ⟨first, letter, digits, isLetter, same⟩

theorem isNumber_decimal {first : Char} {rest : List Char}
    (plain : ∀ letter digits, first = '0' → letter = 'x' ∨ letter = 'X' → rest ≠ letter :: digits) :
    isNumber (first :: rest) =
      (startsNumber first rest && prolongsAll Char.isDigit isDecimalMark first rest) := by
  apply isNumber.eq_3
  · exact fun digits zero => plain 'x' digits zero (.inl rfl)
  · exact fun digits zero => plain 'X' digits zero (.inr rfl)

theorem isDecimalMark_of_startsNumber {first : Char} {rest : List Char} (starts : startsNumber first rest = true) :
    isDecimalMark first = false := by
  by_cases digit : first.isDigit = true
  · exact decimalAlphabet.apart first digit
  · have point : first = '.' := by
      simp only [startsNumber, digit, Bool.false_or, Bool.and_eq_true, decide_eq_true_eq] at starts
      exact starts.1
    rw [point]
    decide

theorem startsNumber_take {first : Char} {rest : List Char} (starts : startsNumber first rest = true) :
    startsNumber first (rest.take (numeralLength Char.isDigit isDecimalMark (isDecimalMark first) rest 0)) = true := by
  by_cases digit : first.isDigit = true
  · simp [startsNumber, digit]
  · simp only [startsNumber, digit, Bool.false_or, Bool.and_eq_true] at starts ⊢
    refine ⟨starts.1, ?_⟩
    cases rest with
    | nil => simp at starts
    | cons next more =>
        have following : next.isDigit = true := by simpa using starts.2
        have goesOn : prolongs Char.isDigit isDecimalMark first next = true := by simp [prolongs, following]
        simp [numeralLength_cons, goesOn, following]

theorem isNumber_take {first : Char} {rest : List Char} (starts : startsNumber first rest = true) :
    isNumber (first :: rest.take (numeralTail first rest)) = true := by
  rcases hexadecimal_or_decimal first rest with ⟨rfl, letter, digits, isLetter, rfl⟩ | plain
  · have taken := prolongsAll_take isHexDigit isHexMark 'x' digits
    have tail : (letter :: digits).take (numeralTail '0' (letter :: digits)) =
        letter :: digits.take (numeralLength isHexDigit isHexMark (isHexMark 'x') digits 0) := by
      rcases isLetter with rfl | rfl
      · exact congrArg (List.take · ('x' :: digits)) (Nat.add_comm 1 _)
      · exact congrArg (List.take · ('X' :: digits)) (Nat.add_comm 1 _)
    rw [tail]
    rcases isLetter with rfl | rfl
    · exact taken
    · exact taken
  · have tail : numeralTail first rest = numeralLength Char.isDigit isDecimalMark (isDecimalMark first) rest 0 := by
      rw [isDecimalMark_of_startsNumber starts]
      exact numeralTail_decimal first rest plain
    rw [tail, isNumber_decimal, startsNumber_take starts, prolongsAll_take]
    · rfl
    · rintro letter digits zero isLetter same
      obtain ⟨more, whole⟩ :=
        List.take_prefix (numeralLength Char.isDigit isDecimalMark (isDecimalMark first) rest 0) rest
      rw [same] at whole
      exact plain letter (digits ++ more) zero isLetter whole.symm

theorem numeralTail_number {first : Char} {rest : List Char} (number : isNumber (first :: rest) = true) :
    startsNumber first rest = true ∧ numeralTail first rest = rest.length := by
  rcases hexadecimal_or_decimal first rest with ⟨rfl, letter, digits, isLetter, rfl⟩ | plain
  · refine ⟨by simp [startsNumber], ?_⟩
    have all : prolongsAll isHexDigit isHexMark 'x' digits = true := by
      rcases isLetter with rfl | rfl
      · exact number
      · exact number
    have length := numeralLength_of_prolongsAll all
    rcases isLetter with rfl | rfl
    · exact (congrArg (1 + ·) length).trans (Nat.add_comm ..)
    · exact (congrArg (1 + ·) length).trans (Nat.add_comm ..)
  · rw [isNumber_decimal plain, Bool.and_eq_true] at number
    refine ⟨number.1, (numeralTail_decimal first rest plain).trans ?_⟩
    rw [← numeralLength_of_prolongsAll number.2, isDecimalMark_of_startsNumber number.1]
    rfl

theorem number_of_read {first : Char} {rest : List Char} {raw : String} {tail : Nat}
    (read : Lexeme.read first rest = .ok ⟨.token (.number raw), tail⟩) : isNumber raw.toList = true := by
  by_cases starts : startsNumber first rest = true
  · rw [read_startsNumber starts, readNumeral] at read
    split at read
    next => cases read
    next =>
      cases read
      rw [textOf, String.toList_ofList]
      exact isNumber_take starts
  · -- All other readers give other kinds of tokens.
    have other := readComment_ne_token rest.tail (.number raw) tail
    unfold Lexeme.read at read
    unfold readQuoted readBracket readWord readSymbol Token.Kind.ofWord at read
    unfold startsNumber at starts
    grind

theorem isNumber_of_isNumeral {text : List Char} (numeral : isNumeral text = true) : isNumber text = true := by
  cases text with
  | nil => cases numeral
  | cons first rest =>
      have read := number_of_read (read_numeral numeral [] (by simp))
      rwa [String.toList_ofList] at read

theorem isNumeral_eq_isRegular {text : List Char} (number : isNumber text = true) :
    isNumeral text = isRegular text := by
  cases text with
  | nil => cases number
  | cons first rest =>
      rcases hexadecimal_or_decimal first rest with ⟨rfl, letter, digits, isLetter, rfl⟩ | plain
      · have unmarked : isHexMark 'x' = false := by decide
        have regular (all : prolongsAll isHexDigit isHexMark 'x' digits = true) :=
          isNumeralIn_eq_regular hexadecimalAlphabet signsApart_hexadecimal unmarked all
        rcases isLetter with rfl | rfl
        · exact regular number
        · exact regular number
      · rw [isNumber_decimal plain, Bool.and_eq_true] at number
        -- The first character goes on like the others if a point is put before it.
        have unmarked : isDecimalMark '.' = false := by decide
        have goesOn : prolongs Char.isDigit isDecimalMark '.' first = true := by
          have starts := number.1
          simp only [startsNumber, Bool.or_eq_true, Bool.and_eq_true] at starts
          rcases starts with digit | ⟨point, _⟩
          · simp [prolongs, digit]
          · simp [prolongs, point]
        have all : prolongsAll Char.isDigit isDecimalMark '.' (first :: rest) = true := by
          rw [prolongsAll_cons, goesOn, number.2]
          rfl
        have lower (digits : List Char) (same : first :: rest = '0' :: 'x' :: digits) : False :=
          plain 'x' digits (List.cons.inj same).1 (.inl rfl) (List.cons.inj same).2
        have upper (digits : List Char) (same : first :: rest = '0' :: 'X' :: digits) : False :=
          plain 'X' digits (List.cons.inj same).1 (.inr rfl) (List.cons.inj same).2
        rw [isNumeral.eq_3 _ lower upper, isRegular.eq_3 _ lower upper]
        exact isNumeralIn_eq_regular decimalAlphabet signsApart_decimal unmarked all

end Texts

end Lexeme

theorem tokenize_of_isNumber {raw : String} (number : isNumber raw.toList = true) :
    tokenize raw = .ok ⟨[⟨.number raw, .start⟩], [], Position.start.after raw.toList⟩ := by
  cases text : raw.toList with
  | nil =>
      rw [text] at number
      cases number
  | cons first rest =>
      rw [text] at number
      obtain ⟨starts, whole⟩ := numeralTail_number number
      have plain : interpreterLine (first :: rest) = [] := by
        have other : first ≠ '#' := by
          rintro rfl
          simp [startsNumber] at starts
        simp [interpreterLine, other]
      have same : textOf first rest rest.length = raw := by
        rw [textOf, List.take_length, ← text, String.ofList_toList]
      simp [tokenize, text, plain, Lexed.ofText, read_startsNumber starts, readNumeral, whole, same, Lexed.cons]

/-- The numbers that any text is read to have are digits, points and exponent marks in any order, with signs only
directly behind a mark, and the numerals are those that have a digit and at most one point before the first mark, and
behind it a decimal digit and nothing else but a sign. -/
theorem tokenize_numbers (raw : String) :
    ((∃ source lexed position, tokenize source = .ok lexed ∧ ⟨.number raw, position⟩ ∈ lexed.tokens) ↔
        isNumber raw.toList = true) ∧
      (isNumeral raw.toList = true ↔ isNumber raw.toList = true ∧ isRegular raw.toList = true) := by
  refine ⟨⟨?_, fun number => ?_⟩, fun numeral => ?_, fun both => ?_⟩
  · rintro ⟨source, lexed, position, found, member⟩
    have each : ∀ {first rest kind tail}, Lexeme.read first rest = .ok ⟨.token kind, tail⟩ →
        ∀ raw, kind = .number raw → isNumber raw.toList = true := by
      rintro first rest _ tail read raw rfl
      exact number_of_read read
    exact Lexed.forall_of_ofText each found _ member raw rfl
  · exact ⟨raw, _, .start, tokenize_of_isNumber number, List.mem_singleton.mpr rfl⟩
  · have number := isNumber_of_isNumeral numeral
    exact ⟨number, (isNumeral_eq_isRegular number).symm.trans numeral⟩
  · exact (isNumeral_eq_isRegular both.1).trans both.2

/-- Two points stand in a number that is no numeral. -/
theorem tokenize_two_points : ∃ lexed, tokenize "1..2" = .ok lexed ∧
    lexed.tokens.map (·.kind) = [.number "1..2"] ∧ isNumeral "1..2".toList = false := by
  have irregular : isNumeral "1..2".toList = false := by decide +kernel
  exact ⟨_, tokenize_of_isNumber (by decide +kernel), rfl, irregular⟩

end LuaMinifier
