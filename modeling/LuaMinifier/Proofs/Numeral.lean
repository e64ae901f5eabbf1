import LuaMinifier.Token.Stream

/-!
Numerals of Lua 5.3, and that reading a numeral takes all of it and nothing more.
-/

namespace LuaMinifier
namespace Lexeme

def isDigits (text : List Char) : Bool := !text.isEmpty && text.all Char.isDigit

def dropSign : List Char → List Char
  | '+' :: digits => digits
  | '-' :: digits => digits
  | digits => digits

/-- An exponent that may be left out: a mark, perhaps a sign, and decimal digits. -/
def isExponent (isMark : Char → Bool) : List Char → Bool
  | [] => true
  | mark :: rest => isMark mark && isDigits (dropSign rest)

/-- Digits with at most one radix point among them, and perhaps an exponent. -/
def isNumeralIn (isDigit isMark : Char → Bool) (text : List Char) : Bool :=
  match text.dropWhile isDigit with
  | '.' :: behind =>
    !(text.takeWhile isDigit ++ behind.takeWhile isDigit).isEmpty &&
      isExponent isMark (behind.dropWhile isDigit)
  | behind => !(text.takeWhile isDigit).isEmpty && isExponent isMark behind

/-- A numeral of Lua 5.3, decimal or hexadecimal. -/
def isNumeral : List Char → Bool
  | '0' :: 'x' :: digits | '0' :: 'X' :: digits =>
    isNumeralIn isHexDigit (fun mark => mark = 'p' || mark = 'P') digits
  | text => isNumeralIn Char.isDigit (fun mark => mark = 'e' || mark = 'E') text

theorem continuesName_of_isDigit {character : Char} (digit : character.isDigit = true) :
    continuesName character = true := by
  simp [continuesName, Char.isAlphanum, digit]

theorem continuesName_of_isAlpha {character : Char} (letter : character.isUpper = true ∨ character.isLower = true) :
    continuesName character = true := by
  have alpha : character.isAlpha = true := (Bool.or_eq_true ..).mpr letter
  simp [continuesName, Char.isAlphanum, alpha]

theorem continuesName_of_isHexDigit {character : Char} (digit : isHexDigit character = true) :
    continuesName character = true := by
  simp only [isHexDigit, Bool.or_eq_true, Bool.and_eq_true, decide_eq_true_eq, Char.le_def] at digit
  have lowest : 'f'.val ≤ 'z'.val ∧ 'F'.val ≤ 'Z'.val := by decide
  rcases digit with (digit | lower) | upper
  · exact continuesName_of_isDigit digit
  · refine continuesName_of_isAlpha (.inr ((Bool.and_eq_true ..).mpr ⟨decide_eq_true lower.1, decide_eq_true ?_⟩))
    exact UInt32.le_trans lower.2 lowest.1
  · refine continuesName_of_isAlpha (.inl (decide_eq_true ⟨upper.1, ?_⟩))
    exact UInt32.le_trans upper.2 lowest.2

theorem continuesName_of_startsName {character : Char} (start : startsName character = true) :
    continuesName character = true := by
  simp only [startsName, continuesName, Char.isAlphanum, Bool.or_eq_true, decide_eq_true_eq] at start ⊢
  rcases start with alpha | underscore
  · exact .inl (.inl alpha)
  · exact .inr underscore

/-- Digits and marks of one kind of numeral: no mark is a digit, and both can continue a name. -/
structure NumeralAlphabet (isDigit isMark : Char → Bool) : Prop where
  apart : ∀ character, isDigit character = true → isMark character = false
  decimal : ∀ character, Char.isDigit character = true → isDigit character = true
  digit : ∀ character, isDigit character = true → continuesName character = true
  mark : ∀ character, isMark character = true → continuesName character = true

theorem decimalAlphabet : NumeralAlphabet Char.isDigit fun mark => mark = 'e' || mark = 'E' where
  apart character digit := by
    rw [Bool.eq_false_iff]
    intro mark
    simp only [Bool.or_eq_true, decide_eq_true_eq] at mark
    rcases mark with rfl | rfl <;> revert digit <;> decide
  decimal _ digit := digit
  digit _ := continuesName_of_isDigit
  mark character mark := by
    simp only [Bool.or_eq_true, decide_eq_true_eq] at mark
    rcases mark with rfl | rfl <;> decide

theorem hexadecimalAlphabet : NumeralAlphabet isHexDigit fun mark => mark = 'p' || mark = 'P' where
  apart character digit := by
    rw [Bool.eq_false_iff]
    intro mark
    simp only [Bool.or_eq_true, decide_eq_true_eq] at mark
    rcases mark with rfl | rfl <;> revert digit <;> decide
  decimal character digit := by simp [isHexDigit, digit]
  digit _ := continuesName_of_isHexDigit
  mark character mark := by
    simp only [Bool.or_eq_true, decide_eq_true_eq] at mark
    rcases mark with rfl | rfl <;> decide

section Reading

variable {isDigit isMark : Char → Bool} (alphabet : NumeralAlphabet isDigit isMark)
include alphabet

theorem numeralLength_digits (text more : List Char) (digits : text.all isDigit = true) (afterMark : Bool)
    (count : Nat) :
    numeralLength isDigit isMark afterMark (text ++ more) count =
      numeralLength isDigit isMark (afterMark && text.isEmpty) more (count + text.length) := by
  induction text generalizing afterMark count with
  | nil => simp
  | cons character rest ih =>
      simp only [List.all_cons, Bool.and_eq_true] at digits
      simp only [List.cons_append, numeralLength, alphabet.apart character digits.1, digits.1, Bool.true_or,
        Bool.false_eq_true, ↓reduceIte]
      rw [ih digits.2]
      simp [Nat.add_assoc, Nat.add_comm 1]

omit alphabet in
theorem numeralLength_point (more : List Char) (afterMark : Bool) (count : Nat) (unmarked : isMark '.' = false) :
    numeralLength isDigit isMark afterMark ('.' :: more) count =
      numeralLength isDigit isMark false more (count + 1) := by
  simp [numeralLength, unmarked]

theorem numeralLength_stop (more : List Char)
    (stop : ∀ next, more.head? = some next → continuesName next = false ∧ next ≠ '.') (count : Nat) :
    numeralLength isDigit isMark false more count = count := by
  cases more with
  | nil => rfl
  | cons next rest =>
      obtain ⟨name, point⟩ := stop next rfl
      have mark : isMark next = false := by
        rw [Bool.eq_false_iff]
        intro mark
        rw [alphabet.mark next mark] at name
        exact absurd name (by decide)
      have digit : isDigit next = false := by
        rw [Bool.eq_false_iff]
        intro digit
        rw [alphabet.digit next digit] at name
        exact absurd name (by decide)
      simp [numeralLength, mark, digit, point]

theorem numeralLength_decimals (digits more : List Char) (isDigits : isDigits digits = true) (afterMark : Bool)
    (count : Nat) :
    numeralLength isDigit isMark afterMark (digits ++ more) count =
      numeralLength isDigit isMark false more (count + digits.length) := by
  simp only [Lexeme.isDigits, Bool.and_eq_true, Bool.not_eq_true'] at isDigits
  have all : digits.all isDigit = true := by
    rw [List.all_eq_true] at isDigits ⊢
    exact fun character member => alphabet.decimal character (isDigits.2 character member)
  rw [numeralLength_digits alphabet digits more all, isDigits.1, Bool.and_false]

/-- Neither sign is a digit or a mark, and the point is no mark. -/
def signsApart (isDigit isMark : Char → Bool) : Prop :=
  isMark '.' = false ∧ ∀ sign, sign = '+' ∨ sign = '-' → isMark sign = false ∧ isDigit sign = false

theorem numeralLength_signed (signed more : List Char) (digits : isDigits (dropSign signed) = true)
    (apart : signsApart isDigit isMark) (count : Nat) :
    numeralLength isDigit isMark true (signed ++ more) count =
      numeralLength isDigit isMark false more (count + signed.length) := by
  fun_cases dropSign signed with
  | case1 rest =>
      obtain ⟨mark, digit⟩ := apart.2 '+' (.inl rfl)
      simp only [List.cons_append, numeralLength, mark, digit, Bool.false_eq_true, ↓reduceIte, Char.reduceEq,
        decide_true, decide_false, Bool.or_self, Bool.true_or, Bool.and_self]
      rw [numeralLength_decimals alphabet rest more digits]
      simp [Nat.add_assoc, Nat.add_comm 1]
  | case2 rest =>
      obtain ⟨mark, digit⟩ := apart.2 '-' (.inr rfl)
      simp only [List.cons_append, numeralLength, mark, digit, Bool.false_eq_true, ↓reduceIte, Char.reduceEq,
        decide_true, decide_false, Bool.or_self, Bool.or_true, Bool.and_self]
      rw [numeralLength_decimals alphabet rest more digits]
      simp [Nat.add_assoc, Nat.add_comm 1]
  | case3 _ noPlus noMinus =>
      rw [dropSign.eq_3 signed noPlus noMinus] at digits
      exact numeralLength_decimals alphabet signed more digits true count

theorem numeralLength_exponent (exponent more : List Char) (isExponent : isExponent isMark exponent = true)
    (apart : signsApart isDigit isMark) (count : Nat) :
    numeralLength isDigit isMark false (exponent ++ more) count =
      numeralLength isDigit isMark false more (count + exponent.length) := by
  cases exponent with
  | nil => simp
  | cons mark signed =>
      simp only [Lexeme.isExponent, Bool.and_eq_true] at isExponent
      simp only [List.cons_append, numeralLength, isExponent.1, ↓reduceIte]
      rw [numeralLength_signed alphabet signed more isExponent.2 apart]
      simp [Nat.add_assoc, Nat.add_comm 1]

theorem numeralLength_numeral (text more : List Char) (numeral : isNumeralIn isDigit isMark text = true)
    (apart : signsApart isDigit isMark)
    (stop : ∀ next, more.head? = some next → continuesName next = false ∧ next ≠ '.') (count : Nat) :
    numeralLength isDigit isMark false (text ++ more) count = count + text.length := by
  have whole := List.takeWhile_append_dropWhile (p := isDigit) (l := text)
  have digits : (text.takeWhile isDigit).all isDigit = true := List.all_takeWhile
  unfold isNumeralIn at numeral
  split at numeral
  next behind split =>
    simp only [Bool.and_eq_true] at numeral
    have part := List.takeWhile_append_dropWhile (p := isDigit) (l := behind)
    have fraction : (behind.takeWhile isDigit).all isDigit = true := List.all_takeWhile
    rw [split] at whole
    rw [← whole, List.append_assoc, numeralLength_digits alphabet _ _ digits]
    simp only [Bool.false_and, List.cons_append]
    rw [numeralLength_point _ _ _ apart.1]
    conv => lhs; rw [← part]
    rw [List.append_assoc, numeralLength_digits alphabet _ _ fraction, Bool.false_and,
      numeralLength_exponent alphabet _ _ numeral.2 apart, numeralLength_stop alphabet more stop]
    have length := congrArg List.length part
    rw [List.length_append] at length
    simp only [List.length_append, List.length_cons]
    omega
  next split =>
    simp only [Bool.and_eq_true] at numeral
    rw [← whole, List.append_assoc, numeralLength_digits alphabet _ _ digits, Bool.false_and,
      numeralLength_exponent alphabet _ _ numeral.2 apart, numeralLength_stop alphabet more stop,
      List.length_append]
    omega

end Reading

/-- Texts that end with a character of a name. -/
def endsName (text : List Char) : Prop := ∃ front last, text = front ++ [last] ∧ continuesName last = true

theorem endsName_append (front : List Char) {text : List Char} (ending : endsName text) : endsName (front ++ text) := by
  obtain ⟨before, last, rfl, name⟩ := ending
  exact ⟨front ++ before, last, by simp, name⟩

theorem endsName_of_all {condition : Char → Bool} {text : List Char} (some : text ≠ [])
    (all : text.all condition = true)
    (names : ∀ character, condition character = true → continuesName character = true) : endsName text := by
  refine ⟨text.dropLast, text.getLast some, (List.dropLast_concat_getLast some).symm, names _ ?_⟩
  rw [List.all_eq_true] at all
  exact all _ (List.getLast_mem some)

theorem endsName_exponent {isMark : Char → Bool} {text : List Char} (some : text ≠ [])
    (exponent : isExponent isMark text = true) : endsName text := by
  cases text with
  | nil => exact absurd rfl some
  | cons mark rest =>
      simp only [isExponent, isDigits, Bool.and_eq_true, Bool.not_eq_true', List.isEmpty_eq_false_iff] at exponent
      have digits := endsName_of_all exponent.2.1 exponent.2.2 fun _ => continuesName_of_isDigit
      have split : ∃ sign, mark :: rest = sign ++ dropSign rest := by
        unfold dropSign
        split
        · exact ⟨[mark, '+'], rfl⟩
        · exact ⟨[mark, '-'], rfl⟩
        · exact ⟨[mark], rfl⟩
      obtain ⟨sign, same⟩ := split
      rw [same]
      exact endsName_append sign digits

theorem endsName_digits {isDigit isMark : Char → Bool} (alphabet : NumeralAlphabet isDigit isMark)
    {text exponent : List Char} (some : text.takeWhile isDigit ≠ []) (last : isExponent isMark exponent = true) :
    endsName (text.takeWhile isDigit ++ exponent) := by
  by_cases none : exponent = []
  · rw [none, List.append_nil]
    exact endsName_of_all some List.all_takeWhile alphabet.digit
  · exact endsName_append _ (endsName_exponent none last)

theorem isNumeralIn_ending {isDigit isMark : Char → Bool} (alphabet : NumeralAlphabet isDigit isMark)
    {text : List Char} (numeral : isNumeralIn isDigit isMark text = true) :
    endsName text ∨ ∃ whole, text = whole ++ ['.'] ∧ endsName whole := by
  rw [← List.takeWhile_append_dropWhile (p := isDigit) (l := text)]
  unfold isNumeralIn at numeral
  split at numeral
  next behind point =>
    rw [point, ← List.takeWhile_append_dropWhile (p := isDigit) (l := behind)]
    simp only [Bool.and_eq_true, Bool.not_eq_true', List.isEmpty_eq_false_iff] at numeral
    by_cases fraction : behind.takeWhile isDigit = []
    · rw [fraction, List.append_nil] at numeral
      rw [fraction, List.nil_append]
      by_cases exponent : behind.dropWhile isDigit = []
      · rw [exponent]
        exact .inr ⟨_, rfl, endsName_of_all numeral.1 List.all_takeWhile alphabet.digit⟩
      · rw [← List.singleton_append, ← List.append_assoc]
        exact .inl (endsName_append _ (endsName_exponent exponent numeral.2))
    · rw [← List.singleton_append, ← List.append_assoc]
      exact .inl (endsName_append _ (endsName_digits alphabet fraction numeral.2))
  next =>
    simp only [Bool.and_eq_true, Bool.not_eq_true', List.isEmpty_eq_false_iff] at numeral
    exact .inl (endsName_digits alphabet numeral.1 numeral.2)

theorem isNumeral_ending {text : List Char} (numeral : isNumeral text = true) :
    endsName text ∨ ∃ whole, text = whole ++ ['.'] ∧ endsName whole := by
  unfold isNumeral at numeral
  split at numeral
  next digits =>
    rcases isNumeralIn_ending hexadecimalAlphabet numeral with name | ⟨whole, rfl, name⟩
    · exact .inl (endsName_append ['0', 'x'] name)
    · exact .inr ⟨['0', 'x'] ++ whole, rfl, endsName_append _ name⟩
  next digits =>
    rcases isNumeralIn_ending hexadecimalAlphabet numeral with name | ⟨whole, rfl, name⟩
    · exact .inl (endsName_append ['0', 'X'] name)
    · exact .inr ⟨['0', 'X'] ++ whole, rfl, endsName_append _ name⟩
  next => exact isNumeralIn_ending decimalAlphabet numeral

end Lexeme
end LuaMinifier
