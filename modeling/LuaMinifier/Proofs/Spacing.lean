import LuaMinifier.Fragment
import LuaMinifier.Proofs.TokenText

/-!
Token kinds spelled out one behind another. A text spells kinds when a blank stands wherever a token would run into
the next one; such a text is cut into tokens of just these kinds. The separator rule inserts every blank that is
needed between pieces whose neighbouring tokens fit.
-/

namespace LuaMinifier

open Lexeme hiding Kind
open Token

/-- The texts that spell a list of tokens, with single blanks where they are needed. -/
inductive Spaced : List Kind → List Char → Prop
  | nil : Spaced [] []
  | direct {kind : Kind} {kinds : List Kind} {text : List Char} (written : kind.Written) (rest : Spaced kinds text)
      (apart : ∀ next, text.head? = some next → kind.separate next = true) :
      Spaced (kind :: kinds) (kind.chars ++ text)
  | blank {kind next : Kind} {kinds : List Kind} {text : List Char} (written : kind.Written)
      (rest : Spaced (next :: kinds) text) : Spaced (kind :: next :: kinds) (kind.chars ++ ' ' :: text)

namespace Spaced

theorem separate_blank {kind : Kind} (written : kind.Written) : kind.separate ' ' = true := by
  cases kind with
  | eof => exact written.elim
  | symbol sign => cases sign <;> rfl
  | _ => rfl

theorem chars_ne_nil {kind : Kind} (written : kind.Written) : ∃ first rest, kind.chars = first :: rest :=
  let ⟨first, rest, same, _⟩ := read_written written
  ⟨first, rest, same⟩

theorem head_not_blank {kind : Kind} {first : Char} {rest : List Char} (written : kind.Written)
    (same : kind.chars = first :: rest) : isBlank first = false := by
  obtain ⟨_, _, split, read⟩ := read_written written
  obtain ⟨rfl, rfl⟩ := List.cons.inj (same.symm.trans split)
  rw [Bool.eq_false_iff]
  intro blank
  have read := read [] (by simp)
  simp [Lexeme.read, blank] at read

theorem written {kinds : List Kind} {text : List Char} (spaced : Spaced kinds text) :
    ∀ kind ∈ kinds, kind.Written := by
  induction spaced with
  | nil => simp
  | direct written rest apart ih => simpa using ⟨written, ih⟩
  | blank written rest ih => simpa using ⟨written, by simpa using ih⟩

theorem head {kind : Kind} {kinds : List Kind} {text : List Char} (spaced : Spaced (kind :: kinds) text) :
    text.head? = kind.chars.head? := by
  obtain ⟨first, rest, same⟩ := chars_ne_nil (spaced.written kind (by simp))
  cases spaced <;> simp [same]

theorem text_eq_nil {kinds : List Kind} {text : List Char} (spaced : Spaced kinds text) :
    text = [] ↔ kinds = [] := by
  cases kinds with
  | nil => cases spaced; simp
  | cons kind kinds =>
      obtain ⟨first, rest, same⟩ := chars_ne_nil (spaced.written kind (by simp))
      have head := spaced.head
      cases text <;> simp_all

theorem ofText_token {kind : Kind} (written : kind.Written) (text : List Char)
    (apart : ∀ next, text.head? = some next → kind.separate next = true) (position : Position) {lexed : Lexed}
    (rest : Lexed.ofText (position.after kind.chars) text = .ok lexed) :
    Lexed.ofText position (kind.chars ++ text) = .ok { lexed with tokens := ⟨kind, position⟩ :: lexed.tokens } := by
  obtain ⟨first, following, same, read⟩ := read_written written
  rw [same] at rest ⊢
  rw [List.cons_append, Lexed.ofText, read text apart]
  simp only [List.take_left', List.drop_left', rest]
  rfl

theorem ofText_blank {kind : Kind} {kinds : List Kind} {text : List Char} (spaced : Spaced (kind :: kinds) text)
    (position : Position) :
    Lexed.ofText position (' ' :: text) = Lexed.ofText (position.after [' ']) text := by
  obtain ⟨first, rest, same⟩ := chars_ne_nil (spaced.written kind (by simp))
  have visible := head_not_blank (spaced.written kind (by simp)) same
  have head : text.head? = some first := by rw [spaced.head, same]; rfl
  obtain ⟨behind, rfl⟩ := List.head?_eq_some_iff.mp head
  have read : Lexeme.read ' ' (first :: behind) = .ok ⟨.blank, 0⟩ := by
    have blank : isBlank ' ' = true := by decide
    simp [Lexeme.read, blank, countWhile, visible]
  rw [Lexed.ofText, read]
  simp only [List.take_zero, List.drop_zero]
  cases Lexed.ofText (position.after [' ']) (first :: behind) <;> rfl

/-- A spelled text is cut into the tokens it spells, with no comments between them. -/
theorem ofText {kinds : List Kind} {text : List Char} (spaced : Spaced kinds text) (position : Position) :
    ∃ lexed, Lexed.ofText position text = .ok lexed ∧ lexed.tokens.map (·.kind) = kinds ∧ lexed.comments = [] := by
  induction spaced generalizing position with
  | nil => exact ⟨⟨[], [], position⟩, by rw [Lexed.ofText], rfl, rfl⟩
  | @direct kind kinds text written rest apart ih =>
      obtain ⟨lexed, read, same, silent⟩ := ih (position.after kind.chars)
      exact ⟨_, ofText_token written text apart position read, by simp [same], silent⟩
  | @blank kind next kinds text written rest ih =>
      obtain ⟨lexed, read, same, silent⟩ := ih ((position.after kind.chars).after [' '])
      rw [← ofText_blank rest] at read
      exact ⟨_, ofText_token written _ (by simp [separate_blank written]) position read, by simp [same], silent⟩

theorem append {first second : List Kind} {left right : List Char} (front : Spaced first left)
    (back : Spaced second right)
    (apart : ∀ kind next, first.getLast? = some kind → right.head? = some next → kind.separate next = true) :
    Spaced (first ++ second) (left ++ right) := by
  induction front with
  | nil => exact back
  | @direct kind kinds text written rest inside ih =>
      rw [List.append_assoc]
      refine .direct written (ih fun last next final => apart last next ?_) fun next head => ?_
      · rw [List.getLast?_cons, final, Option.getD_some]
      · cases text with
        | nil => exact apart kind next (by simp [rest.text_eq_nil.mp rfl]) head
        | cons character text => exact inside next (by simpa using head)
  | @blank kind next kinds text written rest ih =>
      rw [List.append_assoc, List.cons_append]
      refine .blank written (ih fun last following final => apart last following ?_)
      rw [List.getLast?_cons, final, Option.getD_some]

theorem append_blank {first kinds : List Kind} {next : Kind} {left right : List Char} (front : Spaced first left)
    (some : first ≠ []) (back : Spaced (next :: kinds) right) :
    Spaced (first ++ next :: kinds) (left ++ ' ' :: right) := by
  induction front with
  | nil => exact absurd rfl some
  | @direct kind following text written rest inside ih =>
      rw [List.append_assoc]
      cases following with
      | nil =>
          rw [rest.text_eq_nil.mpr rfl]
          exact .blank written back
      | cons second following =>
          refine .direct written (ih (by simp)) fun next head => inside next ?_
          cases text with
          | nil => exact absurd (rest.text_eq_nil.mp rfl) (by simp)
          | cons character text => simpa using head
  | @blank kind second following text written rest ih =>
      rw [List.append_assoc, List.cons_append]
      exact .blank written (ih (by simp))

theorem ending {kinds : List Kind} {kind : Kind} {text : List Char} (spaced : Spaced kinds text)
    (last : kinds.getLast? = some kind) : ∃ front, text = front ++ kind.chars := by
  induction spaced with
  | nil => simp at last
  | @direct first kinds text written rest inside ih =>
      cases kinds with
      | nil =>
          simp only [List.getLast?_singleton, Option.some.injEq] at last
          subst last
          exact ⟨[], by rw [rest.text_eq_nil.mpr rfl]; simp⟩
      | cons second kinds =>
          obtain ⟨front, rfl⟩ := ih (by rwa [List.getLast?_cons_cons] at last)
          exact ⟨first.chars ++ front, by simp⟩
  | @blank first second kinds text written rest ih =>
      obtain ⟨front, rfl⟩ := ih (by rwa [List.getLast?_cons_cons] at last)
      exact ⟨first.chars ++ ' ' :: front, by simp⟩

theorem mem_iff {kinds : List Kind} {text : List Char} (spaced : Spaced kinds text) (character : Char)
    (visible : character ≠ ' ') : character ∈ text ↔ ∃ kind ∈ kinds, character ∈ kind.chars := by
  induction spaced with
  | nil => simp
  | direct written rest inside ih => simp [ih]
  | blank written rest ih => simp_all

end Spaced

namespace Token.Kind

/-- Whether the separator rule keeps a token apart from the next one. Of the pairs it does not look at, these are the
ones that would fuse. -/
def fits : Kind → Kind → Bool
  | .number _, .number _ | .name _, .number _ | .symbol .dot, .number _ => false
  | .number _, .symbol .dot | .number _, .symbol .dotDot | .number _, .symbol .dotDotDot => false
  | .symbol .slash, .symbol next => next ≠ .slash && next ≠ .slashSlash
  | .symbol .tilde, .symbol next | .symbol .assign, .symbol next => next ≠ .assign && next ≠ .eq
  | .symbol .lt, .symbol next =>
    next ≠ .assign && next ≠ .eq && next ≠ .lt && next ≠ .ltEq && next ≠ .shiftLeft
  | .symbol .gt, .symbol next =>
    next ≠ .assign && next ≠ .eq && next ≠ .gt && next ≠ .gtEq && next ≠ .shiftRight
  | .symbol .colon, .symbol next => next ≠ .colon && next ≠ .colonColon
  | _, _ => true

/-- The first characters that tokens of a kind can have. -/
def startsWith : Kind → Char → Bool
  | .number _, first => first.isDigit || first = '.'
  | .string _, first => first = '"' || first = '\'' || first = '['
  | .name _, first | .keyword _, first => startsName first
  | .symbol sign, first => sign.text.toList.head? = some first
  | .eof, _ => false

theorem startsWith_head {kind : Kind} {first : Char} {rest : List Char} (written : kind.Written)
    (same : kind.chars = first :: rest) : kind.startsWith first = true := by
  cases kind with
  | number raw =>
      simp only [Written] at written
      simp only [chars] at same
      rw [same] at written
      rcases isNumeral_head written with digit | ⟨rfl, _⟩ <;> simp [startsWith, *]
  | string raw =>
      obtain ⟨start, tail, split, opening, _⟩ := written
      simp only [chars] at same
      obtain ⟨rfl, rfl⟩ := List.cons.inj (same.symm.trans split)
      simpa [startsWith, or_assoc] using opening
  | name text =>
      obtain ⟨name, _⟩ := written
      simp only [chars] at same
      rw [same, isName, Bool.and_eq_true] at name
      exact name.1
  | keyword reserved =>
      obtain ⟨start, tail, split, name⟩ := Keyword.text_isName reserved
      simp only [chars] at same
      obtain ⟨rfl, rfl⟩ := List.cons.inj (same.symm.trans split)
      rw [isName, Bool.and_eq_true] at name
      exact name.1
  | symbol sign =>
      simp only [chars] at same
      simp [startsWith, same]
  | eof => exact written.elim

end Token.Kind

theorem Tail.ofChars_concat (front : List Char) (last : Char) :
    Tail.ofChars (front ++ [last]) = ⟨some last, front.getLast?⟩ := by
  rcases List.eq_nil_or_concat front with rfl | ⟨before, beforeLast, rfl⟩ <;> simp [Tail.ofChars]

/-- What the separator rule lets stand behind a character of a name does not continue it, digits behind digits
apart. -/
theorem continuesName_of_fuses {tail : Tail} {last next : Char} (name : continuesName last = true)
    (digit : next.isDigit = true → startsName last = true) (apart : fuses tail last next = false) :
    continuesName next = false := by
  unfold fuses at apart
  split at apart
  next => exact apart
  next number =>
    have isDigit : last.isDigit = true := by
      simp only [continuesName, startsName, Char.isAlphanum, Bool.or_eq_true, decide_eq_true_eq] at name number
      grind
    have other : next.isDigit = false := by
      rw [Bool.eq_false_iff]
      exact fun found => number (digit found)
    simp only [isDigit, ↓reduceIte, Bool.and_eq_false_iff, Bool.or_eq_false_iff, decide_eq_false_iff_not,
      ne_eq, Decidable.not_not] at apart
    rcases apart with rfl | ⟨_, letter⟩
    · decide
    · simp only [startsName, Bool.or_eq_false_iff] at letter
      simp [continuesName, Char.isAlphanum, other, letter]

theorem Keyword.text_ending (reserved : Keyword) :
    ∃ front last, reserved.text.toList = front ++ [last] ∧ startsName last = true := by
  refine ⟨reserved.text.toList.dropLast, reserved.text.toList.getLast (by cases reserved <;> decide), ?_, ?_⟩
  · rw [List.dropLast_concat_getLast]
  · cases reserved <;> decide

namespace Token.Kind

theorem number_of_isDigit {kind : Kind} {first : Char} (start : kind.startsWith first = true)
    (digit : first.isDigit = true) : ∃ raw, kind = .number raw := by
  cases kind with
  | number raw => exact ⟨raw, rfl⟩
  | string raw =>
      simp only [startsWith, Bool.or_eq_true, decide_eq_true_eq] at start
      rcases start with (rfl | rfl) | rfl <;> exact absurd digit (by decide)
  | name text => exact absurd digit (by simp [isDigit_of_startsName start])
  | keyword reserved => exact absurd digit (by simp [isDigit_of_startsName start])
  | symbol sign =>
      cases sign <;> simp [startsWith, Symbol.text] at start <;> subst start <;> exact absurd digit (by decide)
  | eof => simp [startsWith] at start

/-- Signs that start no other token than a symbol. -/
def isSign (character : Char) : Bool :=
  character = '/' || character = '=' || character = '<' || character = '>' || character = ':'

theorem symbol_of_isSign {kind : Kind} {first : Char} (start : kind.startsWith first = true)
    (sign : isSign first = true) : ∃ symbol, kind = .symbol symbol ∧ symbol.text.toList.head? = some first := by
  have other : startsName first = false ∧ first.isDigit = false ∧ first ≠ '.' ∧ first ≠ '"' ∧ first ≠ '\'' ∧
      first ≠ '[' := by
    simp only [isSign, Bool.or_eq_true, decide_eq_true_eq] at sign
    rcases sign with (((rfl | rfl) | rfl) | rfl) | rfl <;> decide
  cases kind with
  | symbol symbol => exact ⟨symbol, rfl, by simpa [startsWith] using start⟩
  | _ => simp [startsWith, other] at start

theorem head_of_fits_number {raw : String} {next : Kind} {first : Char} (start : next.startsWith first = true)
    (fit : fits (.number raw) next = true) : first ≠ '.' := by
  rintro rfl
  cases next with
  | number raw => simp [fits] at fit
  | symbol sign => cases sign <;> simp [startsWith, Symbol.text] at start <;> simp [fits] at fit
  | _ => simp [startsWith, startsName] at start

theorem separate_symbol {sign : Symbol} {next : Kind} {front : List Char} {first : Char}
    (start : next.startsWith first = true) (fit : fits (.symbol sign) next = true)
    (apart : needsSeparator (.ofChars (front ++ sign.text.toList)) (some first) = false) :
    separate (.symbol sign) first = true := by
  cases sign
  case minus | leftBracket =>
    simp [Symbol.text, Tail.ofChars_concat, needsSeparator, fuses, startsName] at apart
    grind [separate]
  case dot =>
    have digit : first.isDigit = false := by
      rw [Bool.eq_false_iff]
      intro found
      obtain ⟨raw, rfl⟩ := number_of_isDigit start found
      simp [fits] at fit
    have point : first ≠ '.' := by
      rintro rfl
      simp [Symbol.text, Tail.ofChars_concat, needsSeparator, fuses, startsName] at apart
    simp [separate, digit, point]
  case dotDot =>
    have point : first ≠ '.' := by
      rintro rfl
      have split : front ++ Symbol.dotDot.text.toList = (front ++ ['.']) ++ ['.'] := by simp [Symbol.text]
      rw [split, Tail.ofChars_concat] at apart
      simp [needsSeparator, fuses, startsName] at apart
    simp [separate, point]
  case slash | tilde | assign | lt | gt | colon =>
    by_cases special : isSign first = true
    · obtain ⟨symbol, rfl, head⟩ := symbol_of_isSign start special
      cases symbol <;> simp [Symbol.text] at head <;> subst head <;> first | rfl | simp [fits] at fit
    · simp [isSign] at special
      simp [separate, special]
  all_goals rfl

theorem separate_of_fits {kind next : Kind} {front : List Char} {first : Char} (written : kind.Written)
    (start : next.startsWith first = true) (fit : kind.fits next = true)
    (apart : needsSeparator (.ofChars (front ++ kind.chars)) (some first) = false) :
    kind.separate first = true := by
  cases kind with
  | number raw =>
      have digit (found : first.isDigit = true) : False := by
        obtain ⟨raw, rfl⟩ := number_of_isDigit start found
        simp [fits] at fit
      have point := head_of_fits_number start fit
      rcases isNumeral_ending written with ⟨before, last, same, name⟩ | ⟨whole, same, before, last, rfl, name⟩
      · simp only [chars, same, ← List.append_assoc, Tail.ofChars_concat, needsSeparator] at apart
        simp [separate, continuesName_of_fuses name (fun found => (digit found).elim) apart, point]
      · have dot : last ≠ '.' := (ne_of_continuesName name).2.2.2.2
        simp only [chars, same, ← List.append_assoc, Tail.ofChars_concat, needsSeparator] at apart
        simp [fuses, startsName, dot] at apart
        simp [separate, apart, point]
  | string raw => rfl
  | name text =>
      have digit (found : first.isDigit = true) : False := by
        obtain ⟨raw, rfl⟩ := number_of_isDigit start found
        simp [fits] at fit
      obtain ⟨before, last, same, name⟩ := isName_ending written.1
      simp only [chars, same, ← List.append_assoc, Tail.ofChars_concat, needsSeparator] at apart
      simp [separate, continuesName_of_fuses name (fun found => (digit found).elim) apart]
  | keyword reserved =>
      obtain ⟨before, last, same, letter⟩ := Keyword.text_ending reserved
      simp only [chars, same, ← List.append_assoc, Tail.ofChars_concat, needsSeparator] at apart
      simp [separate, continuesName_of_fuses (continuesName_of_startsName letter) (fun _ => letter) apart]
  | symbol sign => exact separate_symbol start fit apart
  | eof => exact written.elim

end Token.Kind

/-- One text behind another, with a blank between them where the separator rule asks for it. -/
def joinChars (left right : List Char) : List Char :=
  if needsSeparator (.ofChars left) right.head? then left ++ ' ' :: right else left ++ right

namespace Spaced

/-- Joining spelled texts spells all their tokens when the two tokens that meet fit. -/
theorem join {first second : List Kind} {left right : List Char} (front : Spaced first left)
    (back : Spaced second right)
    (fit : ∀ kind next, first.getLast? = some kind → second.head? = some next → kind.fits next = true) :
    Spaced (first ++ second) (joinChars left right) := by
  cases second with
  | nil =>
      cases back
      simpa [joinChars, needsSeparator] using front
  | cons next kinds =>
      rw [joinChars]
      split
      next separator =>
        refine front.append_blank ?_ back
        rintro rfl
        cases front
        simp [Tail.ofChars, needsSeparator] at separator
      next apart =>
        refine front.append back fun kind following last head => ?_
        obtain ⟨before, rfl⟩ := front.ending last
        obtain ⟨character, rest, same⟩ := chars_ne_nil (back.written next (by simp))
        have meets : character = following := by
          rw [back.head, same] at head
          simpa using head
        subst meets
        rw [head, Bool.not_eq_true] at apart
        exact Kind.separate_of_fits (front.written kind (List.mem_of_getLast? last))
          (Kind.startsWith_head (back.written next (by simp)) same) (fit kind next last rfl) apart

end Spaced

namespace Token.Kind

/-- Tokens that fit before whatever follows an operand or a statement. -/
def closes : Kind → Bool
  | .symbol .slash | .symbol .tilde | .symbol .assign | .symbol .lt | .symbol .gt | .symbol .colon
  | .symbol .dot => false
  | _ => true

/-- Tokens that fit behind an operand or a statement. -/
def follows : Kind → Bool
  | .number _ | .symbol .dot | .symbol .dotDot | .symbol .dotDotDot => false
  | _ => true

def opens : Kind → Bool
  | .number _ | .string _ | .name _ => true
  | .keyword .kNil | .keyword .kTrue | .keyword .kFalse | .keyword .kFunction | .keyword .kNot => true
  | .symbol .dotDotDot | .symbol .leftBrace | .symbol .leftParen | .symbol .minus | .symbol .hash
  | .symbol .tilde => true
  | _ => false

/-- Tokens that fit before every expression. -/
def leads : Kind → Bool
  | .number _ | .name _ | .symbol .dot => false
  | _ => true

/-- Tokens that fit before every other token. -/
def isSolid (kind : Kind) : Bool := kind.closes && kind.leads

theorem fits_of_closes {kind next : Kind} (closing : kind.closes = true) (following : next.follows = true) :
    kind.fits next = true := by
  cases kind with
  | symbol sign => cases sign <;> simp [closes] at closing <;> rfl
  | number raw => cases next with
    | symbol sign => cases sign <;> simp [follows] at following <;> rfl
    | number raw => simp [follows] at following
    | _ => rfl
  | name text => cases next with
    | number raw => simp [follows] at following
    | _ => rfl
  | _ => rfl

theorem fits_of_leads {kind next : Kind} (leading : kind.leads = true) (opening : next.opens = true) :
    kind.fits next = true := by
  cases kind with
  | symbol sign =>
    cases next with
    | symbol other => cases other <;> simp [opens] at opening <;> cases sign <;> simp [leads] at leading <;> rfl
    | _ => cases sign <;> simp [leads] at leading <;> rfl
  | number raw => simp [leads] at leading
  | name text => simp [leads] at leading
  | _ => rfl

theorem fits_of_isSolid {kind : Kind} (solid : kind.isSolid = true) (next : Kind) : kind.fits next = true := by
  cases kind with
  | symbol sign => cases sign <;> first | rfl | simp [isSolid, closes, leads] at solid
  | number raw => simp [isSolid, closes, leads] at solid
  | name text => simp [isSolid, closes, leads] at solid
  | _ => rfl

end Token.Kind

/-- Whether whatever follows an operand or a statement fits behind these tokens. -/
def endsClosed (kinds : List Kind) : Bool := kinds.getLast?.all Kind.closes

/-- Whether these tokens fit behind an operand or a statement. -/
def startsFollowing (kinds : List Kind) : Bool := kinds.head?.all Kind.follows

/-- Whether these tokens start like an expression. -/
def startsOpening (kinds : List Kind) : Bool := kinds.head?.all Kind.opens

theorem endsClosed_append {first second : List Kind} (front : endsClosed first = true)
    (back : endsClosed second = true) : endsClosed (first ++ second) = true := by
  unfold endsClosed at front back ⊢
  rw [List.getLast?_append]
  cases last : second.getLast? with
  | none => simpa using front
  | some kind => simpa [last] using back

namespace Spaced

variable {kinds more : List Kind} {kind : Kind} {text behind : List Char}

theorem join_closed (front : Spaced kinds text) (closed : endsClosed kinds = true) (back : Spaced more behind)
    (follows : startsFollowing more = true) : Spaced (kinds ++ more) (joinChars text behind) := by
  refine front.join back fun last next final head => ?_
  simp only [endsClosed, final, Option.all_some] at closed
  simp only [startsFollowing, head, Option.all_some] at follows
  exact Kind.fits_of_closes closed follows

theorem join_leads (front : Spaced (kinds ++ [kind]) text) (leads : kind.leads = true) (back : Spaced more behind)
    (opens : startsOpening more = true) : Spaced (kinds ++ kind :: more) (joinChars text behind) := by
  rw [← List.singleton_append, ← List.append_assoc]
  refine front.join back fun last next final head => ?_
  simp only [List.getLast?_concat, Option.some.injEq] at final
  simp only [startsOpening, head, Option.all_some] at opens
  exact Kind.fits_of_leads (final ▸ leads) opens

theorem join_solid (front : Spaced (kinds ++ [kind]) text) (solid : kind.isSolid = true)
    (back : Spaced more behind) : Spaced (kinds ++ kind :: more) (joinChars text behind) := by
  rw [← List.singleton_append, ← List.append_assoc]
  refine front.join back fun last next final head => ?_
  simp only [List.getLast?_concat, Option.some.injEq] at final
  exact final ▸ Kind.fits_of_isSolid solid next

end Spaced
end LuaMinifier
