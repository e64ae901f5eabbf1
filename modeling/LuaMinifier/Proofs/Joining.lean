import LuaMinifier.Print
import LuaMinifier.Proofs.Formed
import LuaMinifier.Proofs.FragmentText

/-!
Putting fragments together: which tokens a joined text spells, for the ways in which printing joins texts. Lists put
commas between their items, statements go on behind keywords and symbols, and blocks put a statement behind others.
-/

namespace LuaMinifier

open Token Print

/-- Tokens that a symbol fits behind. -/
def Token.Kind.carries : Kind → Bool
  | .number _ => false
  | kind => kind.closes

/-- Whether every symbol fits behind these tokens. -/
def endsCarrying (kinds : List Kind) : Bool := kinds.getLast?.all Kind.carries

theorem endsCarrying_append_cons (front : List Kind) (kind : Kind) (rest : List Kind) :
    endsCarrying (front ++ kind :: rest) = endsCarrying (kind :: rest) := by
  simp [endsCarrying, List.getLast?_append, List.getLast?_cons]

theorem endsClosed_append_cons (front : List Kind) {kind : Kind} {kinds : List Kind} (closes : kind.closes = true)
    (closed : endsClosed kinds = true) : endsClosed (front ++ kind :: kinds) = true := by
  rw [endsClosed_append_of_ne_nil _ (by simp)]
  exact endsClosed_cons_of_closes closes closed

theorem endsClosed_of_endsCarrying {kinds : List Kind} (carries : endsCarrying kinds = true) :
    endsClosed kinds = true := by
  unfold endsCarrying at carries
  unfold endsClosed
  cases last : kinds.getLast? with
  | none => rfl
  | some kind =>
      rw [last] at carries
      cases kind <;> first | exact carries | rfl

theorem endsCarrying_cons (first : Kind) {kinds : List Kind} (some : kinds ≠ []) :
    endsCarrying (first :: kinds) = endsCarrying kinds := by
  cases kinds with
  | nil => exact absurd rfl some
  | cons second rest => simp [endsCarrying]

@[simp] theorem joinChars_nil_left (text : List Char) : joinChars [] text = text := by
  simp [joinChars, Tail.ofChars, needsSeparator]

theorem joinChars_blank (left right : List Char) : joinChars (left ++ [' ']) right = left ++ ' ' :: right := by
  have apart : needsSeparator (.ofChars (left ++ [' '])) right.head? = false := by
    rw [Tail.ofChars_concat]
    cases right.head? with
    | none => rfl
    | some next => simp [needsSeparator, fuses, Lexeme.startsName]
  simp [joinChars, apart]

namespace Spaced

variable {kinds more : List Kind} {kind : Kind} {text behind : List Char}

theorem single (written : kind.Written) : Spaced [kind] kind.chars := by
  have spelled := Spaced.direct written .nil (by simp)
  rwa [List.append_nil] at spelled

theorem pair {next : Kind} (written : kind.Written) (follows : next.Written)
    (apart : ∀ first, next.chars.head? = some first → kind.separate first = true) :
    Spaced [kind, next] (kind.chars ++ next.chars) :=
  .direct written (single follows) apart

/-- Characters that stay apart from every token before them. -/
def isPunctuation (character : Char) : Bool :=
  character = ')' || character = ']' || character = '}' || character = ',' || character = ';'

theorem separate_punctuation (written : kind.Written) {character : Char} (mark : isPunctuation character = true) :
    kind.separate character = true := by
  simp only [isPunctuation, Bool.or_eq_true, decide_eq_true_eq] at mark
  cases kind with
  | eof => exact written.elim
  | symbol sign => rcases mark with (((rfl | rfl) | rfl) | rfl) | rfl <;> cases sign <;> rfl
  | _ => rcases mark with (((rfl | rfl) | rfl) | rfl) | rfl <;> rfl

theorem append_punctuation (front : Spaced kinds text) (back : Spaced more behind)
    (mark : behind.head?.all isPunctuation = true) : Spaced (kinds ++ more) (text ++ behind) := by
  refine front.append back fun last next final head => ?_
  rw [head, Option.all_some] at mark
  exact separate_punctuation (front.written last (List.mem_of_getLast? final)) mark

theorem symbol (sign : Symbol) : Spaced [.symbol sign] sign.text.toList := single trivial

theorem keyword (reserved : Keyword) : Spaced [.keyword reserved] reserved.text.toList := single trivial

theorem enclose (inner : Spaced kinds text) :
    Spaced (.symbol .leftParen :: kinds ++ [.symbol .rightParen]) ('(' :: text ++ [')']) := by
  have opened : Spaced ([.symbol .leftParen] ++ kinds) (['('] ++ text) :=
    (symbol .leftParen).append inner fun last next final head => by
      obtain rfl : Kind.symbol .leftParen = last := by simpa using final
      rfl
  exact opened.append_punctuation (symbol .rightParen) rfl

theorem join_leads_single (front : Spaced [kind] text) (leads : kind.leads = true) (back : Spaced more behind)
    (opens : startsOpening more = true) : Spaced (kind :: more) (joinChars text behind) := by
  have first : Spaced ([] ++ [kind]) text := front
  exact first.join_leads leads back opens

theorem join_solid_single (front : Spaced [kind] text) (solid : kind.isSolid = true) (back : Spaced more behind) :
    Spaced (kind :: more) (joinChars text behind) := by
  have first : Spaced ([] ++ [kind]) text := front
  exact first.join_solid solid back

/-- Whether every token fits behind these tokens. -/
def endsSolid (kinds : List Kind) : Prop := ∀ last, kinds.getLast? = some last → last.isSolid = true

theorem join_endsSolid (front : Spaced kinds text) (solid : endsSolid kinds) (back : Spaced more behind) :
    Spaced (kinds ++ more) (joinChars text behind) :=
  front.join back fun last next final _ => Kind.fits_of_isSolid (solid last final) next

theorem addItem {list item : Fragment} (front : Spaced kinds list.chars) (isFirst : Bool)
    (solid : isFirst = true → endsSolid kinds) (inner : Spaced more item.chars) :
    Spaced (kinds ++ listed isFirst [more]) (Print.addItem list isFirst item).chars := by
  cases isFirst with
  | true =>
      simp only [Print.addItem, ↓reduceIte, Fragment.chars_join, Fragment.chars_toPiece, listed, List.append_nil]
      exact front.join_endsSolid (solid rfl) inner
  | false =>
      have comma : Spaced (kinds ++ [.symbol .comma]) (list.chars ++ [',']) :=
        front.append_punctuation (symbol .comma) rfl
      simp only [Print.addItem, Bool.false_eq_true, ↓reduceIte, Fragment.chars_join, Fragment.chars_append,
        Fragment.chars_toPiece, listed, List.append_nil]
      exact comma.join_solid rfl inner

theorem listed_cons (isFirst : Bool) (item : List Kind) (rest : List (List Kind)) :
    listed isFirst (item :: rest) = listed isFirst [item] ++ listed false rest := by
  cases isFirst <;> simp [listed]

theorem items {list : Fragment} (parts : List (List Kind × Fragment)) (front : Spaced kinds list.chars)
    (isFirst : Bool) (solid : isFirst = true → endsSolid kinds) (inner : ∀ part ∈ parts, Spaced part.1 part.2.chars) :
    Spaced (kinds ++ listed isFirst (parts.map (·.1))) (Print.items list isFirst (parts.map (·.2))).chars := by
  induction parts generalizing list kinds isFirst with
  | nil => simpa [listed, Print.items] using front
  | cons part rest ih =>
      rw [List.forall_mem_cons] at inner
      rw [List.map_cons, List.map_cons, listed_cons, ← List.append_assoc, Print.items]
      exact ih (front.addItem isFirst solid inner.1) false (by simp) inner.2

theorem join_symbol (front : Spaced kinds text) (carries : endsCarrying kinds = true) (back : Spaced more behind)
    (head : ∃ sign, more.head? = some (.symbol sign)) : Spaced (kinds ++ more) (joinChars text behind) := by
  refine front.join back fun last next final start => ?_
  obtain ⟨sign, same⟩ := head
  obtain rfl : .symbol sign = next := by simpa [same] using start
  simp only [endsCarrying, final, Option.all_some] at carries
  cases last with
  | number raw => simp [Kind.carries] at carries
  | symbol last => cases last <;> first | rfl | simp [Kind.carries, Kind.closes] at carries
  | _ => rfl

theorem list (parts : List (List Kind × Fragment)) (inner : ∀ part ∈ parts, Spaced part.1 part.2.chars) :
    Spaced (listed true (parts.map (·.1))) (Print.items .empty true (parts.map (·.2))).chars := by
  have front : Spaced [] Fragment.empty.chars := .nil
  exact items parts front true (by simp [endsSolid]) inner

end Spaced

theorem Token.Kind.head_paren {kind : Kind} (written : kind.Written) (start : kind.startsLine = true) :
    kind.chars.head? = some '(' ↔ kind = .symbol .leftParen := by
  constructor
  · intro head
    obtain ⟨rest, same⟩ := List.head?_eq_some_iff.mp head
    have first := Kind.startsWith_head written same
    cases kind with
    | symbol sign => cases sign <;> first | rfl | simp [startsWith, Symbol.text] at first
    | name text => simp [startsWith, Lexeme.startsName] at first
    | keyword reserved => simp [startsWith, Lexeme.startsName] at first
    | _ => simp [startsLine, startsStatement] at start
  · rintro rfl
    rfl

theorem separated_ne_nil (isFirst : Bool) {statement : List Kind} (some : statement ≠ []) :
    separated isFirst statement ≠ [] := by
  unfold separated
  split <;> simp [some]

/-- A text that spells tokens behind which a statement can go on. -/
structure Printed (kinds : List Kind) (text : List Char) : Prop where
  spaced : Spaced kinds text
  closed : endsClosed kinds = true

namespace Printed

variable {kinds more : List Kind} {text behind : List Char}

theorem start (inner : Printed more behind) (reserved : Keyword) :
    Printed (.keyword reserved :: more) (joinChars reserved.text.toList behind) :=
  ⟨(Spaced.keyword reserved).join_solid_single rfl inner.spaced, endsClosed_cons_of_closes rfl inner.closed⟩

theorem keyword (front : Printed kinds text) (reserved : Keyword) :
    Printed (kinds ++ [.keyword reserved]) (joinChars text reserved.text.toList) :=
  ⟨front.spaced.join_closed front.closed (Spaced.keyword reserved) rfl, endsClosed_concat ..⟩

theorem part (front : Printed kinds text) (reserved : Keyword) (inner : Printed more behind) :
    Printed (kinds ++ .keyword reserved :: more) (joinChars (joinChars text reserved.text.toList) behind) :=
  ⟨(front.keyword reserved).spaced.join_solid rfl inner.spaced, endsClosed_append_cons _ rfl inner.closed⟩

theorem append {kind : Kind} (front : Printed kinds text) (inner : Printed (kind :: more) behind)
    (follows : kind.follows = true) : Printed (kinds ++ kind :: more) (joinChars text behind) := by
  refine ⟨front.spaced.join_closed front.closed inner.spaced follows, ?_⟩
  rw [endsClosed_append_of_ne_nil _ (by simp)]
  exact inner.closed

theorem statement {block inner : Fragment} (front : Printed kinds block.chars) (back : Printed more inner.chars)
    (head : HeadIs Kind.startsLine more) :
    Printed (kinds ++ separated kinds.isEmpty more) (Print.addStatement block inner).chars := by
  obtain ⟨first, rest, rfl, start⟩ := head
  have isFirst : block.isEmpty = kinds.isEmpty := by
    rw [Bool.eq_iff_iff, Fragment.isEmpty, Fragment.first_eq]
    simpa using front.spaced.text_eq_nil
  have parenthesis : inner.first = some '(' ↔ first = .symbol .leftParen := by
    rw [Fragment.first_eq, back.spaced.head]
    exact Kind.head_paren (back.spaced.written first (by simp)) start
  simp only [Print.addStatement, isFirst, parenthesis, separated, List.head?_cons, Option.some.injEq]
  split
  next =>
    have semicolon := front.spaced.append_punctuation (Spaced.symbol .semicolon) rfl
    refine ⟨by simpa [Piece.chars, Symbol.text] using semicolon.join_solid rfl back.spaced, ?_⟩
    exact endsClosed_append_cons _ rfl back.closed
  next =>
    simpa using front.append back (Kind.follows_of_startsLine first start)

theorem operand (front : Printed kinds text) (sign : Symbol) (inner : Printed more behind)
    (head : HeadIs Kind.opens more) (follows : (Kind.symbol sign).follows = true)
    (leads : (Kind.symbol sign).leads = true) :
    Printed (kinds ++ .symbol sign :: more) (joinChars (joinChars text sign.text.toList) behind) := by
  have signed := front.spaced.join_closed front.closed (Spaced.symbol sign) follows
  refine ⟨signed.join_leads leads inner.spaced head.startsOpening, ?_⟩
  rw [endsClosed_append_of_ne_nil _ (by simp), endsClosed_cons _ head.ne_nil]
  exact inner.closed

end Printed

end LuaMinifier
