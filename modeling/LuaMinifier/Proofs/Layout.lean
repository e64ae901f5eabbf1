import LuaMinifier.Proofs.Joining

/-!
How tokens are laid out. Whether a blank stands between two tokens depends on these two tokens only, so that a printed
text is determined by its tokens. Each leaf of a printed fragment holds some of the tokens and cuts none of them.
-/

namespace LuaMinifier

open Token Print

variable {kind next : Kind} {kinds more : List Kind}

theorem needsSeparator_punctuation {tail : Tail} {first : Char} (mark : Spaced.isPunctuation first = true) :
    needsSeparator tail (some first) = false := by
  have plain : Lexeme.continuesName first = false ∧ Lexeme.startsName first = false ∧ first ≠ '.' ∧ first ≠ '-' ∧
      first ≠ '[' ∧ first ≠ '=' := by
    simp only [Spaced.isPunctuation, Bool.or_eq_true, decide_eq_true_eq] at mark
    rcases mark with (((rfl | rfl) | rfl) | rfl) | rfl <;> decide
  unfold needsSeparator
  split
  next last next _ same =>
    obtain rfl := Option.some.inj same
    unfold fuses
    split
    · exact plain.1
    split
    · simp [plain]
    split <;> simp_all
  next => rfl

namespace Token.Kind

/-- Tokens of a text, whatever its numbers look like. -/
def Legible : Kind → Prop
  | .number raw => raw.toList ≠ [] ∧ raw.toList ≠ ['.']
  | kind => kind.Written

theorem Legible.cases (legible : kind.Legible) :
    kind.Written ∨ ∃ raw, kind = .number raw ∧ raw.toList ≠ [] ∧ raw.toList ≠ ['.'] := by
  cases kind with
  | number raw => exact .inr ⟨raw, rfl, legible⟩
  | _ => exact .inl legible

theorem Legible.chars_ne_nil (legible : kind.Legible) : kind.chars ≠ [] := by
  rcases legible.cases with written | ⟨raw, rfl, some, _⟩
  · obtain ⟨first, rest, same⟩ := Spaced.chars_ne_nil written
    simp [same]
  · exact some

theorem Legible.eq_dot (legible : kind.Legible) (same : kind.chars = ['.']) : kind = .symbol .dot := by
  rcases legible.cases with written | ⟨raw, rfl, _, noDot⟩
  · have start := startsWith_head written same
    cases kind with
    | number raw => exact absurd same legible.2
    | symbol sign => cases sign <;> first | rfl | simp [chars, Symbol.text] at same
    | eof => exact written.elim
    | _ => simp [startsWith, Lexeme.startsName] at start
  · exact absurd same noDot

/-- Whether a blank stands between two tokens. Nothing is put behind a dot, and a number is kept apart from a
concatenation. -/
def parted : Kind → Kind → Bool
  | .symbol .dot, _ => false
  | .number raw, .symbol .dotDot => raw.toList.getLast? ≠ some ')'
  | kind, next => needsSeparator (.ofChars kind.chars) next.chars.head?

theorem parted_eq (noDot : kind ≠ .symbol .dot) (noConcat : next ≠ .symbol .dotDot) :
    kind.parted next = needsSeparator (.ofChars kind.chars) next.chars.head? := by
  unfold parted
  split
  · exact absurd rfl noDot
  · exact absurd rfl noConcat
  · rfl

/-- Only numbers that end in a parenthesis are treated like other tokens before a concatenation. -/
theorem parted_concat (noDot : kind ≠ .symbol .dot)
    (paren : ∀ raw, kind = .number raw → raw.toList.getLast? = some ')') :
    kind.parted (.symbol .dotDot) = needsSeparator (.ofChars kind.chars) (some '.') := by
  unfold parted
  split
  · exact absurd rfl noDot
  next raw _ =>
    obtain ⟨before, ending⟩ := List.getLast?_eq_some_iff.mp (paren raw rfl)
    simp [chars, ending, Tail.ofChars_concat, needsSeparator, fuses, Lexeme.startsName]
  · rfl

theorem parted_punctuation {first : Char} (head : next.chars.head? = some first)
    (mark : Spaced.isPunctuation first = true) : kind.parted next = false := by
  unfold parted
  split
  · rfl
  · cases head
    exact absurd mark (by decide)
  · rw [head, needsSeparator_punctuation mark]

theorem parted_name {text : String} (written : (name text).Written) {first : Char}
    (head : next.chars.head? = some first) (sign : first = '=' ∨ first = ':') : (name text).parted next = false := by
  obtain ⟨before, last, same, continues⟩ := Lexeme.isName_ending written.1
  have plain : Lexeme.continuesName first = false ∧ Lexeme.startsName first = false ∧ first ≠ '.' := by
    rcases sign with rfl | rfl <;> decide
  have word : Lexeme.startsName last = true ∨ last.isDigit = true := by
    simp only [Lexeme.continuesName, Lexeme.startsName, Char.isAlphanum, Bool.or_eq_true] at continues ⊢
    grind
  change needsSeparator (.ofChars text.toList) next.chars.head? = false
  rw [head, same, Tail.ofChars_concat]
  simp only [needsSeparator, fuses]
  rcases word with letter | digit
  · simp [letter, plain]
  · simp [digit, plain]

theorem parted_leftParen (next : Kind) : (symbol .leftParen).parted next = false := by
  have apart : ∀ first, needsSeparator (.ofChars ['(']) first = false := by
    intro first
    cases first with
    | none => rfl
    | some next => simp [Tail.ofChars, needsSeparator, fuses, Lexeme.startsName]
  exact apart next.chars.head?

end Token.Kind

/-- The blank between tokens and those behind them. -/
def gap (kinds more : List Kind) : List Char :=
  match kinds.getLast?, more.head? with
  | some kind, some next => if kind.parted next then [' '] else []
  | _, _ => []

/-- The text of tokens, with a blank wherever one has to stand. -/
def layout : List Kind → List Char
  | [] => []
  | kind :: rest => kind.chars ++ gap [kind] rest ++ layout rest

theorem layout_single (kind : Kind) : layout [kind] = kind.chars := by simp [layout, gap]

theorem layout_append (kinds more : List Kind) :
    layout (kinds ++ more) = layout kinds ++ gap kinds more ++ layout more := by
  induction kinds with
  | nil => simp [layout, gap]
  | cons kind rest ih =>
      rw [List.cons_append, layout, layout, ih]
      cases rest with
      | nil => simp [layout, gap]
      | cons second rest => simp [gap]

theorem fuses_of_ne_dot {tail other : Tail} {last : Char} (noDot : last ≠ '.') (next : Char) :
    fuses tail last next = fuses other last next := by
  unfold fuses
  split
  · rfl
  split
  · rfl
  split <;> simp_all

theorem needsSeparator_append (front : List Char) {text : List Char} (some : text ≠ []) (noDot : text ≠ ['.'])
    (next : Option Char) : needsSeparator (.ofChars (front ++ text)) next = needsSeparator (.ofChars text) next := by
  rcases List.eq_nil_or_concat text with rfl | ⟨before, last, rfl⟩
  · exact absurd rfl some
  rw [List.concat_eq_append, ← List.append_assoc, Tail.ofChars_concat, Tail.ofChars_concat]
  rcases List.eq_nil_or_concat before with rfl | ⟨early, beforeLast, rfl⟩
  · cases next with
    | none => rfl
    | some next => exact fuses_of_ne_dot (by simpa using noDot) next
  · simp [← List.append_assoc]

theorem head_layout (legible : ∀ kind ∈ kinds, kind.Legible) :
    (layout kinds).head? = kinds.head?.bind (·.chars.head?) := by
  cases kinds with
  | nil => rfl
  | cons kind rest =>
      obtain ⟨first, behind, same⟩ := List.exists_cons_of_ne_nil (legible kind (by simp)).chars_ne_nil
      simp [layout, same]

theorem ending_layout (last : kinds.getLast? = some kind) : ∃ front, layout kinds = front ++ kind.chars := by
  obtain ⟨before, rfl⟩ := List.getLast?_eq_some_iff.mp last
  exact ⟨layout before ++ gap before [kind], by rw [layout_append, layout_single]⟩

theorem last_layout (legible : ∀ kind ∈ kinds, kind.Legible) :
    (layout kinds).getLast? = kinds.getLast?.bind (·.chars.getLast?) := by
  cases last : kinds.getLast? with
  | none => simp [List.getLast?_eq_none_iff.mp last, layout]
  | some kind =>
      obtain ⟨front, same⟩ := ending_layout last
      obtain ⟨final, ending⟩ := Option.isSome_iff_exists.mp
        (List.getLast?_isSome.mpr (legible kind (List.mem_of_getLast? last)).chars_ne_nil)
      simp [same, List.getLast?_append, ending]

theorem mem_layout (kinds : List Kind) (character : Char) (visible : character ≠ ' ') :
    character ∈ layout kinds ↔ ∃ kind ∈ kinds, character ∈ kind.chars := by
  have blank (kinds more : List Kind) : character ∉ gap kinds more := by
    unfold gap
    split
    · split <;> simp [visible]
    · simp
  induction kinds with
  | nil => simp [layout]
  | cons kind rest ih => simp [layout, blank, ih]

theorem joinChars_layout (legible : ∀ kind ∈ kinds, kind.Legible) (legibleMore : ∀ kind ∈ more, kind.Legible)
    (finish : kinds.getLast? ≠ some (.symbol .dot)) (start : more.head? ≠ some (.symbol .dotDot)) :
    joinChars (layout kinds) (layout more) = layout (kinds ++ more) := by
  rw [layout_append, joinChars, head_layout legibleMore]
  cases last : kinds.getLast? with
  | none => simp [gap, List.getLast?_eq_none_iff.mp last, layout, Tail.ofChars, needsSeparator]
  | some kind =>
      cases first : more.head? with
      | none => simp [gap, last, first, needsSeparator]
      | some next =>
          have legible := legible kind (List.mem_of_getLast? last)
          have noDot : kind ≠ .symbol .dot := fun same => finish (by rw [last, same])
          have noConcat : next ≠ .symbol .dotDot := fun same => start (by rw [first, same])
          obtain ⟨front, same⟩ := ending_layout last
          rw [same, Option.bind_some, needsSeparator_append _ legible.chars_ne_nil (mt legible.eq_dot noDot),
            ← Kind.parted_eq noDot noConcat]
          simp only [gap, last, first]
          split <;> simp

/-- The texts of the leaves of a piece, from left to right. -/
def Piece.leaves : Piece → List String
  | .empty => []
  | .text written => [written]
  | .node _ _ body => body.leaves
  | .append first second => first.leaves ++ second.leaves

theorem Piece.leaves_behind (first second : Piece) : (first.behind second).leaves = first.leaves ++ second.leaves := by
  cases first <;> rfl

def Fragment.leaves (fragment : Fragment) : List String := fragment.body.leaves

theorem Fragment.leaves_append (fragment : Fragment) (piece : Piece) :
    (fragment.append piece).leaves = fragment.leaves ++ piece.leaves :=
  Piece.leaves_behind ..

/-- The tokens of a text alone, without a first line for an interpreter and without the end. -/
def tokenKinds (text : String) : Option (List Kind) :=
  match Lexed.ofText .start text.toList with
  | .ok lexed => some (lexed.tokens.map (·.kind))
  | .error _ => none

theorem Spaced.tokenKinds {text : String} (spaced : Spaced kinds text.toList) :
    LuaMinifier.tokenKinds text = some kinds := by
  obtain ⟨lexed, read, same, _⟩ := spaced.ofText .start
  simp [LuaMinifier.tokenKinds, read, same]

/-- Some texts hold tokens one behind another, with each token in one of the texts. -/
def Leafed (leaves : List String) (kinds : List Kind) : Prop :=
  ∃ parts, leaves.mapM tokenKinds = some parts ∧ kinds = parts.flatten

theorem Leafed.nil : Leafed [] [] := ⟨[], rfl, rfl⟩

theorem Leafed.leaf {text : String} (spaced : Spaced kinds text.toList) : Leafed [text] kinds :=
  ⟨[kinds], by simp [spaced.tokenKinds], by simp⟩

theorem Leafed.append {leaves others : List String} (first : Leafed leaves kinds) (second : Leafed others more) :
    Leafed (leaves ++ others) (kinds ++ more) := by
  obtain ⟨parts, cut, rfl⟩ := first
  obtain ⟨further, cutMore, rfl⟩ := second
  exact ⟨parts ++ further, by simp [List.mapM_append, cut, cutMore], by simp⟩

theorem Leafed.blank : Leafed [" "] [] := by
  refine ⟨[[]], ?_, rfl⟩
  have read : tokenKinds " " = some [] := by decide +kernel
  simp [read]

theorem Leafed.join {fragment : Fragment} {piece : Piece} (first : Leafed fragment.leaves kinds)
    (second : Leafed piece.leaves more) : Leafed (fragment.join piece).leaves (kinds ++ more) := by
  rw [Fragment.join]
  split
  · rw [Fragment.leaves_append, Fragment.leaves_append]
    simpa [Piece.leaves] using (first.append .blank).append second
  · rw [Fragment.leaves_append]
    exact first.append second

/-- A piece that lays out tokens and keeps each of them in one leaf. -/
structure Laid (kinds : List Kind) (piece : Piece) : Prop where
  legible : ∀ kind ∈ kinds, kind.Legible
  start : kinds.head? ≠ some (.symbol .dotDot)
  finish : kinds.getLast? ≠ some (.symbol .dot)
  text : piece.chars = layout kinds
  cut : (∀ kind ∈ kinds, kind.Written) → Leafed piece.leaves kinds

namespace Laid

variable {fragment : Fragment} {piece : Piece}

theorem empty : Laid [] Fragment.empty :=
  ⟨by simp, by simp, by simp, rfl, fun _ => .nil⟩

theorem leaf {text : String} (legible : kind.Legible) (same : text.toList = kind.chars)
    (start : kind ≠ .symbol .dotDot) (finish : kind ≠ .symbol .dot) : Laid [kind] (.text text) where
  legible := by simpa using legible
  start := by simpa using start
  finish := by simpa using finish
  text := by rw [layout_single, ← same, Piece.chars]
  cut := fun written => .leaf (same ▸ .single (written kind (by simp)))

theorem symbol (sign : Symbol) (start : sign ≠ .dotDot) (finish : sign ≠ .dot) :
    Laid [.symbol sign] (.text sign.text) :=
  leaf trivial rfl (by simpa using start) (by simpa using finish)

theorem keyword (reserved : Keyword) : Laid [.keyword reserved] (.text reserved.text) :=
  leaf trivial rfl (by simp) (by simp)

theorem name {text : String} (written : (Kind.name text).Written) : Laid [.name text] (.text text) :=
  leaf written rfl (by simp) (by simp)

theorem begins (inner : Laid kinds piece) (blank : Fragment) (isBlank : blank.body = .empty) :
    Laid kinds (blank.append piece) := by
  obtain ⟨origin, name, body⟩ := blank
  subst isBlank
  exact ⟨inner.legible, inner.start, inner.finish, inner.text, inner.cut⟩

section Append

theorem legible_append (first : Laid kinds fragment) (second : Laid more piece) :
    ∀ kind ∈ kinds ++ more, kind.Legible :=
  List.forall_mem_append.mpr ⟨first.legible, second.legible⟩

theorem start_append (first : kinds.head? ≠ some kind) (second : more.head? ≠ some kind) :
    (kinds ++ more).head? ≠ some kind := by
  cases kinds with
  | nil => exact second
  | cons => exact first

theorem finish_append (first : kinds.getLast? ≠ some kind) (second : more.getLast? ≠ some kind) :
    (kinds ++ more).getLast? ≠ some kind := by
  rw [List.getLast?_append]
  cases last : more.getLast? with
  | none => exact first
  | some other => rwa [last] at second

end Append

theorem append (first : Laid kinds fragment) (second : Laid more piece) (apart : gap kinds more = []) :
    Laid (kinds ++ more) (fragment.append piece) where
  legible := legible_append first second
  start := start_append first.start second.start
  finish := finish_append first.finish second.finish
  text := by
    rw [Fragment.chars_toPiece, Fragment.chars_append, ← Fragment.chars_toPiece, first.text, second.text,
      layout_append, apart, List.append_nil]
  cut := by
    intro written
    rw [List.forall_mem_append] at written
    have whole := (first.cut written.1).append (second.cut written.2)
    exact (congrArg (Leafed · (kinds ++ more)) (Fragment.leaves_append fragment piece)).mpr whole

theorem join (first : Laid kinds fragment) (second : Laid more piece) : Laid (kinds ++ more) (fragment.join piece) where
  legible := legible_append first second
  start := start_append first.start second.start
  finish := finish_append first.finish second.finish
  text := by
    rw [Fragment.chars_toPiece, Fragment.chars_join, ← Fragment.chars_toPiece, first.text, second.text]
    exact joinChars_layout first.legible second.legible first.finish second.start
  cut := by
    intro written
    rw [List.forall_mem_append] at written
    exact (first.cut written.1).join (second.cut written.2)

theorem punctuation (first : Laid kinds fragment) (second : Laid (next :: more) piece)
    (mark : next.chars.head?.any Spaced.isPunctuation = true) :
    Laid (kinds ++ next :: more) (fragment.append piece) := by
  refine first.append second ?_
  obtain ⟨character, head, mark⟩ := (Option.any_eq_true ..).mp mark
  unfold gap
  split
  next kind other _ same =>
    obtain rfl := Option.some.inj same
    simp [Kind.parted_punctuation head mark]
  next => rfl

theorem enclose (inner : Laid kinds fragment) (blank : Fragment) (isBlank : blank.body = .empty) :
    Laid (.symbol .leftParen :: kinds ++ [.symbol .rightParen]) (((blank.append "(").append fragment).append ")") := by
  have opened := ((symbol .leftParen (by simp) (by simp)).begins blank isBlank).append inner (by
    simp only [gap, List.getLast?_singleton]
    cases kinds.head? with
    | none => rfl
    | some first => simp [Kind.parted_leftParen])
  exact opened.punctuation (symbol .rightParen (by simp) (by simp)) rfl

/-- A concatenation behind its left operand. A blank is put behind a number, unless it ends in a parenthesis. -/
theorem concat (first : Laid kinds fragment) (filled : kinds ≠ []) (spaced : Bool)
    (behind : spaced = true ↔ ∃ raw, kinds.getLast? = some (.number raw) ∧ raw.toList.getLast? ≠ some ')') :
    Laid (kinds ++ [.symbol .dotDot]) ((if spaced then fragment.append " " else fragment).join "..") where
  legible := List.forall_mem_append.mpr ⟨first.legible, by simp [Kind.Legible, Kind.Written]⟩
  start := by
    obtain ⟨kind, rest, rfl⟩ := List.exists_cons_of_ne_nil filled
    exact first.start
  finish := by simp
  text := by
    have text : fragment.chars = layout kinds := first.text
    obtain ⟨kind, last⟩ := Option.isSome_iff_exists.mp (List.getLast?_isSome.mpr filled)
    rw [layout_append, layout_single, Fragment.chars_toPiece, Fragment.chars_join]
    simp only [gap, last, List.head?_cons]
    cases spaced with
    | true =>
        obtain ⟨raw, number, noParen⟩ := behind.mp rfl
        obtain rfl : .number raw = kind := by simpa [number] using last
        have parted : (Kind.number raw).parted (.symbol .dotDot) = true := by simpa [Kind.parted] using noParen
        simp [parted, Piece.chars, joinChars_blank, text, Kind.chars, Symbol.text]
    | false =>
        have legible := first.legible kind (List.mem_of_getLast? last)
        have noDot : kind ≠ .symbol .dot := fun same => first.finish (by rw [last, same])
        have paren : ∀ raw, kind = .number raw → raw.toList.getLast? = some ')' := by
          rintro raw rfl
          exact Decidable.not_not.mp fun noParen => absurd (behind.mpr ⟨raw, last, noParen⟩) (by simp)
        obtain ⟨front, same⟩ := ending_layout last
        simp only [Bool.false_eq_true, ↓reduceIte, text, joinChars, Piece.chars]
        rw [Kind.parted_concat noDot paren, same,
          needsSeparator_append _ legible.chars_ne_nil (mt legible.eq_dot noDot)]
        split <;> simp_all [Kind.chars, Symbol.text]
  cut := by
    intro written
    have front : Leafed (if spaced then fragment.append " " else fragment).leaves kinds := by
      have inner : Leafed fragment.leaves kinds := first.cut fun kind member => written kind (by simp [member])
      split
      · rw [Fragment.leaves_append]
        simpa [Piece.leaves] using inner.append .blank
      · exact inner
    exact front.join (.leaf (Spaced.symbol .dotDot))

theorem addItem {item : Fragment} (list : Laid kinds fragment) (isFirst : Bool) (inner : Laid more item) :
    Laid (kinds ++ listed isFirst [more]) (Print.addItem fragment isFirst item) := by
  cases isFirst with
  | true => simpa [listed, Print.addItem] using list.join inner
  | false =>
      have comma := list.punctuation (symbol .comma (by simp) (by simp)) rfl
      simpa [listed, Print.addItem, Symbol.text] using comma.join inner

theorem items (parts : List (List Kind × Fragment)) (list : Laid kinds fragment) (isFirst : Bool)
    (inner : ∀ part ∈ parts, Laid part.1 part.2) :
    Laid (kinds ++ listed isFirst (parts.map (·.1))) (Print.items fragment isFirst (parts.map (·.2))) := by
  induction parts generalizing fragment kinds isFirst with
  | nil => simpa [listed, Print.items] using list
  | cons part rest ih =>
      rw [List.forall_mem_cons] at inner
      rw [List.map_cons, List.map_cons, Spaced.listed_cons, ← List.append_assoc, Print.items]
      exact ih (list.addItem isFirst inner.1) false inner.2

/-- A comma is put before the closing brace where the last field has a brace in it. -/
theorem closeTable (table : Laid kinds fragment) (last : Option (List Kind × Fragment))
    (laid : ∀ part ∈ last, Laid part.1 part.2) :
    Laid (kinds ++ closingComma (last.map (·.1)) ++ [.symbol .rightBrace])
      (Print.closeTable fragment (last.map (·.2))) := by
  have nested : ((last.map (·.2)).any fun field => field.toText.toList.contains '}') =
      (last.map (·.1)).any fun field => field.any fun kind => kind.chars.contains '}' := by
    cases last with
    | none => rfl
    | some part =>
        have text : part.2.chars = layout part.1 := (laid part rfl).text
        have inside := mem_layout part.1 '}' (by decide)
        rw [Bool.eq_iff_iff]
        simpa [Fragment.toText_eq, text] using inside
  have comma := table.punctuation (symbol .comma (by simp) (by simp)) rfl
  have brace := symbol .rightBrace (by simp) (by simp)
  simp only [Print.closeTable, nested, closingComma]
  split
  · simpa [Symbol.text] using comma.punctuation brace rfl
  · simpa [Symbol.text] using table.punctuation brace rfl

theorem statement {inner : Fragment} (front : Laid kinds fragment) (back : Laid more inner)
    (head : HeadIs Kind.startsLine more) :
    Laid (kinds ++ separated kinds.isEmpty more) (Print.addStatement fragment inner) := by
  obtain ⟨first, rest, rfl, start⟩ := head
  have text : fragment.chars = layout kinds := front.text
  have innerText : inner.chars = layout (first :: rest) := back.text
  have legible := back.legible first (by simp)
  have isFirst : fragment.isEmpty = kinds.isEmpty := by
    rw [Fragment.isEmpty, Fragment.first_eq, text, head_layout front.legible]
    cases kinds with
    | nil => rfl
    | cons kind kinds =>
        obtain ⟨character, behind, same⟩ :=
          List.exists_cons_of_ne_nil (front.legible kind (by simp)).chars_ne_nil
        simp [same]
  have parenthesis : inner.first = some '(' ↔ first = .symbol .leftParen := by
    rw [Fragment.first_eq, innerText, head_layout back.legible]
    rcases legible.cases with written | ⟨raw, rfl, _⟩
    · exact Kind.head_paren written start
    · simp [Kind.startsLine, Kind.startsStatement] at start
  simp only [Print.addStatement, isFirst, parenthesis, separated, List.head?_cons, Option.some.injEq]
  split
  · have semicolon := front.punctuation (symbol .semicolon (by simp) (by simp)) rfl
    simpa [Symbol.text] using semicolon.join back
  · exact front.join back

end Laid
end LuaMinifier
