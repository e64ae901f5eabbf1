import LuaMinifier.Token
import Mathlib.Data.List.Chain

/-!
The grammar of Lua 5.3 as its reference manual prints it, over the kinds of tokens: one production for each
nonterminal, and what is derived from them. A derivation can be asked to keep the statements of each block apart.
-/

namespace LuaMinifier

open Token

inductive Nonterminal
  | chunk | block | stat | retstat | label | funcname | varlist | var | namelist | explist | exp | prefixexp
  | functioncall | args | functiondef | funcbody | parlist | tableconstructor | fieldlist | field | fieldsep
  | binop | unop
deriving DecidableEq

/-- The right side of a production. -/
inductive Phrase
  | keyword (reserved : Keyword)
  | symbol (sign : Symbol)
  | name
  | numeral
  | string
  | the (nonterminal : Nonterminal)
  | seq (first second : Phrase)
  | either (first second : Phrase)
  | option (phrase : Phrase)
  | many (phrase : Phrase)
deriving DecidableEq

namespace Phrase

instance : Append Phrase := ⟨seq⟩

instance : OrElse Phrase := ⟨fun first second => either first (second ())⟩

end Phrase

open Phrase in
def production : Nonterminal → Phrase
  | .chunk => the .block
  | .block => many (the .stat) ++ option (the .retstat)
  | .stat =>
    symbol .semicolon
      <|> the .varlist ++ symbol .assign ++ the .explist
      <|> the .functioncall
      <|> the .label
      <|> keyword .kBreak
      <|> keyword .kGoto ++ name
      <|> keyword .kDo ++ the .block ++ keyword .kEnd
      <|> keyword .kWhile ++ the .exp ++ keyword .kDo ++ the .block ++ keyword .kEnd
      <|> keyword .kRepeat ++ the .block ++ keyword .kUntil ++ the .exp
      <|> keyword .kIf ++ the .exp ++ keyword .kThen ++ the .block
          ++ many (keyword .kElseif ++ the .exp ++ keyword .kThen ++ the .block)
          ++ option (keyword .kElse ++ the .block) ++ keyword .kEnd
      <|> keyword .kFor ++ name ++ symbol .assign ++ the .exp ++ symbol .comma ++ the .exp
          ++ option (symbol .comma ++ the .exp) ++ keyword .kDo ++ the .block ++ keyword .kEnd
      <|> keyword .kFor ++ the .namelist ++ keyword .kIn ++ the .explist ++ keyword .kDo ++ the .block ++ keyword .kEnd
      <|> keyword .kFunction ++ the .funcname ++ the .funcbody
      <|> keyword .kLocal ++ keyword .kFunction ++ name ++ the .funcbody
      <|> keyword .kLocal ++ the .namelist ++ option (symbol .assign ++ the .explist)
  | .retstat => keyword .kReturn ++ option (the .explist) ++ option (symbol .semicolon)
  | .label => symbol .colonColon ++ name ++ symbol .colonColon
  | .funcname => name ++ many (symbol .dot ++ name) ++ option (symbol .colon ++ name)
  | .varlist => the .var ++ many (symbol .comma ++ the .var)
  | .var =>
    name <|> the .prefixexp ++ symbol .leftBracket ++ the .exp ++ symbol .rightBracket
      <|> the .prefixexp ++ symbol .dot ++ name
  | .namelist => name ++ many (symbol .comma ++ name)
  | .explist => the .exp ++ many (symbol .comma ++ the .exp)
  | .exp =>
    keyword .kNil <|> keyword .kFalse <|> keyword .kTrue <|> numeral <|> string <|> symbol .dotDotDot
      <|> the .functiondef <|> the .prefixexp <|> the .tableconstructor <|> the .exp ++ the .binop ++ the .exp
      <|> the .unop ++ the .exp
  | .prefixexp => the .var <|> the .functioncall <|> symbol .leftParen ++ the .exp ++ symbol .rightParen
  | .functioncall => the .prefixexp ++ the .args <|> the .prefixexp ++ symbol .colon ++ name ++ the .args
  | .args => symbol .leftParen ++ option (the .explist) ++ symbol .rightParen <|> the .tableconstructor <|> string
  | .functiondef => keyword .kFunction ++ the .funcbody
  | .funcbody =>
    symbol .leftParen ++ option (the .parlist) ++ symbol .rightParen ++ the .block ++ keyword .kEnd
  | .parlist => the .namelist ++ option (symbol .comma ++ symbol .dotDotDot) <|> symbol .dotDotDot
  | .tableconstructor => symbol .leftBrace ++ option (the .fieldlist) ++ symbol .rightBrace
  | .fieldlist => the .field ++ many (the .fieldsep ++ the .field) ++ option (the .fieldsep)
  | .field =>
    symbol .leftBracket ++ the .exp ++ symbol .rightBracket ++ symbol .assign ++ the .exp
      <|> name ++ symbol .assign ++ the .exp <|> the .exp
  | .fieldsep => symbol .comma <|> symbol .semicolon
  | .binop =>
    symbol .plus <|> symbol .minus <|> symbol .star <|> symbol .slash <|> symbol .slashSlash <|> symbol .caret
      <|> symbol .percent <|> symbol .ampersand <|> symbol .tilde <|> symbol .pipe <|> symbol .shiftRight
      <|> symbol .shiftLeft <|> symbol .dotDot <|> symbol .lt <|> symbol .ltEq <|> symbol .gt <|> symbol .gtEq
      <|> symbol .eq <|> symbol .notEq <|> keyword .kAnd <|> keyword .kOr
  | .unop => symbol .minus <|> keyword .kNot <|> symbol .hash <|> symbol .tilde

/-- Tokens of some kinds are derived from a phrase. The statements of every block satisfy a condition. -/
inductive Derives (apart : List (List Kind) → Prop) : Phrase → List Kind → Prop
  | keyword (reserved : Keyword) : Derives apart (.keyword reserved) [.keyword reserved]
  | symbol (sign : Symbol) : Derives apart (.symbol sign) [.symbol sign]
  | name (text : String) : Derives apart .name [.name text]
  | numeral (raw : String) : Derives apart .numeral [.number raw]
  | string (raw : String) : Derives apart .string [.string raw]
  | the {nonterminal : Nonterminal} {kinds : List Kind} :
      Derives apart (production nonterminal) kinds → Derives apart (.the nonterminal) kinds
  | seq {first second : Phrase} {kinds more : List Kind} :
      Derives apart first kinds → Derives apart second more → Derives apart (.seq first second) (kinds ++ more)
  | left {first second : Phrase} {kinds : List Kind} :
      Derives apart first kinds → Derives apart (.either first second) kinds
  | right {first second : Phrase} {kinds : List Kind} :
      Derives apart second kinds → Derives apart (.either first second) kinds
  | none {phrase : Phrase} : Derives apart (.option phrase) []
  | some {phrase : Phrase} {kinds : List Kind} : Derives apart phrase kinds → Derives apart (.option phrase) kinds
  | many {phrase : Phrase} (parts : List (List Kind)) : (∀ part ∈ parts, Derives apart phrase part) →
      (phrase = .the .stat → apart parts) → Derives apart (.many phrase) parts.flatten

/-- Statements of a block, of which each one that starts with a parenthesis is the first or stands behind a
semicolon. -/
def Apart (statements : List (List Kind)) : Prop :=
  statements.IsChain fun previous next =>
    next.head? = some (.symbol .leftParen) → previous = [.symbol .semicolon]

/-- What a phrase says about tokens if it is known what its nonterminals say. -/
def Phrase.Holds (apart : List (List Kind) → Prop) (means : Nonterminal → List Kind → Prop) :
    Phrase → List Kind → Prop
  | .keyword reserved, kinds => kinds = [.keyword reserved]
  | .symbol sign, kinds => kinds = [.symbol sign]
  | .name, kinds => ∃ text, kinds = [.name text]
  | .numeral, kinds => ∃ raw, kinds = [.number raw]
  | .string, kinds => ∃ raw, kinds = [.string raw]
  | .the nonterminal, kinds => means nonterminal kinds
  | .seq first second, kinds => ∃ front, first.Holds apart means front ∧ ∃ back, second.Holds apart means back ∧
      kinds = front ++ back
  | .either first second, kinds => first.Holds apart means kinds ∨ second.Holds apart means kinds
  | .option phrase, kinds => kinds = [] ∨ phrase.Holds apart means kinds
  | .many phrase, kinds => ∃ parts : List (List Kind), (∀ part ∈ parts, phrase.Holds apart means part) ∧
      (phrase = .the .stat → apart parts) ∧ kinds = parts.flatten

namespace Derives

variable {apart : List (List Kind) → Prop} {phrase : Phrase} {kinds : List Kind}

/-- What every production preserves holds of all that is derived. -/
theorem holds {means : Nonterminal → List Kind → Prop} (derives : Derives apart phrase kinds)
    (closed : ∀ nonterminal kinds, (production nonterminal).Holds apart means kinds → means nonterminal kinds) :
    phrase.Holds apart means kinds := by
  induction derives with
  | keyword | symbol => rfl
  | name text | numeral text | string text => exact ⟨text, rfl⟩
  | the _ ih => exact closed _ _ ih
  | seq _ _ first second => exact ⟨_, first, _, second, rfl⟩
  | left _ ih => exact .inl ih
  | right _ ih => exact .inr ih
  | none => exact .inl rfl
  | some _ ih => exact .inr ih
  | many parts _ keeps ih => exact ⟨parts, ih, keeps, rfl⟩

theorem of_holds (holds : phrase.Holds apart (fun nonterminal => Derives apart (.the nonterminal)) kinds) :
    Derives apart phrase kinds := by
  induction phrase generalizing kinds with
  | keyword reserved => exact holds ▸ .keyword reserved
  | symbol sign => exact holds ▸ .symbol sign
  | name =>
      obtain ⟨text, rfl⟩ := holds
      exact .name text
  | numeral =>
      obtain ⟨raw, rfl⟩ := holds
      exact .numeral raw
  | string =>
      obtain ⟨raw, rfl⟩ := holds
      exact .string raw
  | the => exact holds
  | seq _ _ first second =>
      obtain ⟨front, before, back, behind, rfl⟩ := holds
      exact .seq (first before) (second behind)
  | either _ _ first second => exact holds.elim (fun left => .left (first left)) fun right => .right (second right)
  | option _ ih =>
      obtain rfl | inside := holds
      · exact .none
      · exact .some (ih inside)
  | many _ ih =>
      obtain ⟨parts, each, keeps, rfl⟩ := holds
      exact .many parts (fun part member => ih (each part member)) keeps

theorem produce {nonterminal : Nonterminal}
    (holds : (production nonterminal).Holds apart (fun nonterminal => Derives apart (.the nonterminal)) kinds) :
    Derives apart (.the nonterminal) kinds :=
  .the (of_holds holds)

end Derives
end LuaMinifier
