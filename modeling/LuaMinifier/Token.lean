import LuaMinifier.Position

/-!
The tokens of Lua 5.3: keywords, symbols, names, numerals and strings, and the comments that stand between them.
-/

namespace LuaMinifier

inductive Keyword
  | kAnd | kBreak | kDo | kElse | kElseif | kEnd | kFalse | kFor | kFunction | kGoto | kIf | kIn
  | kLocal | kNil | kNot | kOr | kRepeat | kReturn | kThen | kTrue | kUntil | kWhile
deriving DecidableEq, Repr

namespace Keyword

/-- Every keyword, in alphabetical order. -/
def all : List Keyword :=
  [.kAnd, .kBreak, .kDo, .kElse, .kElseif, .kEnd, .kFalse, .kFor, .kFunction, .kGoto, .kIf, .kIn,
    .kLocal, .kNil, .kNot, .kOr, .kRepeat, .kReturn, .kThen, .kTrue, .kUntil, .kWhile]

def text : Keyword → String
  | .kAnd => "and" | .kBreak => "break" | .kDo => "do" | .kElse => "else" | .kElseif => "elseif"
  | .kEnd => "end" | .kFalse => "false" | .kFor => "for" | .kFunction => "function" | .kGoto => "goto"
  | .kIf => "if" | .kIn => "in" | .kLocal => "local" | .kNil => "nil" | .kNot => "not" | .kOr => "or"
  | .kRepeat => "repeat" | .kReturn => "return" | .kThen => "then" | .kTrue => "true"
  | .kUntil => "until" | .kWhile => "while"

def label : Keyword → String
  | .kAnd => "And" | .kBreak => "Break" | .kDo => "Do" | .kElse => "Else" | .kElseif => "Elseif"
  | .kEnd => "End" | .kFalse => "False" | .kFor => "For" | .kFunction => "Function" | .kGoto => "Goto"
  | .kIf => "If" | .kIn => "In" | .kLocal => "Local" | .kNil => "Nil" | .kNot => "Not" | .kOr => "Or"
  | .kRepeat => "Repeat" | .kReturn => "Return" | .kThen => "Then" | .kTrue => "True"
  | .kUntil => "Until" | .kWhile => "While"

def ofText? (name : String) : Option Keyword :=
  all.find? fun keyword => keyword.text == name

end Keyword

def isKeyword (name : String) : Bool := (Keyword.ofText? name).isSome

inductive Symbol
  | plus | minus | star | slash | slashSlash | percent | caret
  | ampersand | tilde | pipe | shiftLeft | shiftRight | hash
  | eq | notEq | lt | ltEq | gt | gtEq | assign
  | leftParen | rightParen | leftBrace | rightBrace | leftBracket | rightBracket
  | colonColon | semicolon | colon | comma | dot | dotDot | dotDotDot
deriving DecidableEq, Repr

namespace Symbol

def text : Symbol → String
  | .plus => "+" | .minus => "-" | .star => "*" | .slash => "/" | .slashSlash => "//"
  | .percent => "%" | .caret => "^" | .ampersand => "&" | .tilde => "~" | .pipe => "|"
  | .shiftLeft => "<<" | .shiftRight => ">>" | .hash => "#" | .eq => "==" | .notEq => "~="
  | .lt => "<" | .ltEq => "<=" | .gt => ">" | .gtEq => ">=" | .assign => "="
  | .leftParen => "(" | .rightParen => ")" | .leftBrace => "\x7b" | .rightBrace => "\x7d"
  | .leftBracket => "[" | .rightBracket => "]" | .colonColon => "::" | .semicolon => ";"
  | .colon => ":" | .comma => "," | .dot => "." | .dotDot => ".." | .dotDotDot => "..."

def label : Symbol → String
  | .plus => "Plus" | .minus => "Minus" | .star => "Star" | .slash => "Slash"
  | .slashSlash => "SlashSlash" | .percent => "Percent" | .caret => "Caret"
  | .ampersand => "Ampersand" | .tilde => "Tilde" | .pipe => "Pipe" | .shiftLeft => "ShiftLeft"
  | .shiftRight => "ShiftRight" | .hash => "Hash" | .eq => "Eq" | .notEq => "NotEq" | .lt => "Lt"
  | .ltEq => "LtEq" | .gt => "Gt" | .gtEq => "GtEq" | .assign => "Assign"
  | .leftParen => "LParen" | .rightParen => "RParen" | .leftBrace => "LBrace"
  | .rightBrace => "RBrace" | .leftBracket => "LBracket" | .rightBracket => "RBracket"
  | .colonColon => "ColonColon" | .semicolon => "Semicolon" | .colon => "Colon"
  | .comma => "Comma" | .dot => "Dot" | .dotDot => "DotDot" | .dotDotDot => "DotDotDot"

/-- The longest symbol that starts with a character and what follows it, and how many of the following
characters belong to it. -/
def read : Char → List Char → Option (Symbol × Nat)
  | '+', _ => some (.plus, 0)
  | '-', _ => some (.minus, 0)
  | '*', _ => some (.star, 0)
  | '/', '/' :: _ => some (.slashSlash, 1)
  | '/', _ => some (.slash, 0)
  | '%', _ => some (.percent, 0)
  | '^', _ => some (.caret, 0)
  | '#', _ => some (.hash, 0)
  | '&', _ => some (.ampersand, 0)
  | '|', _ => some (.pipe, 0)
  | '~', '=' :: _ => some (.notEq, 1)
  | '~', _ => some (.tilde, 0)
  | '=', '=' :: _ => some (.eq, 1)
  | '=', _ => some (.assign, 0)
  | '<', '=' :: _ => some (.ltEq, 1)
  | '<', '<' :: _ => some (.shiftLeft, 1)
  | '<', _ => some (.lt, 0)
  | '>', '=' :: _ => some (.gtEq, 1)
  | '>', '>' :: _ => some (.shiftRight, 1)
  | '>', _ => some (.gt, 0)
  | '(', _ => some (.leftParen, 0)
  | ')', _ => some (.rightParen, 0)
  | '{', _ => some (.leftBrace, 0)
  | '}', _ => some (.rightBrace, 0)
  | '[', _ => some (.leftBracket, 0)
  | ']', _ => some (.rightBracket, 0)
  | ';', _ => some (.semicolon, 0)
  | ',', _ => some (.comma, 0)
  | ':', ':' :: _ => some (.colonColon, 1)
  | ':', _ => some (.colon, 0)
  | '.', '.' :: '.' :: _ => some (.dotDotDot, 2)
  | '.', '.' :: _ => some (.dotDot, 1)
  | '.', _ => some (.dot, 0)
  | _, _ => none

end Symbol

namespace Token

/-- What a token is. Names, numerals and strings keep the text they were read from; a string keeps its quotes. -/
inductive Kind
  | number (raw : String)
  | string (raw : String)
  | name (text : String)
  | keyword (reserved : Keyword)
  | symbol (sign : Symbol)
  | eof
deriving DecidableEq, Repr, Inhabited

namespace Kind

def ofWord (word : String) : Kind :=
  match Keyword.ofText? word with
  | some reserved => .keyword reserved
  | none => .name word

def label : Kind → String
  | .number _ => "Number"
  | .string _ => "LuaString"
  | .name _ => "Name"
  | .keyword reserved => reserved.label
  | .symbol sign => sign.label
  | .eof => "Eof"

def raw? : Kind → Option String
  | .number raw | .string raw | .name raw => some raw
  | _ => none

def describe : Kind → String
  | .number raw | .string raw | .name raw => s!"'{raw}'"
  | .keyword reserved => reserved.label
  | .symbol sign => sign.label
  | .eof => "'<eof>'"

end Kind
end Token

structure Token where
  kind : Token.Kind
  position : Position
deriving DecidableEq, Repr, Inhabited

/-- A comment: its whole text, the text behind its opening, and where it starts. -/
structure Comment where
  raw : String
  value : String
  position : Position
deriving DecidableEq, Repr

end LuaMinifier
