import LuaMinifier.SyntaxError

/-!
Lexemes: the pieces into which a source text is cut. A lexeme is a run of blanks, a comment or a token, and it
always holds at least one character. Each reader below is given the characters behind the first one and says
how many of them still belong to the lexeme.
-/

namespace LuaMinifier
namespace Lexeme

def isBlank (character : Char) : Bool :=
  character = ' ' || character = '\t' || character = '\r' || character = '\n'
    || character = '\x0b' || character = '\x0c'

def startsName (character : Char) : Bool := character.isAlpha || character = '_'

def continuesName (character : Char) : Bool := character.isAlphanum || character = '_'

def isHexDigit (character : Char) : Bool :=
  character.isDigit || ('a' ≤ character && character ≤ 'f') || ('A' ≤ character && character ≤ 'F')

def countWhile (condition : Char → Bool) (text : List Char) : Nat :=
  (text.takeWhile condition).length

/-- The level of the long bracket that opens behind a first `[`: the number of `=` before a second `[`. -/
def openingLevel (text : List Char) : Option Nat :=
  let level := countWhile (· = '=') text
  if (text.drop level).head? = some '[' then some level else none

/-- Whether the text behind a `]` completes a closing long bracket of a level. -/
def closesLevel (level : Nat) (text : List Char) : Bool :=
  countWhile (· = '=') text = level && (text.drop level).head? = some ']'

/-- How many characters stand before the first closing long bracket of a level, if there is one. -/
def longBodyLength (level : Nat) : List Char → Nat → Option Nat
  | [], _ => none
  | character :: rest, count =>
    if character = ']' && closesLevel level rest then some count
    else longBodyLength level rest (count + 1)

/-- How many characters a quoted string takes behind its opening quote, the closing one included. A backslash
takes the next character with it, whatever it is; a bare line break or the end of the text leaves the string open. -/
def quotedLength (quote : Char) : List Char → Nat → Option Nat
  | [], _ => none
  | '\\' :: _ :: rest, count => quotedLength quote rest (count + 2)
  | character :: rest, count =>
    if character = quote then some (count + 1)
    else if character = '\\' || character = '\n' || character = '\r' then none
    else quotedLength quote rest (count + 1)

/-- How many characters continue a numeral: digits, points and exponent marks, in any number and order, and a sign
directly behind a mark. The flag says whether a mark was read last. -/
def numeralLength (isDigit isMark : Char → Bool) : Bool → List Char → Nat → Nat
  | _, [], count => count
  | afterMark, character :: rest, count =>
    if isMark character then numeralLength isDigit isMark true rest (count + 1)
    else if isDigit character || character = '.' then numeralLength isDigit isMark false rest (count + 1)
    else if afterMark && (character = '+' || character = '-') then
      numeralLength isDigit isMark false rest (count + 1)
    else count

/-- How many characters belong to the numeral behind its first character. -/
def numeralTail (first : Char) (rest : List Char) : Nat :=
  match first, rest with
  | '0', 'x' :: digits | '0', 'X' :: digits =>
    1 + numeralLength isHexDigit (fun mark => mark = 'p' || mark = 'P') false digits 0
  | _, _ => numeralLength Char.isDigit (fun mark => mark = 'e' || mark = 'E') false rest 0

/-- What a lexeme is. A comment keeps the text behind its opening. -/
inductive Kind
  | blank
  | comment (raw value : String)
  | token (kind : Token.Kind)
deriving DecidableEq, Repr

/-- Why no lexeme could be read, and how many characters further on the fault is reported. -/
structure Fault where
  cause : SyntaxError.Cause
  offset : Nat
deriving DecidableEq, Repr

end Lexeme

/-- A lexeme: what it is, and how many characters it has behind its first one. -/
structure Lexeme where
  kind : Lexeme.Kind
  tail : Nat
deriving DecidableEq, Repr

namespace Lexeme

/-- Keeps the first character and as many of the others as asked for. -/
def textOf (first : Char) (rest : List Char) (tail : Nat) : String :=
  String.ofList (first :: rest.take tail)

def dropReturn (line : List Char) : List Char :=
  if line.getLast? = some '\r' then line.dropLast else line

def readComment (body : List Char) : Except Fault Lexeme :=
  match body with
  | '[' :: rest =>
    match openingLevel rest with
    | some level =>
      let inner := rest.drop (level + 1)
      match longBodyLength level inner 0 with
      | some length =>
        let tail := 1 + (length + 2 * (level + 2))
        .ok ⟨.comment (textOf '-' ('-' :: body) tail) (String.ofList (inner.take length)), tail⟩
      | none => .error ⟨.unfinishedLongComment, 2⟩
    | none => readLine body
  | _ => readLine body
where
  readLine (body : List Char) : Except Fault Lexeme :=
    let line := body.takeWhile (· ≠ '\n')
    let kept := dropReturn line
    .ok ⟨.comment (String.ofList ('-' :: '-' :: kept)) (String.ofList kept), 1 + line.length⟩

/-- Reads a symbol, or reports the first byte of a character that starts no token. -/
def readSymbol (first : Char) (rest : List Char) : Except Fault Lexeme :=
  match Symbol.read first rest with
  | some (symbol, tail) => .ok ⟨.token (.symbol symbol), tail⟩
  | none => .error ⟨.unexpectedSymbol ((String.utf8EncodeChar first).headD 0), 0⟩

/-- Reads a bracket: a long string if a long bracket opens here. -/
def readBracket (rest : List Char) : Except Fault Lexeme :=
  match openingLevel rest with
  | some level =>
    match longBodyLength level (rest.drop (level + 1)) 0 with
    | some length =>
      let tail := length + 2 * (level + 2) - 1
      .ok ⟨.token (.string (textOf '[' rest tail)), tail⟩
    | none => .error ⟨.unfinishedLongString, 0⟩
  | none => readSymbol '[' rest

def readQuoted (quote : Char) (rest : List Char) : Except Fault Lexeme :=
  match quotedLength quote rest 0 with
  | some tail => .ok ⟨.token (.string (textOf quote rest tail)), tail⟩
  | none => .error ⟨.unfinishedString, 0⟩

def readNumeral (first : Char) (rest : List Char) : Except Fault Lexeme :=
  let tail := numeralTail first rest
  if (rest.drop tail).head?.any continuesName then .error ⟨.malformedNumber, 0⟩
  else .ok ⟨.token (.number (textOf first rest tail)), tail⟩

def readWord (first : Char) (rest : List Char) : Lexeme :=
  let tail := countWhile continuesName rest
  ⟨.token (.ofWord (textOf first rest tail)), tail⟩

/-- Reads the lexeme that starts with a character and what follows it. -/
def read (first : Char) (rest : List Char) : Except Fault Lexeme :=
  if isBlank first then .ok ⟨.blank, countWhile isBlank rest⟩
  else if first = '-' && rest.head? = some '-' then readComment rest.tail
  else if first = '"' || first = '\'' then readQuoted first rest
  else if first = '[' then readBracket rest
  else if first.isDigit || (first = '.' && rest.head?.any Char.isDigit) then readNumeral first rest
  else if startsName first then .ok (readWord first rest)
  else readSymbol first rest

end Lexeme
end LuaMinifier
