/-!
Tokens of YAML: blocks opened and closed by indentation, brackets, keys, values and scalars. A key is only known as
one when its colon is met, so the place where it may start is remembered and marked later. Anchors, aliases, tags,
directives and block scalars are not read.
-/

namespace LuaMinifier
namespace Yaml

inductive Token
  | documentStart
  | documentEnd
  | blockSequence
  | blockMapping
  | blockEnd
  | openBracket
  | closeBracket
  | openBrace
  | closeBrace
  | entry
  | comma
  | key
  | value
  | scalar (isPlain : Bool) (text : String)
deriving DecidableEq, Repr

def isBlank (character : Char) : Bool := character = ' ' || character = '\t'

def isBreak (character : Char) : Bool :=
  character = '\n' || character = '\r' || character = '\x85' || character = '\u2028' || character = '\u2029'

/-- Whether the next character is a blank, a line break or the end of the text. -/
def atBlank (text : List Char) : Bool := text.head?.all fun character => isBlank character || isBreak character

def atDocumentMark : List Char → Bool
  | '-' :: '-' :: '-' :: rest => atBlank rest
  | '.' :: '.' :: '.' :: rest => atBlank rest
  | _ => false

def isAllowed (character : Char) : Bool :=
  let code := character.toNat
  code = 9 || code = 10 || code = 13 || (32 ≤ code && code ≤ 126) || code = 0x85 ||
    (0xA0 ≤ code && code ≤ 0xD7FF) || (0xE000 ≤ code && code ≤ 0xFFFD) || 0x10000 ≤ code

/-- A place where a key may start. A required key has to be one, because nothing else can stand there. -/
structure KeyMark where
  required : Bool
  /-- How many tokens stand before the key. -/
  number : Nat
  index : Nat
  line : Nat
  column : Nat
deriving DecidableEq, Repr

/-- The tokens read so far, the latest first, and how many they are. -/
structure Emitted where
  latest : List Token
  count : Nat
deriving DecidableEq, Repr

namespace Emitted

def empty : Emitted := ⟨[], 0⟩

def push (tokens : Emitted) (token : Token) : Emitted := ⟨token :: tokens.latest, tokens.count + 1⟩

def insertAt (tokens : Emitted) (number : Nat) (token : Token) : Emitted :=
  let later := tokens.count - number
  ⟨tokens.latest.take later ++ token :: tokens.latest.drop later, tokens.count + 1⟩

def toList (tokens : Emitted) : List Token := tokens.latest.reverse

end Emitted

structure Scanner where
  rest : List Char
  /-- No loop over the text takes more steps than this. -/
  bound : Nat
  index : Nat
  line : Nat
  column : Nat
  /-- The column of the innermost block, if one is open. -/
  indent : Option Nat
  /-- The columns of the blocks around it. -/
  outer : List (Option Nat)
  /-- Whether a key may start here. -/
  keyAllowed : Bool
  /-- The place where a key may have started, for each open bracket and for the text outside of them. -/
  keys : List (Option KeyMark)
  tokens : Emitted
deriving Repr

namespace Scanner

def ofText (text : List Char) : Scanner := ⟨text, text.length + 1, 0, 0, 0, none, [], true, [none], .empty⟩

/-- Inside brackets indentation means nothing. -/
def inFlow (scanner : Scanner) : Bool := 1 < scanner.keys.length

/-- Moves on by one character. A carriage return and a line feed are one line break. -/
def next (scanner : Scanner) : Scanner :=
  match scanner.rest with
  | [] => scanner
  | character :: rest =>
    if isBreak character && !(character = '\r' && rest.head? = some '\n') then
      { scanner with rest := rest, index := scanner.index + 1, line := scanner.line + 1, column := 0 }
    else { scanner with rest := rest, index := scanner.index + 1, column := scanner.column + 1 }

def skip : Nat → Scanner → Scanner
  | 0, scanner => scanner
  | count + 1, scanner => skip count scanner.next

def emit (scanner : Scanner) (token : Token) : Scanner := { scanner with tokens := scanner.tokens.push token }

def insertAt (scanner : Scanner) (number : Nat) (token : Token) : Scanner :=
  { scanner with tokens := scanner.tokens.insertAt number token }

def allowKey (scanner : Scanner) (allowed : Bool) : Scanner := { scanner with keyAllowed := allowed }

/-- A mark for the byte order, which means nothing at the start of a line. -/
def byteOrderMark : Char := '\ufeff'

/-- Skips blanks, comments and line breaks, and a mark for the byte order at the start of a line; such a mark takes a
column of its own. A tab may not stand where a key could start. -/
def toToken : Nat → Bool → Scanner → Scanner
  | 0, _, scanner => scanner
  | steps + 1, inComment, scanner =>
    match scanner.rest with
    | [] => scanner
    | character :: _ =>
      if isBreak character then
        let after := scanner.next
        toToken steps false (if after.inFlow then after else after.allowKey true)
      else if inComment || character = '#' then toToken steps true scanner.next
      else if character = byteOrderMark && scanner.column = 0 then toToken steps false scanner.next
      else if character = ' ' || (character = '\t' && (scanner.inFlow || !scanner.keyAllowed)) then
        toToken steps false scanner.next
      else scanner

/-- Whether a key that started at a mark can no longer be followed by its colon. -/
def isStale (scanner : Scanner) (mark : KeyMark) : Bool :=
  mark.line < scanner.line || mark.index + 1024 < scanner.index

/-- Forgets marks that are stale; a required key must not be among them. -/
def dropStale (scanner : Scanner) : Option Scanner := do
  let keys ← scanner.keys.mapM fun mark? =>
    match mark? with
    | none => some none
    | some mark => if scanner.isStale mark then (if mark.required then none else some none) else some (some mark)
  return { scanner with keys := keys }

/-- Forgets the innermost mark; it must not be a required one. -/
def dropKey (scanner : Scanner) : Option Scanner :=
  match scanner.keys with
  | some mark :: outer => if mark.required then none else some { scanner with keys := none :: outer }
  | _ => some scanner

def markKey (scanner : Scanner) : Option Scanner :=
  if scanner.keyAllowed then do
    let cleared ← scanner.dropKey
    let required := !scanner.inFlow && scanner.indent = some scanner.column
    let mark := ⟨required, scanner.tokens.count, scanner.index, scanner.line, scanner.column⟩
    return { cleared with keys := some mark :: cleared.keys.tail }
  else some scanner

/-- Closes every block that is indented more than a column; without a column, all of them. -/
def closeBlocks (column : Option Nat) (indent : Option Nat) (outer : List (Option Nat)) (tokens : Emitted) :
    Option Nat × List (Option Nat) × Emitted :=
  let deeper : Bool :=
    match indent, column with
    | some depth, some column => column < depth
    | some _, none => true
    | none, _ => false
  match outer with
  | enclosing :: further =>
    if deeper then closeBlocks column enclosing further (tokens.push .blockEnd) else (indent, outer, tokens)
  | [] => (indent, outer, tokens)

def unroll (column : Option Nat) (scanner : Scanner) : Scanner :=
  if scanner.inFlow then scanner
  else
    let (indent, outer, tokens) := closeBlocks column scanner.indent scanner.outer scanner.tokens
    { scanner with indent := indent, outer := outer, tokens := tokens }

/-- Opens a block at a column if it is indented more than the block around it. Its token goes behind a number of
others. -/
def roll (scanner : Scanner) (column number : Nat) (token : Token) : Scanner :=
  if !scanner.inFlow && scanner.indent.all (· < column) then
    { scanner with indent := some column, outer := scanner.indent :: scanner.outer }.insertAt number token
  else scanner

/-- What stands between two words of a scalar: blanks, or line breaks, of which the first is folded. -/
structure Gap where
  blanks : List Char
  isBroken : Bool
  leading : List Char
  trailing : List Char

namespace Gap

def none : Gap := ⟨[], false, [], []⟩

/-- A line break that was escaped leaves nothing. -/
def escapedBreak : Gap := ⟨[], true, [], []⟩

def isNone (gap : Gap) : Bool := gap.blanks.isEmpty && !gap.isBroken

def addBlank (gap : Gap) (character : Char) : Gap :=
  if gap.isBroken then gap else { gap with blanks := gap.blanks ++ [character] }

/-- Adds a line break; a carriage return before a line feed is part of it. -/
def addBreak (gap : Gap) (character : Char) (rest : List Char) : Gap :=
  if character = '\r' && rest.head? = some '\n' then gap
  else
    let text := if character = '\u2028' || character = '\u2029' then [character] else ['\n']
    if gap.isBroken then { gap with trailing := gap.trailing ++ text } else ⟨[], true, text, []⟩

/-- What is left of the gap in the scalar. -/
def text (gap : Gap) : List Char :=
  if gap.isBroken then
    if gap.leading = ['\n'] then (if gap.trailing.isEmpty then [' '] else gap.trailing)
    else gap.leading ++ gap.trailing
  else gap.blanks

end Gap

/-- Characters that end a plain scalar inside brackets. -/
def isFlowIndicator (character : Char) : Bool :=
  character = ',' || character = '[' || character = ']' || character = '{' || character = '}'

/-- Reads a plain scalar. A gap may be followed by less indented text, a document mark or a comment, which end it. -/
def readPlain (indent : Nat) : Nat → Scanner → List Char → Gap → Option (Scanner × List Char)
  | 0, _, _, _ => none
  | steps + 1, scanner, text, gap =>
    let finished := some (if gap.isBroken then scanner.allowKey true else scanner, text.reverse)
    match scanner.rest with
    | [] => finished
    | character :: rest =>
      if isBlank character then
        if gap.isBroken && character = '\t' && scanner.column < indent then none
        else readPlain indent steps scanner.next text (gap.addBlank character)
      else if isBreak character then readPlain indent steps scanner.next text (gap.addBreak character rest)
      else if !gap.isNone && ((!scanner.inFlow && scanner.column < indent) || character = '#'
          || (scanner.column = 0 && atDocumentMark scanner.rest)) then finished
      else if scanner.inFlow && character = ':' && rest.head?.any (fun c => c = '?' || isFlowIndicator c) then none
      else if (character = ':' && atBlank rest) || (scanner.inFlow && isFlowIndicator character) then finished
      else readPlain indent steps scanner.next (character :: (gap.text.reverse ++ text)) .none

def hexValue (character : Char) : Option Nat :=
  if character.isDigit then some (character.toNat - '0'.toNat)
  else if 'a' ≤ character && character ≤ 'f' then some (character.toNat - 'a'.toNat + 10)
  else if 'A' ≤ character && character ≤ 'F' then some (character.toNat - 'A'.toNat + 10)
  else none

/-- The character with the code that some hexadecimal digits write. -/
def ofHex (digits : List Char) (length : Nat) : Option Char := do
  let values ← digits.mapM hexValue
  let code := values.foldl (fun code value => 16 * code + value) 0
  if digits.length = length && code.isValidChar then some (Char.ofNat code) else none

/-- The character that stands behind a backslash, and how many characters write it. -/
def escaped (character : Char) (rest : List Char) : Option (Char × Nat) :=
  match character with
  | '0' => some ('\x00', 1)
  | 'a' => some ('\x07', 1)
  | 'b' => some ('\x08', 1)
  | 't' => some ('\t', 1)
  | '\t' => some ('\t', 1)
  | 'n' => some ('\n', 1)
  | 'v' => some ('\x0b', 1)
  | 'f' => some ('\x0c', 1)
  | 'r' => some ('\r', 1)
  | 'e' => some ('\x1b', 1)
  | ' ' => some (' ', 1)
  | '"' => some ('"', 1)
  | '/' => some ('/', 1)
  | '\\' => some ('\\', 1)
  | 'N' => some ('\x85', 1)
  | '_' => some ('\xa0', 1)
  | 'L' => some ('\u2028', 1)
  | 'P' => some ('\u2029', 1)
  | 'x' => (ofHex (rest.take 2) 2).map (·, 3)
  | 'u' => (ofHex (rest.take 4) 4).map (·, 5)
  | 'U' => (ofHex (rest.take 8) 8).map (·, 9)
  | _ => none

/-- Reads a quoted scalar behind its opening quote. In single quotes only the quote itself is escaped, by writing it
twice. -/
def readQuoted (quote : Char) : Nat → Scanner → List Char → Gap → Option (Scanner × List Char)
  | 0, _, _, _ => none
  | steps + 1, scanner, text, gap =>
    if scanner.column = 0 && atDocumentMark scanner.rest then none
    else
      match scanner.rest with
      | [] => none
      | character :: rest =>
        let joined := gap.text.reverse ++ text
        if isBlank character then readQuoted quote steps scanner.next text (gap.addBlank character)
        else if isBreak character then readQuoted quote steps scanner.next text (gap.addBreak character rest)
        else if character = quote then
          if quote = '\'' && rest.head? = some '\'' then readQuoted quote steps (scanner.skip 2) ('\'' :: joined) .none
          else some (scanner.next, joined.reverse)
        else if quote = '"' && character = '\\' then
          match rest with
          | [] => none
          | following :: further =>
            if isBreak following then
              let length := if following = '\r' && further.head? = some '\n' then 3 else 2
              readQuoted quote steps (scanner.skip length) joined .escapedBreak
            else
              match escaped following further with
              | some (meant, length) => readQuoted quote steps (scanner.skip (length + 1)) (meant :: joined) .none
              | none => none
        else readQuoted quote steps scanner.next (character :: joined) .none

def readScalar (scanner : Scanner) (first : Char) : Option Scanner := do
  let marked ← scanner.markKey
  let start := marked.allowKey false
  let steps := start.bound
  if first = '"' || first = '\'' then
    let (after, text) ← readQuoted first steps start.next [] .none
    return after.emit (.scalar false (String.ofList text))
  else
    let indent := (start.indent.map (· + 1)).getD 0
    let (after, text) ← readPlain indent steps start [] .none
    return after.emit (.scalar true (String.ofList text))

def readDocumentMark (scanner : Scanner) (token : Token) : Option Scanner := do
  let closed ← (scanner.unroll none).dropKey
  return ((closed.allowKey false).emit token).skip 3

def readOpening (scanner : Scanner) (token : Token) : Option Scanner := do
  let marked ← scanner.markKey
  return ({ marked with keys := none :: marked.keys, keyAllowed := true }.emit token).next

def readClosing (scanner : Scanner) (token : Token) : Option Scanner := do
  let closed ← scanner.dropKey
  let keys := if closed.inFlow then closed.keys.tail else closed.keys
  return ({ closed with keys := keys, keyAllowed := false }.emit token).next

/-- Reads the mark of an entry or of a key, which may open a block. -/
def readIndicator (scanner : Scanner) (block token : Token) (keyAllowed : Bool) : Option Scanner := do
  if !scanner.inFlow && !scanner.keyAllowed then none
  let rolled := scanner.roll scanner.column scanner.tokens.count block
  let cleared ← rolled.dropKey
  return ((cleared.allowKey keyAllowed).emit token).next

/-- Reads the colon of a value. If a key may have started, it is marked now, and a block may open in front of it. -/
def readValue (scanner : Scanner) : Option Scanner :=
  match scanner.keys with
  | some mark :: outer =>
    let keyed := { scanner with keys := none :: outer }.insertAt mark.number .key
    let rolled := keyed.roll mark.column mark.number .blockMapping
    some ((rolled.allowKey false).emit .value).next
  | _ =>
    if !scanner.inFlow && !scanner.keyAllowed then none
    else
      let rolled := scanner.roll scanner.column scanner.tokens.count .blockMapping
      some ((rolled.allowKey (!scanner.inFlow)).emit .value).next

def isIndicator (character : Char) : Bool := "-?:,[]\x7b\x7d#&*!|>'\"%@`".toList.contains character

def startsPlain (scanner : Scanner) (character : Char) (rest : List Char) : Bool :=
  !(isBlank character || isBreak character || isIndicator character) ||
    (character = '-' && !rest.head?.any isBlank) ||
    (!scanner.inFlow && (character = '?' || character = ':') && !atBlank rest)

def readToken (scanner : Scanner) (character : Char) (rest : List Char) : Option Scanner :=
  if scanner.column = 0 && character = '%' then none
  else if scanner.column = 0 && atDocumentMark scanner.rest then
    scanner.readDocumentMark (if character = '-' then .documentStart else .documentEnd)
  else if character = '[' then scanner.readOpening .openBracket
  else if character = '{' then scanner.readOpening .openBrace
  else if character = ']' then scanner.readClosing .closeBracket
  else if character = '}' then scanner.readClosing .closeBrace
  else if character = ',' then do
    let cleared ← scanner.dropKey
    return ((cleared.allowKey true).emit .comma).next
  else if character = '-' && atBlank rest then scanner.readIndicator .blockSequence .entry true
  else if character = '?' && (scanner.inFlow || atBlank rest) then
    scanner.readIndicator .blockMapping .key (!scanner.inFlow)
  else if character = ':' && (scanner.inFlow || atBlank rest) then scanner.readValue
  else if character = '"' || character = '\'' || scanner.startsPlain character rest then
    scanner.readScalar character
  else none

def readAll : Nat → Scanner → Option (List Token)
  | 0, _ => none
  | steps + 1, scanner => do
    let current ← (scanner.toToken scanner.bound false).dropStale
    let ready := current.unroll (some current.column)
    match ready.rest with
    | [] =>
      let finished ← (ready.unroll none).dropKey
      return finished.tokens.toList
    | character :: rest => readAll steps (← ready.readToken character rest)

end Scanner

/-- The tokens of a text, if it has only allowed characters and every token can be read. -/
def tokens? (source : String) : Option (List Token) :=
  let text := source.toList
  if text.all isAllowed then (Scanner.ofText text).readAll (text.length + 1) else none

end Yaml
end LuaMinifier
