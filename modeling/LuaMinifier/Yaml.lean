import LuaMinifier.Yaml.Token

/-!
YAML documents as trees of scalars, sequences and mappings. Readers take fuel, which bounds how deep they call each
other; a fixed multiple of the number of tokens is enough.
-/

namespace LuaMinifier

/-- A document. A scalar remembers whether it was written without quotes. -/
inductive Yaml
  | scalar (isPlain : Bool) (text : String)
  | sequence (items : List Yaml)
  | mapping (pairs : List (Yaml × Yaml))

namespace Yaml

def nothing : Yaml := .scalar true ""

/-- Tokens behind which a part of a block mapping is left out. -/
def endsPart : List Token → Bool
  | .key :: _ | .value :: _ | .blockEnd :: _ => true
  | _ => false

/-- Whether an item or a value between brackets is left out here. -/
def endsFlowItem (close : Token) : List Token → Bool
  | token :: _ => token = .comma || token = close
  | [] => false

/-- Whether a key between brackets is left out here. -/
def endsFlowKey (close : Token) (tokens : List Token) : Bool :=
  tokens.head? = some .value || endsFlowItem close tokens

mutual

/-- A node. Outside of brackets it can be a block; directly below a key its entries need no indentation. -/
def node : Nat → Bool → Bool → List Token → Option (Yaml × List Token)
  | 0, _, _, _ => none
  | fuel + 1, block, indentless, tokens =>
    match tokens with
    | .scalar isPlain text :: rest => some (.scalar isPlain text, rest)
    | .openBracket :: rest => (flowSequence fuel true rest).map fun (items, rest) => (.sequence items, rest)
    | .openBrace :: rest => (flowMapping fuel true rest).map fun (pairs, rest) => (.mapping pairs, rest)
    | .entry :: _ =>
      if indentless then (entries fuel tokens).map fun (items, rest) => (.sequence items, rest) else none
    | .blockSequence :: rest =>
      if block then (blockSequence fuel rest).map fun (items, rest) => (.sequence items, rest) else none
    | .blockMapping :: rest =>
      if block then (blockMapping fuel rest).map fun (pairs, rest) => (.mapping pairs, rest) else none
    | _ => none

def blockSequence : Nat → List Token → Option (List Yaml × List Token)
  | 0, _ => none
  | fuel + 1, tokens =>
    match tokens with
    | .blockEnd :: rest => some ([], rest)
    | .entry :: rest => do
      let (item, rest) ←
        match rest with
        | .entry :: _ | .blockEnd :: _ => some (nothing, rest)
        | _ => node fuel true false rest
      let (items, rest) ← blockSequence fuel rest
      return (item :: items, rest)
    | _ => none

/-- Entries that are not indented more than the key above them. -/
def entries : Nat → List Token → Option (List Yaml × List Token)
  | 0, _ => none
  | fuel + 1, tokens =>
    match tokens with
    | .entry :: rest => do
      let (item, rest) ←
        match rest with
        | .entry :: _ => some (nothing, rest)
        | _ => if endsPart rest then some (nothing, rest) else node fuel true false rest
      let (items, rest) ← entries fuel rest
      return (item :: items, rest)
    | _ => some ([], tokens)

def blockMapping : Nat → List Token → Option (List (Yaml × Yaml) × List Token)
  | 0, _ => none
  | fuel + 1, tokens =>
    match tokens with
    | .blockEnd :: rest => some ([], rest)
    | .key :: rest => do
      let (key, rest) ← if endsPart rest then some (nothing, rest) else node fuel true true rest
      let (value, rest) ←
        match rest with
        | .value :: rest => if endsPart rest then some (nothing, rest) else node fuel true true rest
        | _ => some (nothing, rest)
      let (pairs, rest) ← blockMapping fuel rest
      return ((key, value) :: pairs, rest)
    | _ => none

/-- The items between square brackets. A key there is a mapping with one pair; where it is left out, the token that
stands in its place is passed over. -/
def flowSequence : Nat → Bool → List Token → Option (List Yaml × List Token)
  | 0, _, _ => none
  | fuel + 1, isFirst, tokens =>
    match tokens with
    | .closeBracket :: rest => some ([], rest)
    | _ => do
      let tokens ← if isFirst then some tokens else afterComma tokens
      match tokens with
      | .closeBracket :: rest => return ([], rest)
      | .key :: rest =>
        let (key, rest) ←
          if endsFlowKey .closeBracket rest then some (nothing, rest.tail)
          else node fuel false false rest
        let (value, rest) ← flowValue fuel .closeBracket rest
        let (items, rest) ← flowSequence fuel false rest
        return (.mapping [(key, value)] :: items, rest)
      | _ =>
        let (item, rest) ← node fuel false false tokens
        let (items, rest) ← flowSequence fuel false rest
        return (item :: items, rest)

def flowMapping : Nat → Bool → List Token → Option (List (Yaml × Yaml) × List Token)
  | 0, _, _ => none
  | fuel + 1, isFirst, tokens =>
    match tokens with
    | .closeBrace :: rest => some ([], rest)
    | _ => do
      let tokens ← if isFirst then some tokens else afterComma tokens
      match tokens with
      | .closeBrace :: rest => return ([], rest)
      | .key :: rest =>
        let (key, rest) ←
          if endsFlowKey .closeBrace rest then some (nothing, rest)
          else node fuel false false rest
        let (value, rest) ← flowValue fuel .closeBrace rest
        let (pairs, rest) ← flowMapping fuel false rest
        return ((key, value) :: pairs, rest)
      | _ =>
        let (key, rest) ← node fuel false false tokens
        let (pairs, rest) ← flowMapping fuel false rest
        return ((key, nothing) :: pairs, rest)

/-- The value behind a key between brackets, if one is written. -/
def flowValue : Nat → Token → List Token → Option (Yaml × List Token)
  | 0, _, _ => none
  | fuel + 1, close, tokens =>
    match tokens with
    | .value :: rest => if endsFlowItem close rest then some (nothing, rest) else node fuel false false rest
    | _ => some (nothing, tokens)

def afterComma : List Token → Option (List Token)
  | .comma :: rest => some rest
  | _ => none

end

def content (fuel : Nat) : List Token → Option (Yaml × List Token)
  | [] => some (nothing, [])
  | .documentStart :: rest => some (nothing, .documentStart :: rest)
  | .documentEnd :: rest => some (nothing, .documentEnd :: rest)
  | tokens => node fuel true false tokens

def parse? (source : String) : Option Yaml := do
  let tokens ← tokens? source
  let fuel := 4 * tokens.length + 4
  let (document, rest) ←
    match tokens with
    | [] => some (nothing, [])
    | .documentStart :: rest => content fuel rest
    | _ => node fuel true false tokens
  if (rest.dropWhile (· = .documentEnd)).isEmpty then some document else none

def text? : Yaml → Option String
  | .scalar _ text => some text
  | _ => none

def bool? : Yaml → Option Bool
  | .scalar true text =>
    if text = "true" || text = "True" || text = "TRUE" then some true
    else if text = "false" || text = "False" || text = "FALSE" then some false
    else none
  | _ => none

/-- The ways to write that there is no value. -/
def isNull (text : String) : Bool :=
  text = "" || text = "~" || text = "null" || text = "Null" || text = "NULL"

/-- The text of a scalar that may say that there is none. -/
def optionalText? : Yaml → Option (Option String)
  | .scalar true text => some (if isNull text then none else some text)
  | .scalar false text => some (some text)
  | _ => none

/-- The items of a sequence; where nothing is written there are none. -/
def items? : Yaml → Option (List Yaml)
  | .sequence items => some items
  | .scalar true "" => some []
  | _ => none

/-- The keys and values of a mapping whose keys are scalars; where nothing is written there are none. -/
def fields? : Yaml → Option (List (String × Yaml))
  | .mapping pairs => pairs.mapM fun (key, value) => key.text?.map (·, value)
  | .scalar true "" => some []
  | _ => none

end Yaml
end LuaMinifier
