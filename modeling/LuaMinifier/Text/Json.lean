/-!
Compact JSON text.
-/

namespace LuaMinifier
namespace Json

def hexDigit (value : Nat) : Char :=
  if value < 10 then Char.ofNat ('0'.toNat + value) else Char.ofNat ('a'.toNat + (value - 10))

/-- How a character is written in a string: quotes, backslashes and control characters are escaped. -/
def escape (character : Char) : List Char :=
  if character = '"' then ['\\', '"']
  else if character = '\\' then ['\\', '\\']
  else if character = '\x08' then ['\\', 'b']
  else if character = '\x0c' then ['\\', 'f']
  else if character = '\n' then ['\\', 'n']
  else if character = '\r' then ['\\', 'r']
  else if character = '\t' then ['\\', 't']
  else if character.toNat < 32 then
    ['\\', 'u', '0', '0', hexDigit (character.toNat / 16), hexDigit (character.toNat % 16)]
  else [character]

def string (text : String) : String := String.ofList ('"' :: text.toList.flatMap escape ++ ['"'])

def stringOrNull : Option String → String
  | some text => string text
  | none => "null"

def array (items : List String) : String := "[" ++ ",".intercalate items ++ "]"

/-- An object; its fields keep their order. -/
def object (fields : List (String × String)) : String :=
  "\x7b" ++ ",".intercalate (fields.map fun (key, value) => string key ++ ":" ++ value) ++ "\x7d"

end Json
end LuaMinifier
