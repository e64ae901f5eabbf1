/-!
Base 64: three bytes are written as four symbols of six bits each, and a shorter end is filled up with `=`.
-/

namespace LuaMinifier
namespace Base64

def symbol (value : Nat) : Char :=
  if value < 26 then Char.ofNat ('A'.toNat + value)
  else if value < 52 then Char.ofNat ('a'.toNat + (value - 26))
  else if value < 62 then Char.ofNat ('0'.toNat + (value - 52))
  else if value = 62 then '+'
  else '/'

def encode : List UInt8 → List Char
  | first :: second :: third :: rest =>
    let value := first.toNat * 65536 + second.toNat * 256 + third.toNat
    symbol (value / 262144) :: symbol (value / 4096 % 64) :: symbol (value / 64 % 64) :: symbol (value % 64)
      :: encode rest
  | [first, second] =>
    let value := first.toNat * 1024 + second.toNat * 4
    [symbol (value / 4096), symbol (value / 64 % 64), symbol (value % 64), '=']
  | [first] =>
    let value := first.toNat * 16
    [symbol (value / 64), symbol (value % 64), '=', '=']
  | [] => []

def ofText (text : String) : String := String.ofList (encode text.toUTF8.toList)

end Base64
end LuaMinifier
