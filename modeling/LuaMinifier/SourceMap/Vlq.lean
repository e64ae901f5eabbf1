import LuaMinifier.Text.Base64

/-!
Variable-length quantities: an integer is written in digits of five bits, the lowest first, with a sixth bit that
says whether more digits follow. The lowest bit of all is the sign.
-/

namespace LuaMinifier
namespace Vlq

def ofInt : Int → Nat
  | .ofNat value => 2 * value
  | .negSucc value => 2 * (value + 1) + 1

def digits (value : Nat) : List Nat :=
  if value < 32 then [value] else (value % 32 + 32) :: digits (value / 32)

def encode (value : Int) : List Char := (digits (ofInt value)).map Base64.symbol

end Vlq
end LuaMinifier
