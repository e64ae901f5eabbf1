/-!
The odometer of short names. It counts through all names, the shorter ones first; the symbols of a name are digits,
letters and the underscore, and a name never starts with a digit.
-/

namespace LuaMinifier

/-- A symbol by its place in the alphabet: digits, lower case, upper case, underscore. -/
def nameSymbol (index : Fin 63) : Char :=
  if index.val < 10 then Char.ofNat ('0'.toNat + index.val)
  else if index.val < 36 then Char.ofNat ('a'.toNat + (index.val - 10))
  else if index.val < 62 then Char.ofNat ('A'.toNat + (index.val - 36))
  else '_'

/-- The counter: the alphabet places of the current name, the last symbol first. -/
structure Odometer where
  places : List (Fin 63)
deriving DecidableEq, Repr

namespace Odometer

/-- Before the first name. -/
def start : Odometer := ⟨[]⟩

/-- Steps the first place that has room and sets the places before it back to zero. -/
def increment : List (Fin 63) → Option (List (Fin 63))
  | [] => none
  | place :: rest =>
    if room : place.val + 1 < 63 then some (⟨place.val + 1, room⟩ :: rest)
    else (increment rest).map (0 :: ·)

/-- The next name. When no place has room, names grow by one symbol and start again with the first letter. -/
def advance (odometer : Odometer) : Odometer :=
  match increment odometer.places with
  | some places => ⟨places⟩
  | none => ⟨List.replicate odometer.places.length 0 ++ [10]⟩

def current (odometer : Odometer) : String := String.ofList (odometer.places.reverse.map nameSymbol)

end Odometer
end LuaMinifier
