/-!
Positions in a source text: a line, counted from one, and a column, counted in UTF-8 bytes from zero.
Only a line feed ends a line.
-/

namespace LuaMinifier

structure Position where
  line : Nat
  column : Nat
deriving DecidableEq, Repr, Inhabited

namespace Position

/-- Every text starts on line one, column zero. -/
def start : Position := ⟨1, 0⟩

def step (position : Position) (character : Char) : Position :=
  if character = '\n' then ⟨position.line + 1, 0⟩
  else ⟨position.line, position.column + character.utf8Size⟩

def after (position : Position) (text : List Char) : Position :=
  text.foldl step position

@[simp] theorem after_nil (position : Position) : position.after [] = position := rfl

@[simp] theorem after_cons (position : Position) (character : Char) (rest : List Char) :
    position.after (character :: rest) = (position.step character).after rest := rfl

@[simp] theorem after_append (position : Position) (first second : List Char) :
    position.after (first ++ second) = (position.after first).after second := by
  simp [after, List.foldl_append]

def toText (position : Position) : String := s!"{position.line}:{position.column}"

end Position
end LuaMinifier
