import LuaMinifier.Token.Lexeme

/-!
Separators: where a space has to stand between two pieces of code so that their tokens stay apart. The rule looks
at the last two characters on the left and at the first one on the right.
-/

namespace LuaMinifier

structure Tail where
  last : Option Char
  beforeLast : Option Char
deriving DecidableEq, Repr

namespace Tail

def none : Tail := ⟨.none, .none⟩

def ofChars (text : List Char) : Tail :=
  match text.reverse with
  | [] => ⟨.none, .none⟩
  | [last] => ⟨some last, .none⟩
  | last :: beforeLast :: _ => ⟨some last, some beforeLast⟩

def append (first second : Tail) : Tail :=
  match second with
  | ⟨.none, _⟩ => first
  | ⟨some last, .none⟩ => ⟨some last, first.last⟩
  | _ => second

end Tail

open Lexeme in
/-- Whether a character directly behind a tail would change the tokens. -/
def fuses (tail : Tail) (last next : Char) : Bool :=
  if startsName last then continuesName next
  else if last.isDigit then next ≠ '(' && (next = '.' || startsName next)
  else
    match last, next with
    | '-', '-' => true
    | '.', '.' => true
    | '.', _ => tail.beforeLast ≠ some '.' && continuesName next
    | '[', '[' => true
    | '[', '=' => true
    | _, _ => false

/-- Whether a space is needed between a text with a tail and a text that starts with a character. -/
def needsSeparator (tail : Tail) (next : Option Char) : Bool :=
  match tail.last, next with
  | some last, some next => fuses tail last next
  | _, _ => false

end LuaMinifier
