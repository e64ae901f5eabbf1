import LuaMinifier.Chunk

/-!
Static requires: the modules that a chunk names by a string in a call of the global `require`.
-/

namespace LuaMinifier

/-- The value between the quotes of a string that uses only the plainest escapes. -/
def unescape : List Char → Option (List Char)
  | [] => some []
  | '\\' :: 'n' :: rest => (unescape rest).map ('\n' :: ·)
  | '\\' :: 't' :: rest => (unescape rest).map ('\t' :: ·)
  | '\\' :: '\\' :: rest => (unescape rest).map ('\\' :: ·)
  | '\\' :: '"' :: rest => (unescape rest).map ('"' :: ·)
  | '\\' :: '\'' :: rest => (unescape rest).map ('\'' :: ·)
  | character :: rest => if character = '\\' then none else (unescape rest).map (character :: ·)

/-- How many characters take up a number of bytes, if a character ends there. -/
def charsInBytes : Nat → List Char → Option Nat
  | 0, _ => some 0
  | _ + 1, [] => none
  | bytes + 1, character :: rest =>
    if character.utf8Size ≤ bytes + 1 then
      (charsInBytes (bytes + 1 - character.utf8Size) rest).map (· + 1)
    else none

/-- The characters between two byte positions of a text, if characters end at both. -/
def sliceBytes (first stop : Nat) (text : List Char) : Option (List Char) := do
  if first ≤ stop then
    let before ← charsInBytes first text
    let rest := text.drop before
    let length ← charsInBytes (stop - first) rest
    return rest.take length
  else none

/-- A line break directly behind an opening long bracket is not part of the string. -/
def dropFirstBreak : List Char → List Char
  | '\r' :: '\n' :: rest => rest
  | '\n' :: rest => rest
  | text => text

def byteCount (text : List Char) : Nat := text.foldr (fun character count => character.utf8Size + count) 0

/-- The value of a string token, if it uses only the plainest escapes. -/
def stringValue (raw : String) : Option String :=
  let text := raw.toList
  match text with
  | [] => none
  | first :: rest =>
    if first = '"' || first = '\'' then
      (sliceBytes 1 (byteCount text - 1) text).bind unescape |>.map String.ofList
    else if first.utf8Size = 1 then
      let opening := (rest.takeWhile (· = '=')).length + 2
      if opening ≤ byteCount text then
        (sliceBytes opening (byteCount text - opening) text).map fun body => String.ofList (dropFirstBreak body)
      else none
    else none

/-- The module that a call names: the callee is the global `require` and the argument is a string. -/
def requiredBy (callee : Expr Identifier) (raw : String) : Option String :=
  match callee with
  | .identifier _ identifier =>
    if !identifier.isLocal && identifier.name = "require" then stringValue raw else none
  | _ => none

mutual

/-- The modules that calls in an expression name, in source order. -/
def Expr.requires : Expr Identifier → List String
  | .identifier .. => []
  | .literal .. => []
  | .binary _ _ left right => left.requires ++ right.requires
  | .unary _ _ operand => operand.requires
  | .call _ callee [.literal _ .string raw] => (requiredBy callee raw).toList ++ callee.requires
  | .call _ callee arguments => callee.requires ++ Expr.requiresAll arguments
  | .callTable _ callee _ fields => callee.requires ++ Field.requiresAll fields
  | .callString _ callee _ raw => (requiredBy callee raw).toList ++ callee.requires
  | .index _ base key => base.requires ++ key.requires
  | .member _ base _ _ => base.requires
  | .function _ _ body => body.requires
  | .table _ fields => Field.requiresAll fields

def Expr.requiresAll : List (Expr Identifier) → List String
  | [] => []
  | expression :: rest => expression.requires ++ Expr.requiresAll rest

def Field.requires : Field Identifier → List String
  | .keyed key value => key.requires ++ value.requires
  | .named _ value => value.requires
  | .item value => value.requires

def Field.requiresAll : List (Field Identifier) → List String
  | [] => []
  | field :: rest => field.requires ++ Field.requiresAll rest

def Stat.requires : Stat Identifier → List String
  | .assign _ targets values => Expr.requiresAll targets ++ Expr.requiresAll values
  | .localVars _ _ values => Expr.requiresAll values
  | .call _ call => call.requires
  | .cond _ condition body rest => condition.requires ++ body.requires ++ rest.requires
  | .whileLoop _ condition body => condition.requires ++ body.requires
  | .doBlock _ body => body.requires
  | .breakLoop _ => []
  | .repeatLoop _ body condition => body.requires ++ condition.requires
  | .function _ _ _ body => body.requires
  | .localFunction _ _ _ body => body.requires
  | .numericFor _ _ first limit none body => first.requires ++ limit.requires ++ body.requires
  | .numericFor _ _ first limit (some step) body =>
    first.requires ++ limit.requires ++ step.requires ++ body.requires
  | .genericFor _ _ iterators body => Expr.requiresAll iterators ++ body.requires
  | .label .. => []
  | .goto .. => []

def Else.requires : Else Identifier → List String
  | .none => []
  | .otherwise _ body => body.requires
  | .elseif _ condition body rest => condition.requires ++ body.requires ++ rest.requires

def Block.requires : Block Identifier → List String
  | .nil => []
  | .ret _ values => Expr.requiresAll values
  | .cons head tail => head.requires ++ tail.requires

end

/-- The modules that a chunk requires, each once, in the order in which they are first named. -/
def Chunk.requires (chunk : Chunk) : List String := chunk.body.requires.eraseDups

end LuaMinifier
