import LuaMinifier.Chunk
import LuaMinifier.Fragment
import LuaMinifier.Name.Session
import LuaMinifier.Print.Parentheses

/-!
Printing trees as fragments: the shortest text that reads as the same tree.
-/

namespace LuaMinifier
namespace Print

def node (module : String) (position : Position) : Fragment := .ofOrigin ⟨module, position⟩

def enclose (module : String) (position : Position) (inner : Fragment) : Fragment :=
  ((node module position).append "(" |>.append inner).append ")"

/-- A variable; the map records its name where the text differs. -/
def spelling (module : String) (occurrence : Spelling) : Fragment :=
  let start := node module occurrence.position
  let named := if occurrence.text ≠ occurrence.name then start.withName occurrence.name else start
  named.append occurrence.text

def addItem (list : Fragment) (isFirst : Bool) (item : Fragment) : Fragment :=
  (if isFirst then list else list.append ",").join item

def items (list : Fragment) (isFirst : Bool) : List Fragment → Fragment
  | [] => list
  | item :: rest => items (addItem list isFirst item) false rest

def spellings (module : String) (occurrences : List Spelling) : Fragment :=
  items .empty true (occurrences.map (spelling module))

def parameters (module : String) (list : Parameters Spelling) : Fragment :=
  items .empty true (list.names.map (spelling module)
    ++ (list.vararg.map fun position => (node module position).append "...").toList)

def literal (module : String) (position : Position) (raw : String) : Fragment :=
  (node module position).append raw

def member (module : String) (position : Position) (base : Fragment) (access : Access) (name : Name) : Fragment :=
  (node module position).append base |>.join (access.text ++ name.text)

def functionName (module : String) (name : FunctionName Spelling) : Fragment :=
  let position := name.root.position
  let path := name.fields.foldl (fun base field => member module position base .dot field)
    (spelling module name.root)
  match name.method with
  | some method => member module position path .colon method
  | none => path

def functionBody (module : String) (list : Parameters Spelling) (body : Fragment) : Fragment :=
  (((Fragment.empty.append "(").append (parameters module list)).append ")").join body |>.join "end"

/-- A printed expression that something is applied to. -/
def base (module : String) (expression : Expr Spelling) (printed : Fragment) : Fragment :=
  if expression.needsBaseParentheses then enclose module expression.position printed else printed

/-- Writes a statement behind others; a semicolon keeps a parenthesis from being read as arguments. -/
def addStatement (block statement : Fragment) : Fragment :=
  let separated := if statement.first = some '(' && !block.isEmpty then block.append ";" else block
  separated.join statement

/-- Writes the closing brace of a table. A comma stays behind a last field that has a brace in it. -/
def closeTable (table : Fragment) (lastField : Option Fragment) : Fragment :=
  let nested := lastField.any fun field => field.toText.toList.contains '}'
  (if nested then table.append "," else table).append "\x7d"

end Print

open Print

mutual

def Expr.print (module : String) : Context → Expr Spelling → Fragment
  | _, .identifier _ occurrence => spelling module occurrence
  | _, .literal site kind raw =>
    let printed := literal module site.position raw
    if site.parenthesized && kind = .vararg then enclose module site.position printed else printed
  | context, .binary site operator left right =>
    let first := left.print module (.ofBinary operator .left)
    let second := right.print module (.ofBinary operator .right)
    let spaced := operator = .concat && left.endsWithNumeral && first.last ≠ some ')'
    let start := (node module site.position).append first
    let printed := ((if spaced then start.append " " else start).join operator.text).join second
    if needsParentheses (.binary operator) context then enclose module site.position printed else printed
  | context, .unary site operator operand =>
    let inner := operand.print module (.ofUnary operator)
    let printed := ((node module site.position).append operator.text).join inner
    if needsUnaryParentheses context then enclose module site.position printed else printed
  | _, .call site callee arguments =>
    let applied := Print.base module callee (callee.print module .top)
    let given := Expr.printList module .empty true arguments
    let printed := (((node module site.position).append applied).join "(").join given |>.append ")"
    if site.parenthesized then enclose module site.position printed else printed
  | _, .callTable site callee position fields =>
    let applied := Print.base module callee (callee.print module .top)
    let table := Field.printTable module ((node module position).append "\x7b") none fields
    let printed := ((node module site.position).append applied).join table
    if site.parenthesized then enclose module site.position printed else printed
  | _, .callString site callee position raw =>
    let applied := Print.base module callee (callee.print module .top)
    let printed := ((node module site.position).append applied).join (literal module position raw)
    if site.parenthesized then enclose module site.position printed else printed
  | _, .index site base key =>
    let first := Print.base module base (base.print module .top)
    let second := key.print module .top
    (((node module site.position).append first).join "[").join second |>.append "]"
  | _, .member site base access name =>
    member module site.position (Print.base module base (base.print module .top)) access name
  | _, .function site parameters body =>
    ((node module site.position).append "function").join
      (functionBody module parameters (body.printOnto module .empty))
  | _, .table site fields => Field.printTable module ((node module site.position).append "\x7b") none fields

/-- Expressions behind those that a list already holds. -/
def Expr.printList (module : String) (list : Fragment) (isFirst : Bool) : List (Expr Spelling) → Fragment
  | [] => list
  | expression :: rest =>
    Expr.printList module (addItem list isFirst (expression.print module .top)) false rest

def Field.print (module : String) : Field Spelling → Fragment
  | .keyed key value =>
    let first := key.print module .top
    let second := value.print module .top
    (((node module key.position).append "[").join first).append "]=" |>.join second
  | .named name value =>
    ((node module name.position).append (name.text ++ "=")).join (value.print module .top)
  | .item value => value.print module .top

/-- Fields behind those that an open table already holds, and its closing brace. -/
def Field.printTable (module : String) (table : Fragment) (lastField : Option Fragment) :
    List (Field Spelling) → Fragment
  | [] => closeTable table lastField
  | field :: rest =>
    let printed := field.print module
    Field.printTable module (addItem table lastField.isNone printed) (some printed) rest

def Stat.print (module : String) : Stat Spelling → Fragment
  | .assign position targets values =>
    let first := Expr.printList module .empty true targets
    let second := Expr.printList module .empty true values
    (((node module position).append first).join "=").join second
  | .localVars position names [] => ((node module position).append "local").join (spellings module names)
  | .localVars position names (value :: values) =>
    let declared := ((node module position).append "local").join (spellings module names)
    let printed := Expr.printList module (addItem .empty true (value.print module .top)) false values
    (declared.join "=").join printed
  | .call position call => (node module position).append (call.print module .top)
  | .cond position condition body rest =>
    let test := condition.print module .top
    let inner := body.printOnto module .empty
    let branch := ((((node module position).append "if").join test).join "then").join inner
    (rest.printOnto module ((node module position).join branch)).join "end"
  | .whileLoop position condition body =>
    let test := condition.print module .top
    let inner := body.printOnto module .empty
    ((((node module position).append "while").join test).join "do").join inner |>.join "end"
  | .doBlock position body =>
    (((node module position).append "do").join (body.printOnto module .empty)).join "end"
  | .breakLoop position => (node module position).append "break"
  | .repeatLoop position body condition =>
    let inner := body.printOnto module .empty
    let test := condition.print module .top
    (((node module position).append "repeat").join inner).join "until" |>.join test
  | .function position name parameters body =>
    (((node module position).append "function").join (functionName module name)).join
      (functionBody module parameters (body.printOnto module .empty))
  | .localFunction position name parameters body =>
    ((((node module position).append "local").join "function").join (spelling module name)).join
      (functionBody module parameters (body.printOnto module .empty))
  | .numericFor position counter first limit none body =>
    let start := first.print module .top
    let stop := limit.print module .top
    let inner := body.printOnto module .empty
    let head := ((((node module position).append "for").join (spelling module counter)).join "=").join start
    ((((head.join ",").join stop).join "do").join inner).join "end"
  | .numericFor position counter first limit (some step) body =>
    let start := first.print module .top
    let stop := limit.print module .top
    let stride := step.print module .top
    let inner := body.printOnto module .empty
    let head := ((((node module position).append "for").join (spelling module counter)).join "=").join start
    ((((((head.join ",").join stop).join ",").join stride).join "do").join inner).join "end"
  | .genericFor position names iterators body =>
    let given := Expr.printList module .empty true iterators
    let inner := body.printOnto module .empty
    let head := (((node module position).append "for").join (spellings module names)).join "in"
    (((head.join given).join "do").join inner).join "end"
  | .label position name => (node module position).append ("::" ++ name.text ++ "::")
  | .goto position name => ((node module position).append "goto").join name.text

/-- The further branches of a conditional, behind the earlier ones. -/
def Else.printOnto (module : String) (conditional : Fragment) : Else Spelling → Fragment
  | .none => conditional
  | .otherwise position body =>
    conditional.join (((node module position).append "else").join (body.printOnto module .empty))
  | .elseif position condition body rest =>
    let test := condition.print module .top
    let inner := body.printOnto module .empty
    let branch := ((((node module position).append "elseif").join test).join "then").join inner
    rest.printOnto module (conditional.join branch)

/-- The statements of a block, behind those that a fragment already holds. -/
def Block.printOnto (module : String) (block : Fragment) : Block Spelling → Fragment
  | .nil => block
  | .ret position [] => addStatement block ((node module position).append "return")
  | .ret position (value :: values) =>
    let printed := Expr.printList module (addItem .empty true (value.print module .top)) false values
    addStatement block (((node module position).append "return").join printed)
  | .cons head tail => tail.printOnto module (addStatement block (head.print module))

end

def Block.print (module : String) (body : Block Spelling) : Fragment :=
  (node module .start).append (body.printOnto module .empty)

def Chunk.print (module : String) (chunk : Chunk) : StateM Session Fragment :=
  return (← chunk.body.spell).print module

end LuaMinifier
