import LuaMinifier.Proofs.Items
import LuaMinifier.Proofs.Rendering

/-!
Fragments seen as the characters of their leaves with the marks between them. Printing a tree writes its items in
order, with nothing but separators and blanks between them, and a mark stands directly before every variable and every
literal.
-/

namespace LuaMinifier

open Token Print

/-- What a fragment is when read from left to right: characters, and marks where a node with an origin starts. -/
inductive Ink
  | char (character : Char)
  | mark (origin : Origin) (name : Option String)

namespace Ink

def ofChars (text : List Char) : List Ink := text.map .char

def chars (ink : List Ink) : List Char :=
  ink.filterMap fun
    | .char character => some character
    | .mark .. => none

@[simp] theorem ofChars_nil : ofChars [] = [] := rfl

@[simp] theorem ofChars_cons (character : Char) (text : List Char) :
    ofChars (character :: text) = .char character :: ofChars text := rfl

@[simp] theorem ofChars_append (first second : List Char) :
    ofChars (first ++ second) = ofChars first ++ ofChars second :=
  List.map_append

@[simp] theorem chars_nil : chars [] = [] := rfl

@[simp] theorem chars_char (character : Char) (ink : List Ink) :
    chars (.char character :: ink) = character :: chars ink := rfl

@[simp] theorem chars_mark (origin : Origin) (name : Option String) (ink : List Ink) :
    chars (.mark origin name :: ink) = chars ink := rfl

@[simp] theorem chars_append (first second : List Ink) : chars (first ++ second) = chars first ++ chars second :=
  List.filterMap_append ..

@[simp] theorem chars_ofChars (text : List Char) : chars (ofChars text) = text := by
  induction text with
  | nil => rfl
  | cons character rest ih => simp [ih]

end Ink

def Event.ink : Event → List Ink
  | .text written => Ink.ofChars written.toList
  | .mark origin name => [.mark origin name]

def Piece.ink : Piece → List Ink
  | .empty => []
  | .text written => Ink.ofChars written.toList
  | .node none _ body => body.ink
  | .node (some origin) name body => .mark origin name :: body.ink
  | .append first second => first.ink ++ second.ink

namespace Piece

theorem ink_events (piece : Piece) (rest : List Event) :
    (piece.events rest).flatMap Event.ink = piece.ink ++ rest.flatMap Event.ink := by
  induction piece generalizing rest with
  | empty => rfl
  | text written => rfl
  | node origin name body ih => cases origin <;> simp [events, ink, Event.ink, ih]
  | append first second ihFirst ihSecond => simp [events, ink, ihFirst, ihSecond]

theorem chars_ink (piece : Piece) : Ink.chars piece.ink = piece.chars := by
  induction piece with
  | empty => rfl
  | text written => exact Ink.chars_ofChars _
  | node origin name body ih => cases origin <;> exact ih
  | append first second ihFirst ihSecond => simp [ink, chars, ihFirst, ihSecond]

theorem ink_behind (first second : Piece) : (first.behind second).ink = first.ink ++ second.ink := by
  cases first <;> rfl

end Piece

namespace Fragment

def ink (fragment : Fragment) : List Ink := fragment.toPiece.ink

theorem ink_append (fragment : Fragment) (piece : Piece) : (fragment.append piece).ink = fragment.ink ++ piece.ink := by
  obtain ⟨origin, name, body⟩ := fragment
  cases origin <;> simp [ink, toPiece, append, Piece.ink, Piece.ink_behind]

theorem ink_join (fragment : Fragment) (piece : Piece) :
    (fragment.join piece).ink = fragment.ink ++ piece.ink ∨
      (fragment.join piece).ink = fragment.ink ++ .char ' ' :: piece.ink := by
  unfold join
  split
  · exact .inr (by simp [ink_append, Piece.ink])
  · exact .inl (ink_append ..)

end Fragment

/-- The name that a map records for an occurrence: what the source says where the text says something else. -/
def Spelling.original? (occurrence : Spelling) : Option String :=
  if occurrence.text ≠ occurrence.name then some occurrence.name else none

/-- Characters that only hold tokens apart. -/
def isSpacing (character : Char) : Bool := [' ', '(', ')', ',', ';'].contains character

/-- Items written one behind the other. The marks before variables and literals tell where they come from; other marks
have no name. -/
inductive Inked (module : String) : List (Item Spelling) → List Ink → Prop
  | nil : Inked module [] []
  | mark {items : List (Item Spelling)} {ink : List Ink} (position : Position) :
      Inked module items ink → Inked module items (.mark ⟨module, position⟩ none :: ink)
  | spacing {items : List (Item Spelling)} {ink : List Ink} {character : Char} :
      isSpacing character = true → Inked module items ink → Inked module items (.char character :: ink)
  | fixed {items : List (Item Spelling)} {ink : List Ink} (kind : Kind) :
      Inked module items ink → Inked module (.fixed kind :: items) (Ink.ofChars kind.chars ++ ink)
  | literal {items : List (Item Spelling)} {ink : List Ink} (kind : Kind) (position : Position) :
      Inked module items ink →
        Inked module (.literal kind position :: items) (.mark ⟨module, position⟩ none :: Ink.ofChars kind.chars ++ ink)
  | occurrence {items : List (Item Spelling)} {ink : List Ink} (occurrence : Spelling) :
      Inked module items ink →
        Inked module (.occurrence occurrence :: items)
          (.mark ⟨module, occurrence.position⟩ occurrence.original? :: Ink.ofChars (Kind.name occurrence.text).chars
            ++ ink)

namespace Inked

variable {module : String} {items more : List (Item Spelling)} {ink others : List Ink} {fragment : Fragment}
  {piece : Piece}

theorem concat (front : Inked module items ink) (back : Inked module more others) :
    Inked module (items ++ more) (ink ++ others) := by
  induction front with
  | nil => exact back
  | mark position _ ih => exact .mark position ih
  | spacing isSpacing _ ih => exact .spacing isSpacing ih
  | fixed kind _ ih =>
      rw [List.append_assoc]
      exact .fixed kind ih
  | literal kind position _ ih =>
      rw [List.cons_append, List.append_assoc]
      exact .literal kind position ih
  | occurrence occurrence _ ih =>
      rw [List.cons_append, List.append_assoc]
      exact .occurrence occurrence ih

theorem empty : Inked module [] Fragment.empty.ink := .nil

theorem node (module : String) (position : Position) : Inked module [] (Print.node module position).ink :=
  .mark position .nil

theorem append (front : Inked module items fragment.ink) (part : Inked module more piece.ink) :
    Inked module (items ++ more) (fragment.append piece).ink := by
  rw [Fragment.ink_append]
  exact front.concat part

theorem join (front : Inked module items fragment.ink) (part : Inked module more piece.ink) :
    Inked module (items ++ more) (fragment.join piece).ink := by
  obtain same | same := fragment.ink_join piece <;> rw [same]
  · exact front.concat part
  · exact front.concat (.spacing rfl part)

theorem gap (text : String) (separates : text.toList.all isSpacing = true) :
    Inked module [] (Piece.text text).ink := by
  rw [Piece.ink]
  generalize text.toList = characters at separates
  induction characters with
  | nil => exact .nil
  | cons character rest ih =>
      rw [List.all_cons, Bool.and_eq_true] at separates
      exact .spacing separates.1 (ih separates.2)

theorem tokens {text : String} (kinds : List Kind) (same : text.toList = kinds.flatMap Kind.chars) :
    Inked module (kinds.map .fixed) (Piece.text text).ink := by
  rw [Piece.ink, same]
  clear same
  induction kinds with
  | nil => exact .nil
  | cons kind rest ih =>
      rw [List.flatMap_cons, Ink.ofChars_append]
      exact .fixed kind ih

theorem keyword (reserved : Keyword) : Inked module [.fixed (.keyword reserved)] (Piece.text reserved.text).ink :=
  tokens [.keyword reserved] (by simp [Kind.chars])

theorem symbol (sign : Symbol) : Inked module [.fixed (.symbol sign)] (Piece.text sign.text).ink :=
  tokens [.symbol sign] (by simp [Kind.chars])

theorem enclose (position : Position) (inner : Inked module items fragment.ink) :
    Inked module items (Print.enclose module position fragment).ink := by
  have whole := ((node module position).append (gap "(" rfl)).append inner |>.append (gap ")" rfl)
  simpa [Print.enclose] using whole

theorem enclose_if (condition : Bool) (position : Position) (inner : Inked module items fragment.ink) :
    Inked module items (if condition then Print.enclose module position fragment else fragment).ink := by
  cases condition with
  | true => exact inner.enclose position
  | false => exact inner

theorem append_if (condition : Bool) (front : Inked module items fragment.ink) (text : String)
    (separates : text.toList.all isSpacing = true) :
    Inked module items (if condition then fragment.append text else fragment).ink := by
  cases condition with
  | true => simpa using front.append (gap text separates)
  | false => exact front

theorem spelling (occurrence : Spelling) :
    Inked module [.occurrence occurrence] (Print.spelling module occurrence).ink := by
  have same : (Print.spelling module occurrence).ink =
      .mark ⟨module, occurrence.position⟩ occurrence.original? ::
        Ink.ofChars (Kind.name occurrence.text).chars ++ [] := by
    simp only [Print.spelling, Spelling.original?, Kind.chars]
    split <;> simp [Fragment.ink, Fragment.toPiece, Fragment.append, Fragment.withName, Print.node, Fragment.ofOrigin,
      Piece.ink, Piece.behind]
  rw [same]
  exact .occurrence occurrence .nil

theorem leaf {kind : Kind} (position : Position) {raw : String} (same : raw.toList = kind.chars) :
    Inked module [.literal kind position] (Print.literal module position raw).ink := by
  have whole : Inked module [.literal kind position] (.mark ⟨module, position⟩ none :: Ink.ofChars kind.chars ++ []) :=
    .literal kind position .nil
  rwa [← same, List.append_nil] at whole

theorem addItem (isFirst : Bool) (front : Inked module items fragment.ink) {item : Fragment}
    (part : Inked module more item.ink) : Inked module (items ++ more) (Print.addItem fragment isFirst item).ink := by
  have comma := front.append_if (!isFirst) "," rfl
  cases isFirst <;> exact comma.join part

theorem addStatement (front : Inked module items fragment.ink) {statement : Fragment}
    (part : Inked module more statement.ink) :
    Inked module (items ++ more) (Print.addStatement fragment statement).ink :=
  (front.append_if _ ";" rfl).join part

theorem list {parts : List (Item Spelling × Fragment)} (isFirst : Bool)
    (each : ∀ part ∈ parts, Inked module [part.1] part.2.ink) (front : Inked module items fragment.ink) :
    Inked module (items ++ parts.map (·.1)) (Print.items fragment isFirst (parts.map (·.2))).ink := by
  induction parts generalizing items fragment isFirst with
  | nil => simpa [Print.items] using front
  | cons part rest ih =>
      rw [List.forall_mem_cons] at each
      have whole := ih false each.2 (front.addItem isFirst each.1)
      simpa [Print.items] using whole

end Inked

section Names

variable (module : String)

theorem inked_spellings (names : List Spelling) :
    Inked module (names.map .occurrence) (spellings module names).ink := by
  have each : ∀ part ∈ names.map fun name => (Item.occurrence name, Print.spelling module name),
      Inked module [part.1] part.2.ink := by
    simpa using fun name _ => Inked.spelling name
  simpa [spellings, Function.comp_def] using Inked.list true each .empty

theorem inked_parameters (list : Parameters Spelling) : Inked module list.leaves (parameters module list).ink := by
  have each : ∀ part ∈ list.names.map (fun name => (Item.occurrence name, Print.spelling module name)) ++
      (list.vararg.map fun position =>
        (Item.literal (.symbol .dotDotDot) position, (Print.node module position).append "...")).toList,
      Inked module [part.1] part.2.ink := by
    simp only [List.mem_append, List.mem_map, Option.mem_toList, Option.map_eq_some_iff]
    rintro part (⟨name, -, rfl⟩ | ⟨position, -, rfl⟩)
    · exact .spelling name
    · exact .leaf position rfl
  have whole := Inked.list true each .empty
  cases vararg : list.vararg <;>
    simpa [vararg, parameters, Parameters.leaves, Function.comp_def] using whole

theorem inked_member {items : List (Item Spelling)} {base : Fragment} (front : Inked module items base.ink)
    (position : Position) (access : Access) (name : Name) :
    Inked module (items ++ [.fixed access.token, .fixed (.name name.text)])
      (member module position base access name).ink := by
  have named : (access.text ++ name.text).toList = [access.token, .name name.text].flatMap Kind.chars := by
    cases access <;> simp [Access.text, Access.token, Kind.chars, Symbol.text]
  exact ((Inked.node module position).append front).join (.tokens _ named)

theorem inked_functionName (name : FunctionName Spelling) :
    Inked module name.leaves (functionName module name).ink := by
  have path : ∀ (fields : List Name) {items : List (Item Spelling)} {base : Fragment}, Inked module items base.ink →
      Inked module (items ++ fields.flatMap fun field => [.fixed (.symbol .dot), .fixed (.name field.text)])
        (fields.foldl (fun base field => member module name.root.position base .dot field) base).ink := by
    intro fields
    induction fields with
    | nil => simp
    | cons field rest ih =>
        intro items base front
        simpa [Access.token] using ih (inked_member module front name.root.position .dot field)
  have front := path name.fields (.spelling name.root)
  unfold functionName
  cases found : name.method with
  | none => simpa [FunctionName.leaves, found] using front
  | some method =>
      simpa [FunctionName.leaves, found, Access.token] using
        inked_member module front name.root.position .colon method

theorem inked_functionBody {items : List (Item Spelling)} {body : Fragment} (list : Parameters Spelling)
    (inner : Inked module items body.ink) :
    Inked module (list.leaves ++ items ++ [.fixed (.keyword .kEnd)]) (functionBody module list body).ink := by
  have head := ((Inked.empty.append (.gap "(" rfl)).append (inked_parameters module list)).append (.gap ")" rfl)
  have whole := (head.join inner).join (.keyword .kEnd)
  simpa [functionBody, Keyword.text] using whole

theorem inked_base {items : List (Item Spelling)} {printed : Fragment} (expression : Expr Spelling)
    (inner : Inked module items printed.ink) : Inked module items (base module expression printed).ink :=
  inner.enclose_if _ expression.position

theorem inked_closeTable {items : List (Item Spelling)} {table : Fragment} (last : Option Fragment)
    (front : Inked module items table.ink) :
    Inked module (items ++ [.fixed (.symbol .rightBrace)]) (closeTable table last).ink :=
  (front.append_if _ "," rfl).append (.symbol .rightBrace)

end Names

section Trees

variable (module : String) {valid : Kind → Prop} {known : Spelling → Prop}

attribute [local simp] Expr.items Expr.itemsAll Expr.print Expr.printList Field.items Field.itemsAll Field.print
  Field.printTable Stat.items Stat.print Else.items Else.printOnto Block.items Block.printOnto braced Keyword.text
  Symbol.text

mutual

theorem Expr.inked : ∀ (expression : Expr Spelling) (context : Context) {called : Bool},
    expression.Formed valid known called →
      Inked module expression.items (expression.print module context).ink
  | .identifier _ occurrence, _, _, _ => .spelling occurrence
  | .literal site kind raw, _, _, formed => (Inked.leaf site.position formed.2).enclose_if _ site.position
  | .binary site operator left right, context, _, formed => by
    have sign : operator.text.toList = [operator.token].flatMap Kind.chars := by cases operator <;> rfl
    have first := (Inked.node module site.position).append (left.inked (.ofBinary operator .left) formed.1)
    have spaced := first.append_if (operator = .concat && left.endsWithNumeral &&
      (left.print module (.ofBinary operator .left)).last ≠ some ')') " " rfl
    have whole := (spaced.join (.tokens _ sign)).join (right.inked (.ofBinary operator .right) formed.2)
    simpa using whole.enclose_if (needsParentheses (.binary operator) context) site.position
  | .unary site operator operand, context, _, formed => by
    have sign : operator.text.toList = [operator.token].flatMap Kind.chars := by cases operator <;> rfl
    have whole := ((Inked.node module site.position).append (.tokens _ sign)).join
      (operand.inked (.ofUnary operator) formed)
    simpa using whole.enclose_if _ site.position
  | .call site callee arguments, _, _, ⟨_, formed, given⟩ => by
    have applied := inked_base module callee (callee.inked .top formed)
    have opened := ((Inked.node module site.position).append applied).join (.gap "(" rfl)
    have whole := (opened.join (Expr.inked_printList arguments given true .empty)).append (.gap ")" rfl)
    simpa using whole.enclose_if _ site.position
  | .callTable site callee position fields, _, _, ⟨_, formed, given⟩ => by
    have applied := inked_base module callee (callee.inked .top formed)
    have table := Field.inked_printTable fields given none ((Inked.node module position).append (.symbol .leftBrace))
    have whole := ((Inked.node module site.position).append applied).join table
    simpa using whole.enclose_if _ site.position
  | .callString site callee position raw, _, _, ⟨_, formed, _⟩ => by
    have applied := inked_base module callee (callee.inked .top formed)
    have text : raw.toList = (Kind.string raw).chars := rfl
    have whole := ((Inked.node module site.position).append applied).join (Inked.leaf position text)
    simpa using whole.enclose_if _ site.position
  | .index site base key, _, _, ⟨_, formed, given⟩ => by
    have applied := inked_base module base (base.inked .top formed)
    have opened := ((Inked.node module site.position).append applied).join (.symbol .leftBracket)
    have whole := (opened.join (key.inked .top given)).append (.symbol .rightBracket)
    simpa using whole
  | .member site base access name, _, _, ⟨_, _, formed, _⟩ => by
    have applied := inked_base module base (base.inked .top formed)
    simpa using inked_member module applied site.position access name
  | .function site parameters body, _, _, ⟨_, formed⟩ => by
    have inner := inked_functionBody module parameters (body.inked_onto formed .empty)
    have whole := ((Inked.node module site.position).append (.keyword .kFunction)).join inner
    simpa using whole
  | .table site fields, _, _, formed => by
    have whole := Field.inked_printTable fields formed none
      ((Inked.node module site.position).append (.symbol .leftBrace))
    simpa using whole

theorem Expr.inked_printList : ∀ (expressions : List (Expr Spelling)),
    Expr.FormedAll valid known expressions → ∀ (isFirst : Bool) {items : List (Item Spelling)}
      {list : Fragment}, Inked module items list.ink →
        Inked module (items ++ Expr.itemsAll expressions) (Expr.printList module list isFirst expressions).ink
  | [], _, _, _, _, front => by simpa using front
  | expression :: rest, formed, isFirst, _, _, front => by
    have first := front.addItem isFirst (expression.inked .top formed.1)
    simpa using Expr.inked_printList rest formed.2 false first

theorem Field.inked : ∀ field : Field Spelling, field.Formed valid known →
    Inked module field.items (field.print module).ink
  | .keyed key value, formed => by
    have closing : "]=".toList = [Kind.symbol .rightBracket, .symbol .assign].flatMap Kind.chars := rfl
    have opened := ((Inked.node module key.position).append (.symbol .leftBracket)).join (key.inked .top formed.1)
    have whole := (opened.append (.tokens _ closing)).join (value.inked .top formed.2)
    simpa using whole
  | .named name value, formed => by
    have named : (name.text ++ "=").toList = [Kind.name name.text, .symbol .assign].flatMap Kind.chars := by
      simp [Kind.chars]
    have whole := ((Inked.node module name.position).append (.tokens _ named)).join (value.inked .top formed.2)
    simpa using whole
  | .item value, formed => value.inked .top formed

theorem Field.inked_printTable : ∀ (fields : List (Field Spelling)),
    Field.FormedAll valid known fields → ∀ (last : Option Fragment) {items : List (Item Spelling)}
      {table : Fragment}, Inked module items table.ink →
        Inked module (items ++ Field.itemsAll fields ++ [.fixed (.symbol .rightBrace)])
          (Field.printTable module table last fields).ink
  | [], _, last, _, _, front => by simpa using inked_closeTable module last front
  | field :: rest, formed, last, _, _, front => by
    have first := front.addItem last.isNone (field.inked formed.1)
    simpa using Field.inked_printTable rest formed.2 (some (field.print module)) first

theorem Stat.inked : ∀ statement : Stat Spelling, statement.Formed valid known →
    Inked module statement.items (statement.print module).ink
  | .assign position targets values, ⟨_, _, formed, _, given⟩ => by
    have front := (Inked.node module position).append (Expr.inked_printList targets formed true .empty)
    have whole := (front.join (.symbol .assign)).join (Expr.inked_printList values given true .empty)
    simpa using whole
  | .localVars position names [], _ => by
    have whole := ((Inked.node module position).append (.keyword .kLocal)).join (inked_spellings module names)
    simpa using whole
  | .localVars position names (value :: values), ⟨_, _, formed⟩ => by
    have front := ((Inked.node module position).append (.keyword .kLocal)).join (inked_spellings module names)
    have given := Expr.inked_printList values formed.2 false (Inked.empty.addItem true (value.inked .top formed.1))
    have whole := (front.join (.symbol .assign)).join given
    simpa using whole
  | .call position call, ⟨_, _, formed⟩ => by
    simpa using (Inked.node module position).append (call.inked .top formed)
  | .cond position condition body rest, ⟨test, inner, further⟩ => by
    have opened := ((Inked.node module position).append (.keyword .kIf)).join (condition.inked .top test)
    have branch := (opened.join (.keyword .kThen)).join (body.inked_onto inner .empty)
    simpa using Else.inked_onto rest further ((Inked.node module position).join branch)
  | .whileLoop position condition body, ⟨test, inner⟩ => by
    have opened := ((Inked.node module position).append (.keyword .kWhile)).join (condition.inked .top test)
    have whole := ((opened.join (.keyword .kDo)).join (body.inked_onto inner .empty)).join (.keyword .kEnd)
    simpa using whole
  | .doBlock position body, inner => by
    have opened := ((Inked.node module position).append (.keyword .kDo)).join (body.inked_onto inner .empty)
    simpa using opened.join (.keyword .kEnd)
  | .breakLoop position, _ => (Inked.node module position).append (.keyword .kBreak)
  | .repeatLoop position body condition, ⟨inner, test⟩ => by
    have opened := ((Inked.node module position).append (.keyword .kRepeat)).join (body.inked_onto inner .empty)
    have whole := (opened.join (.keyword .kUntil)).join (condition.inked .top test)
    simpa using whole
  | .function position name parameters body, ⟨_, _, inner⟩ => by
    have named := ((Inked.node module position).append (.keyword .kFunction)).join (inked_functionName module name)
    have whole := named.join (inked_functionBody module parameters (body.inked_onto inner .empty))
    simpa using whole
  | .localFunction position name parameters body, ⟨_, _, inner⟩ => by
    have opened := ((Inked.node module position).append (.keyword .kLocal)).join (.keyword .kFunction)
    have whole := (opened.join (Inked.spelling name)).join
      (inked_functionBody module parameters (body.inked_onto inner .empty))
    simpa using whole
  | .numericFor position counter first limit none body, ⟨_, start, stop, inner⟩ => by
    have named := (((Inked.node module position).append (.keyword .kFor)).join (Inked.spelling counter)).join
      (.symbol .assign)
    have range := ((named.join (first.inked .top start)).join (.gap "," rfl)).join (limit.inked .top stop)
    have whole := ((range.join (.keyword .kDo)).join (body.inked_onto inner .empty)).join (.keyword .kEnd)
    simpa using whole
  | .numericFor position counter first limit (some step) body, ⟨_, start, stop, stride, inner⟩ => by
    have named := (((Inked.node module position).append (.keyword .kFor)).join (Inked.spelling counter)).join
      (.symbol .assign)
    have range := ((named.join (first.inked .top start)).join (.gap "," rfl)).join (limit.inked .top stop)
    have stepped := (range.join (.gap "," rfl)).join (step.inked .top stride)
    have whole := ((stepped.join (.keyword .kDo)).join (body.inked_onto inner .empty)).join (.keyword .kEnd)
    simpa using whole
  | .genericFor position names iterators body, ⟨_, _, _, given, inner⟩ => by
    have named := ((Inked.node module position).append (.keyword .kFor)).join (inked_spellings module names)
    have range := (named.join (.keyword .kIn)).join (Expr.inked_printList iterators given true .empty)
    have whole := ((range.join (.keyword .kDo)).join (body.inked_onto inner .empty)).join (.keyword .kEnd)
    simpa using whole
  | .label position name, _ => by
    have signs : ("::" ++ name.text ++ "::").toList =
        [Kind.symbol .colonColon, .name name.text, .symbol .colonColon].flatMap Kind.chars := by
      simp [Kind.chars]
    exact (Inked.node module position).append (.tokens _ signs)
  | .goto position name, _ => by
    have named : name.text.toList = [Kind.name name.text].flatMap Kind.chars := by simp [Kind.chars]
    exact ((Inked.node module position).append (.keyword .kGoto)).join (.tokens _ named)

theorem Else.inked_onto : ∀ rest : Else Spelling, rest.Formed valid known →
    ∀ {items : List (Item Spelling)} {conditional : Fragment}, Inked module items conditional.ink →
      Inked module (items ++ rest.items) ((rest.printOnto module conditional).join "end").ink
  | .none, _, _, _, front => front.join (.keyword .kEnd)
  | .otherwise position body, inner, _, _, front => by
    have branch := ((Inked.node module position).append (.keyword .kElse)).join (body.inked_onto inner .empty)
    have whole := (front.join branch).join (.keyword .kEnd)
    simpa using whole
  | .elseif position condition body rest, ⟨test, inner, further⟩, _, _, front => by
    have opened := ((Inked.node module position).append (.keyword .kElseif)).join (condition.inked .top test)
    have branch := (opened.join (.keyword .kThen)).join (body.inked_onto inner .empty)
    simpa using Else.inked_onto rest further (front.join branch)

theorem Block.inked_onto : ∀ body : Block Spelling, body.Formed valid known →
    ∀ {items : List (Item Spelling)} {block : Fragment}, Inked module items block.ink →
      Inked module (items ++ body.items) (body.printOnto module block).ink
  | .nil, _, _, _, front => by simpa using front
  | .ret position [], _, _, _, front => by
    simpa using front.addStatement ((Inked.node module position).append (.keyword .kReturn))
  | .ret position (value :: values), formed, _, _, front => by
    have given := Expr.inked_printList values formed.2 false (Inked.empty.addItem true (value.inked .top formed.1))
    have statement := ((Inked.node module position).append (.keyword .kReturn)).join given
    simpa using front.addStatement statement
  | .cons head tail, ⟨first, further⟩, _, _, front => by
    simpa using tail.inked_onto further (front.addStatement (head.inked first))

end

end Trees

end LuaMinifier
