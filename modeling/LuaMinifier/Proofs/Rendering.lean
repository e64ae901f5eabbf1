import LuaMinifier.Proofs.Joining
import LuaMinifier.Proofs.Reread

/-!
Printing a tree writes the tokens of the tree that is read back. Main statement: the text of a block spells the tokens
of what the block is read as.
-/

namespace LuaMinifier

open Token Print

variable {ι : Type}

/-- The printed form of an occurrence is a name. -/
def Spelling.Written (occurrence : Spelling) : Prop := (Kind.name occurrence.text).Written

section Names

variable (module : String)

theorem spaced_spelling {occurrence : Spelling} (written : occurrence.Written) :
    Spaced [.name occurrence.text] (spelling module occurrence).chars := by
  have chars : (spelling module occurrence).chars = (Kind.name occurrence.text).chars := by
    simp only [spelling]
    split <;> simp [node, Piece.chars, Kind.chars]
  rw [chars]
  exact .single written

theorem spaced_spellings {names : List Spelling} (written : ∀ name ∈ names, name.Written) :
    Spaced (listed true (nameItems Spelling.text names)) (spellings module names).chars := by
  have parts := Spaced.list (names.map fun name => ([.name name.text], spelling module name)) (by
    simpa using fun name found => spaced_spelling module (written name found))
  simpa [nameItems, spellings, Function.comp_def] using parts

theorem spaced_parameters {list : Parameters Spelling} (written : ∀ name ∈ list.names, name.Written) :
    Spaced (listed true (list.items Spelling.text)) (parameters module list).chars := by
  have parts := Spaced.list (list.names.map (fun name => ([.name name.text], spelling module name)) ++
      (list.vararg.map fun position => ([.symbol .dotDotDot], (node module position).append "...")).toList) (by
    simp only [List.mem_append, List.mem_map, Option.mem_toList, Option.map_eq_some_iff]
    rintro part (⟨name, found, rfl⟩ | ⟨position, _, rfl⟩)
    · exact spaced_spelling module (written name found)
    · exact Spaced.symbol .dotDotDot)
  cases vararg : list.vararg <;>
    simpa [vararg, Parameters.items, nameItems, parameters, Function.comp_def] using parts

theorem printed_functionBody {list : Parameters Spelling} {body : Fragment} {kinds : List Kind}
    (written : ∀ name ∈ list.names, name.Written) (inner : Printed kinds body.chars) :
    Printed (functionKinds (list.items Spelling.text) kinds) (functionBody module list body).chars := by
  have head := (spaced_parameters module written).enclose
  have whole := (head.join_solid rfl inner.spaced).join_closed (endsClosed_append_cons _ rfl inner.closed)
    (Spaced.keyword .kEnd) rfl
  exact ⟨by simpa [functionKinds, functionBody, Piece.chars, Keyword.text] using whole, functionKinds_closed ..⟩

theorem spaced_access (access : Access) {name : Name} (written : (Kind.name name.text).Written) :
    Spaced [access.token, .name name.text] (access.text ++ name.text).toList := by
  have apart (next : Char) (head : (Kind.name name.text).chars.head? = some next) :
      access.token.separate next = true := by
    obtain ⟨behind, same⟩ := List.head?_eq_some_iff.mp head
    have letter : Lexeme.startsName next = true := Kind.startsWith_head written same
    have visible := Lexeme.ne_of_continuesName (Lexeme.continuesName_of_startsName letter)
    have colon : next ≠ ':' := by
      rintro rfl
      exact absurd letter (by decide)
    cases access <;> simp [Access.token, Kind.separate, visible, colon, Lexeme.isDigit_of_startsName letter]
  have spelled := Spaced.direct (by cases access <;> trivial) (.single written) apart
  cases access <;> simpa [Access.token, Access.text, Kind.chars, Symbol.text] using spelled

theorem spaced_member {kinds : List Kind} {base : Fragment} (front : Spaced kinds base.chars)
    (carries : endsCarrying kinds = true) (position : Position) (access : Access) {name : Name}
    (written : (Kind.name name.text).Written) :
    Spaced (kinds ++ [access.token, .name name.text]) (member module position base access name).chars := by
  have spelled := front.join_symbol carries (spaced_access access written) (by cases access <;> exact ⟨_, rfl⟩)
  simpa [member, node, Piece.chars] using spelled

theorem spaced_path {kinds : List Kind} {base : Fragment} (fields : List Name) (front : Spaced kinds base.chars)
    (carries : endsCarrying kinds = true) (position : Position)
    (written : ∀ field ∈ fields, (Kind.name field.text).Written) :
    let path := kinds ++ fields.flatMap fun field => [.symbol .dot, .name field.text]
    Spaced path (fields.foldl (fun base field => member module position base .dot field) base).chars ∧
      endsCarrying path = true := by
  induction fields generalizing kinds base with
  | nil => simpa using ⟨front, carries⟩
  | cons field rest ih =>
      rw [List.forall_mem_cons] at written
      have further := ih (spaced_member module front carries position .dot written.1)
        (endsCarrying_append_cons ..) written.2
      simpa [Access.token] using further

theorem printed_functionName {name : FunctionName Spelling} (formed : name.Formed Kind.Written Spelling.Written) :
    Printed (name.kinds Spelling.text) (functionName module name).chars := by
  obtain ⟨root, fields, method⟩ := formed
  obtain ⟨path, carries⟩ := spaced_path module name.fields (spaced_spelling module root) rfl name.root.position fields
  simp only [functionName]
  cases found : name.method with
  | none =>
      have whole : Printed _ _ := ⟨path, endsClosed_of_endsCarrying carries⟩
      simpa [FunctionName.kinds, found] using whole
  | some called =>
      have member := spaced_member module path carries name.root.position .colon (method called found)
      have whole : Printed _ _ := ⟨member, by rw [endsClosed_append_of_ne_nil _ (by simp)]; rfl⟩
      simpa [FunctionName.kinds, found, Access.token] using whole

end Names

namespace Expr

theorem kinds_parenthesize (text : ι → String) {expression : Expr ι} (bare : expression.site.parenthesized = false) :
    expression.parenthesize.kinds text =
      .symbol .leftParen :: expression.kinds text ++ [.symbol .rightParen] := by
  cases expression <;> simp_all [parenthesize, Expr.kinds, Site.enclose, Expr.site]

theorem enclose_carrying {site : Site} {kinds : List Kind} (carries : endsCarrying kinds = true) :
    endsCarrying (site.enclose kinds) = true := by
  unfold Site.enclose
  split
  · exact endsCarrying_append_cons ..
  · exact carries

theorem suffixable_carrying (text : ι → String) {expression : Expr ι} (suffixable : expression.isSuffixable = true) :
    endsCarrying (expression.kinds text) = true := by
  cases expression with
  | identifier => exact enclose_carrying rfl
  | call => exact enclose_carrying (endsCarrying_append_cons ..)
  | callTable => exact enclose_carrying (by simp only [braces, ← List.append_assoc]; exact endsCarrying_append_cons ..)
  | callString => exact enclose_carrying (endsCarrying_append_cons ..)
  | index => exact enclose_carrying (endsCarrying_append_cons ..)
  | member => exact enclose_carrying (endsCarrying_append_cons ..)
  | _ =>
    simp only [isSuffixable, Expr.site, Bool.or_false] at suffixable
    simp only [Expr.kinds, Site.enclose, suffixable, ↓reduceIte]
    exact endsCarrying_append_cons ..

theorem reread_carrying (text : ι → String) : ∀ (expression : Expr ι) (context : Context),
    expression.endsWithNumeral = false → endsCarrying ((expression.reread context).kinds text) = true
  | .literal _ kind raw, _, other => by
    refine enclose_carrying ?_
    cases kind <;> first | rfl | simp [endsWithNumeral] at other
  | .binary site operator left right, context, other => by
    have back := reread_carrying text right (.ofBinary operator .right) other
    obtain ⟨whole, graft, ⟨_, same⟩ | ⟨_, same⟩⟩ := reread_binary_cases context site operator left right
    · rw [same, kinds_parenthesize text (graft ▸ graft_site ..)]
      exact endsCarrying_append_cons ..
    · rw [same, graft, kinds_graft, endsCarrying_append_cons,
        endsCarrying_cons _ ((right.reread _).kinds_ne_nil text)]
      exact back
  | .unary _ operator operand, _, other => by
    have back := reread_carrying text operand (.ofUnary operator) other
    refine enclose_carrying ?_
    rw [endsCarrying_cons _ ((operand.reread _).kinds_ne_nil text)]
    exact back
  | .identifier .., _, _ => rfl
  | .call .., _, _ => enclose_carrying (endsCarrying_append_cons ..)
  | .callTable .., _, _ =>
    enclose_carrying (by simp only [braces, ← List.append_assoc]; exact endsCarrying_append_cons ..)
  | .callString .., _, _ => enclose_carrying (endsCarrying_append_cons ..)
  | .index .., _, _ => enclose_carrying (endsCarrying_append_cons ..)
  | .member .., _, _ => enclose_carrying (endsCarrying_append_cons ..)
  | .function .., _, _ => enclose_carrying (by
      simp only [functionKinds, ← List.cons_append]
      exact endsCarrying_append_cons ..)
  | .table .., _, _ => enclose_carrying (endsCarrying_append_cons ..)

theorem bare_of_needsBaseParentheses {expression : Expr ι} (needed : expression.needsBaseParentheses = true) :
    (expression.reread .top).site.parenthesized = false := by
  cases expression with
  | literal site kind raw =>
      cases kind <;> simp_all [needsBaseParentheses, isTruncated, isMultiValue, isCall, reread, Expr.site]
  | binary site operator left right =>
      have bare : needsParentheses (.binary operator) .top = false := by cases operator <;> rfl
      simp [reread, bare, graft_site]
  | _ => simp_all [needsBaseParentheses, isTruncated, isMultiValue, isCall, reread, Expr.site, needsUnaryParentheses,
      Context.top]

end Expr

section Trees

variable (module : String)

theorem chars_enclose (position : Position) (inner : Fragment) :
    (enclose module position inner).chars = '(' :: inner.chars ++ [')'] := by
  simp [enclose, node, Piece.chars]

theorem spaced_marked (site : Site) {kinds : List Kind} {printed : Fragment} (inner : Spaced kinds printed.chars) :
    Spaced (site.enclose kinds)
      (if site.parenthesized then enclose module site.position printed else printed).chars := by
  unfold Site.enclose
  split
  · rw [chars_enclose]
    exact inner.enclose
  · exact inner

theorem spaced_base {expression : Expr Spelling} {printed : Fragment}
    (inner : Spaced ((expression.reread .top).kinds Spelling.text) printed.chars) :
    Spaced (((expression.reread .top).asBase expression).kinds Spelling.text)
      (base module expression printed).chars := by
  unfold base Expr.asBase
  split
  next needed =>
    rw [Expr.kinds_parenthesize _ (Expr.bare_of_needsBaseParentheses needed), chars_enclose]
    exact inner.enclose
  next => exact inner

theorem spaced_operator {kinds : List Kind} {first : Fragment} (operator : BinaryOp) (spaced : Bool)
    (front : Spaced kinds first.chars) (some : kinds ≠ []) (closed : endsClosed kinds = true)
    (carries : spaced = false → operator = .concat → endsCarrying kinds = true) :
    Spaced (kinds ++ [operator.token])
      (joinChars (first.chars ++ if spaced then [' '] else []) operator.text.toList) := by
  have token : Spaced [operator.token] operator.text.toList := by
    cases operator <;> first | exact Spaced.symbol _ | exact Spaced.keyword _
  cases spaced with
  | true =>
      simpa [joinChars_blank] using front.append_blank some token
  | false =>
      simp only [Bool.false_eq_true, ↓reduceIte, List.append_nil]
      by_cases concat : operator = .concat
      · subst concat
        exact front.join_symbol (carries rfl rfl) token ⟨_, rfl⟩
      · refine front.join_closed closed token ?_
        cases operator <;> first | rfl | exact absurd rfl concat

theorem spaced_number {kinds : List Kind} {fragment : Fragment} (spaced : Spaced kinds fragment.chars)
    (closed : endsClosed kinds = true) (paren : fragment.last = some ')') : endsCarrying kinds = true := by
  unfold endsCarrying
  cases final : kinds.getLast? with
  | none => rfl
  | some kind =>
      simp only [endsClosed, final, Option.all_some] at closed ⊢
      cases kind with
      | number raw =>
          obtain ⟨front, same⟩ := spaced.ending final
          rw [Fragment.last, Fragment.tail_eq, same] at paren
          have numeral : Kind.Written (.number raw) := spaced.written _ (List.mem_of_getLast? final)
          rcases Lexeme.isNumeral_ending numeral with ⟨before, last, split, name⟩ | ⟨whole, split, _⟩
          · simp only [Kind.chars, split, ← List.append_assoc, Tail.ofChars_concat, Option.some.injEq] at paren
            subst paren
            exact absurd name (by decide)
          · simp [Kind.chars, split, ← List.append_assoc, Tail.ofChars_concat] at paren
      | _ => exact closed

theorem spaced_closeTable {kinds : List Kind} {table : Fragment} (front : Spaced kinds table.chars)
    (last : Option (List Kind × Fragment)) (spelled : ∀ part ∈ last, Spaced part.1 part.2.chars) :
    Spaced (kinds ++ closingComma (last.map (·.1)) ++ [.symbol .rightBrace])
      (closeTable table (last.map (·.2))).chars := by
  have nested : ((last.map (·.2)).any fun field => field.toText.toList.contains '}') =
      (last.map (·.1)).any fun field => field.any fun kind => kind.chars.contains '}' := by
    cases last with
    | none => rfl
    | some part =>
        have inside := (spelled part rfl).mem_iff '}' (by decide)
        rw [Bool.eq_iff_iff]
        simpa [Fragment.toText_eq] using inside
  have comma := front.append_punctuation (Spaced.symbol .comma) rfl
  have brace := Spaced.symbol .rightBrace
  simp only [closeTable, nested, closingComma]
  split
  · simpa [Piece.chars, Symbol.text] using comma.append_punctuation brace rfl
  · simpa [Piece.chars, Symbol.text] using front.append_punctuation brace rfl

theorem printed_spellings {names : List Spelling} (written : ∀ name ∈ names, name.Written) :
    Printed (listed true (nameItems Spelling.text names)) (spellings module names).chars :=
  ⟨spaced_spellings module written, listed_closed true (nameItems_closed _ _)⟩

theorem printed_spelling {occurrence : Spelling} (written : occurrence.Written) :
    Printed [.name occurrence.text] (spelling module occurrence).chars :=
  ⟨spaced_spelling module written, rfl⟩

theorem chars_operation (position : Position) (operator : BinaryOp) (spaced : Bool) (first second : Fragment) :
    (((if spaced then ((node module position).append first).append " " else (node module position).append first).join
      operator.text).join second).chars =
      joinChars (joinChars (first.chars ++ if spaced then [' '] else []) operator.text.toList) second.chars := by
  cases spaced <;> simp [node, Piece.chars]

attribute [local simp] Expr.reread Expr.kinds Expr.print Field.reread Field.kinds Field.print Stat.reread Stat.kinds
  Stat.print Else.reread Else.kinds Else.printOnto Block.reread Block.kinds Block.printOnto Expr.rereadAll
  Expr.kindsAll Expr.printList Field.rereadAll Field.kindsAll Field.printTable node Piece.chars Site.enclose
  Keyword.text Symbol.text

/-- The text of an expression spells the tree that it is read as. -/
def Expr.Spells (context : Context) (expression : Expr Spelling) : Prop :=
  Spaced ((expression.reread context).kinds Spelling.text) (expression.print module context).chars

/-- The text of a list of expressions spells the list that it is read as. -/
def Expr.SpellsAll (expressions : List (Expr Spelling)) : Prop :=
  Printed (listed true (Expr.kindsAll Spelling.text (Expr.rereadAll expressions)))
    (Expr.printList module .empty true expressions).chars

/-- The same behind items that a list already has. -/
def Expr.SpellsOnto (expressions : List (Expr Spelling)) : Prop :=
  ∀ ⦃list : Fragment⦄ ⦃kinds : List Kind⦄ (isFirst : Bool), Spaced kinds list.chars →
    (isFirst = true → Spaced.endsSolid kinds) →
      Spaced (kinds ++ listed isFirst (Expr.kindsAll Spelling.text (Expr.rereadAll expressions)))
        (Expr.printList module list isFirst expressions).chars

/-- The text of a table spells the fields that it is read as. -/
def Field.SpellsAll (fields : List (Field Spelling)) : Prop :=
  ∀ position, Spaced (braces (Field.kindsAll Spelling.text (Field.rereadAll fields)))
    (Field.printTable module ((node module position).append "\x7b") none fields).chars

/-- The same behind fields that a table already has. -/
def Field.SpellsOnto (fields : List (Field Spelling)) : Prop :=
  ∀ ⦃table : Fragment⦄ ⦃kinds : List Kind⦄ (last : Option (List Kind × Fragment)), Spaced kinds table.chars →
    (last.isNone = true → Spaced.endsSolid kinds) → (∀ part ∈ last, Spaced part.1 part.2.chars) →
      Spaced (kinds ++ listed last.isNone (Field.kindsAll Spelling.text (Field.rereadAll fields))
          ++ closingComma ((Field.kindsAll Spelling.text (Field.rereadAll fields)).getLast?.or (last.map (·.1)))
          ++ [.symbol .rightBrace])
        (Field.printTable module table (last.map (·.2)) fields).chars

/-- The text of a block spells the block that it is read as. -/
def Block.Spells (body : Block Spelling) : Prop :=
  Printed (body.reread.kinds Spelling.text true) (body.printOnto module .empty).chars

/-- The same behind statements that a block already has. -/
def Block.SpellsOnto (body : Block Spelling) : Prop :=
  ∀ ⦃block : Fragment⦄ ⦃kinds : List Kind⦄, Printed kinds block.chars →
    Printed (kinds ++ body.reread.kinds Spelling.text kinds.isEmpty) (body.printOnto module block).chars

section Onto

variable {module : String}

theorem Expr.SpellsOnto.all {expressions : List (Expr Spelling)} (onto : Expr.SpellsOnto module expressions) :
    Expr.SpellsAll module expressions := by
  have front : Spaced [] Fragment.empty.chars := .nil
  exact ⟨onto true front (by simp [Spaced.endsSolid]), listed_closed true (Expr.kindsAll_closed _ _)⟩

theorem Field.SpellsOnto.all {fields : List (Field Spelling)} (onto : Field.SpellsOnto module fields) :
    Field.SpellsAll module fields := by
  intro position
  have front : Spaced [.symbol .leftBrace] ((node module position).append "\x7b").chars := Spaced.symbol .leftBrace
  have whole := onto none front (by simp [Spaced.endsSolid]; rfl) (by simp)
  simpa [braces] using whole

theorem Block.SpellsOnto.whole {body : Block Spelling} (onto : body.SpellsOnto module) : body.Spells module := by
  have front : Printed [] Fragment.empty.chars := ⟨.nil, rfl⟩
  exact onto front

end Onto

namespace Expr

variable {module : String} {callee operand left right : Expr Spelling} {arguments : List (Expr Spelling)}
  {context : Context} {site : Site}

theorem Spells.printed (spells : operand.Spells module .top) :
    Printed ((operand.reread .top).kinds Spelling.text) (operand.print module .top).chars :=
  ⟨spells, Expr.kinds_closed ..⟩

theorem spells_literal {kind : LiteralKind} {raw : String} (formed : kind.Formed Kind.Written raw) :
    (literal site kind raw).Spells module context := by
  obtain ⟨written, same⟩ := formed
  have token : Spaced [kind.token raw] (Print.literal module site.position raw).chars := by
    have spelled := Spaced.single written
    rw [← same] at spelled
    simpa [Print.literal] using spelled
  simp only [Spells, Expr.reread, Expr.kinds, Site.enclose, Expr.print]
  split
  next =>
    rw [chars_enclose]
    exact token.enclose
  next => exact token

theorem spells_binary {operator : BinaryOp} (front : left.Spells module (.ofBinary operator .left))
    (back : right.Spells module (.ofBinary operator .right)) :
    (binary site operator left right).Spells module context := by
  have closed := (left.reread (.ofBinary operator .left)).kinds_closed Spelling.text
  have middle := spaced_operator operator
    (operator = .concat && left.endsWithNumeral && (left.print module (.ofBinary operator .left)).last ≠ some ')')
    front ((left.reread _).kinds_ne_nil _) closed (by
      rintro unspaced rfl
      by_cases numeral : left.endsWithNumeral = true
      · exact spaced_number front closed (by simpa [numeral] using unspaced)
      · exact left.reread_carrying _ _ (by simpa using numeral))
  have whole := middle.join_leads (by cases operator <;> rfl) back ((right.reread _).kinds_head _).startsOpening
  rw [← Expr.kinds_graft] at whole
  simp only [Spells, Expr.print, Expr.reread]
  split
  next =>
    rw [Expr.kinds_parenthesize _ (Expr.graft_site ..), chars_enclose, chars_operation]
    exact whole.enclose
  next =>
    rw [chars_operation]
    exact whole

theorem spells_unary {operator : UnaryOp} (inner : operand.Spells module (.ofUnary operator)) :
    (unary site operator operand).Spells module context := by
  have token : Spaced [operator.token] operator.text.toList := by
    cases operator <;> first | exact Spaced.symbol _ | exact Spaced.keyword _
  have whole := token.join_leads_single (by cases operator <;> rfl) inner
    ((operand.reread _).kinds_head _).startsOpening
  refine spaced_marked module ⟨site.position, needsUnaryParentheses context⟩ ?_
  simpa using whole

theorem spells_call (applied : callee.Spells module .top) (given : SpellsAll module arguments) :
    (call site callee arguments).Spells module context := by
  have opened := (spaced_base module applied).join_closed (Expr.kinds_closed ..) (Spaced.symbol .leftParen) rfl
  have whole := (opened.join_solid rfl given.spaced).append_punctuation (Spaced.symbol .rightParen) rfl
  refine spaced_marked module site ?_
  simpa using whole

theorem spells_callTable {position : Position} {fields : List (Field Spelling)}
    (applied : callee.Spells module .top) (given : Field.SpellsAll module fields) :
    (callTable site callee position fields).Spells module context := by
  have whole := (spaced_base module applied).join_closed (Expr.kinds_closed ..) (given position) rfl
  refine spaced_marked module site ?_
  simpa using whole

theorem spells_callString {position : Position} {raw : String} (applied : callee.Spells module .top)
    (given : (Kind.string raw).Written) : (callString site callee position raw).Spells module context := by
  have whole := (spaced_base module applied).join_closed (Expr.kinds_closed ..) (Spaced.single given) rfl
  refine spaced_marked module site ?_
  simpa [Kind.chars, Print.literal] using whole

theorem spells_index (applied : callee.Spells module .top) (key : operand.Spells module .top) :
    (index site callee operand).Spells module context := by
  have opened := (spaced_base module applied).join_closed (Expr.kinds_closed ..) (Spaced.symbol .leftBracket) rfl
  have whole := (opened.join_solid rfl key).append_punctuation (Spaced.symbol .rightBracket) rfl
  simpa [Spells] using whole

theorem spells_member {access : Access} {name : Name} (applied : callee.Spells module .top)
    (suffixable : callee.isSuffixable = true) (written : (Kind.name name.text).Written) :
    (member site callee access name).Spells module context := by
  have carries := Expr.suffixable_carrying Spelling.text (Expr.isSuffixable_asBase suffixable)
  have whole := spaced_member module (spaced_base module applied) carries site.position access written
  simpa [Spells] using whole

theorem spells_function {parameters : Parameters Spelling} {body : Block Spelling}
    (names : ∀ name ∈ parameters.names, name.Written) (inner : body.Spells module) :
    (function site parameters body).Spells module context := by
  have whole := ((printed_functionBody module names inner).start .kFunction).spaced
  simpa [Spells] using whole

theorem spells_table {fields : List (Field Spelling)} (given : Field.SpellsAll module fields) :
    (table site fields).Spells module context := by
  simpa [Spells] using given site.position

theorem spellsOnto_cons (first : operand.Spells module .top) (rest : SpellsOnto module arguments) :
    SpellsOnto module (operand :: arguments) := by
  intro list kinds isFirst front solid
  have further := rest false (front.addItem isFirst solid first) (by simp)
  rw [Expr.rereadAll, Expr.kindsAll, Spaced.listed_cons, ← List.append_assoc]
  exact further

end Expr

namespace Field

variable {module : String} {value : Expr Spelling}

theorem spaced_keyed {key : Expr Spelling} (first : key.Spells module .top) (second : value.Spells module .top) :
    Spaced ((keyed key value).reread.kinds Spelling.text) ((keyed key value).print module).chars := by
  have opened := (Spaced.symbol .leftBracket).join_solid_single rfl first
  have closing : Spaced [.symbol .rightBracket, .symbol .assign] [']', '='] :=
    .pair trivial trivial (by simp [Kind.separate])
  have closed := opened.append_punctuation closing rfl
  rw [List.append_cons] at closed
  have whole := closed.join_leads rfl second ((value.reread .top).kinds_head _).startsOpening
  simpa using whole

theorem spaced_named {name : Name} (written : (Kind.name name.text).Written) (second : value.Spells module .top) :
    Spaced ((named name value).reread.kinds Spelling.text) ((named name value).print module).chars := by
  have named : Spaced ([.name name.text] ++ [.symbol .assign]) (name.text.toList ++ ['=']) :=
    .pair written trivial (by simp [Kind.chars, Kind.separate]; decide)
  have whole := named.join_leads rfl second ((value.reread .top).kinds_head _).startsOpening
  simpa using whole

theorem spellsOnto_nil : SpellsOnto module [] := by
  intro table kinds last front _ spelled
  simpa [listed] using spaced_closeTable front last spelled

theorem spellsOnto_cons {field : Field Spelling} {fields : List (Field Spelling)}
    (first : Spaced (field.reread.kinds Spelling.text) (field.print module).chars) (rest : SpellsOnto module fields) :
    SpellsOnto module (field :: fields) := by
  intro table kinds last front solid spelled
  have further := rest (some (field.reread.kinds Spelling.text, field.print module))
    (front.addItem last.isNone solid first) (by simp) (by simpa using first)
  have last (field : List Kind) (fields : List (List Kind)) (before : Option (List Kind)) :
      (field :: fields).getLast?.or before = fields.getLast?.or (some field) := by
    rw [List.getLast?_cons]
    cases fields.getLast? <;> rfl
  rw [Field.rereadAll, Field.kindsAll, Spaced.listed_cons, ← List.append_assoc, last]
  simpa using further

end Field

namespace Stat

variable {module : String} {position : Position} {condition first limit : Expr Spelling} {body : Block Spelling}
  {names : List Spelling} {counter : Spelling} {parameters : Parameters Spelling}
  {targets values : List (Expr Spelling)} {value : Expr Spelling}

theorem printed_assign (front : Expr.SpellsAll module targets) (back : Expr.SpellsAll module (value :: values)) :
    Printed ((assign position targets (value :: values)).reread.kinds Spelling.text)
      ((assign position targets (value :: values)).print module).chars := by
  have whole := front.operand .assign back (Expr.listed_head _ _ (Expr.kinds_head ..)) rfl rfl
  simpa using whole

theorem printed_localNames (written : ∀ name ∈ names, name.Written) :
    Printed ((localVars position names []).reread.kinds Spelling.text)
      ((localVars position names []).print module).chars := by
  have whole := (printed_spellings module written).start .kLocal
  simpa using whole

theorem printed_localValues (written : ∀ name ∈ names, name.Written)
    (back : Expr.SpellsAll module (value :: values)) :
    Printed ((localVars position names (value :: values)).reread.kinds Spelling.text)
      ((localVars position names (value :: values)).print module).chars := by
  have whole := ((printed_spellings module written).start .kLocal).operand .assign back
    (Expr.listed_head _ _ (Expr.kinds_head ..)) rfl rfl
  simpa using whole

theorem printed_whileLoop (test : condition.Spells module .top) (inner : body.Spells module) :
    Printed ((whileLoop position condition body).reread.kinds Spelling.text)
      ((whileLoop position condition body).print module).chars := by
  have whole := ((test.printed.start .kWhile).part .kDo inner).keyword .kEnd
  simpa using whole

theorem printed_doBlock (inner : body.Spells module) :
    Printed ((doBlock position body).reread.kinds Spelling.text) ((doBlock position body).print module).chars := by
  have whole := (inner.start .kDo).keyword .kEnd
  simpa using whole

theorem printed_repeatLoop (inner : body.Spells module) (test : condition.Spells module .top) :
    Printed ((repeatLoop position body condition).reread.kinds Spelling.text)
      ((repeatLoop position body condition).print module).chars := by
  have whole := (inner.start .kRepeat).part .kUntil test.printed
  simpa using whole

theorem printed_function {name : FunctionName Spelling} (named : name.Formed Kind.Written Spelling.Written)
    (written : ∀ name ∈ parameters.names, name.Written) (inner : body.Spells module) :
    Printed ((function position name parameters body).reread.kinds Spelling.text)
      ((function position name parameters body).print module).chars := by
  have whole := ((printed_functionName module named).start .kFunction).append
    (printed_functionBody module written inner) rfl
  simpa [functionKinds] using whole

theorem printed_localFunction (named : counter.Written) (written : ∀ name ∈ parameters.names, name.Written)
    (inner : body.Spells module) :
    Printed ((localFunction position counter parameters body).reread.kinds Spelling.text)
      ((localFunction position counter parameters body).print module).chars := by
  have local_ : Printed [.keyword .kLocal] Keyword.kLocal.text.toList := ⟨.keyword .kLocal, rfl⟩
  have whole := (local_.part .kFunction (printed_spelling module named)).append
    (printed_functionBody module written inner) rfl
  simpa [functionKinds] using whole

theorem printed_count (named : counter.Written) (start : first.Spells module .top) (stop : limit.Spells module .top)
    (inner : body.Spells module) :
    Printed ((numericFor position counter first limit none body).reread.kinds Spelling.text)
      ((numericFor position counter first limit none body).print module).chars := by
  have head := (((printed_spelling module named).start .kFor).operand .assign start.printed
    (Expr.kinds_head ..) rfl rfl).operand .comma stop.printed (Expr.kinds_head ..) rfl rfl
  have whole := (head.part .kDo inner).keyword .kEnd
  simpa using whole

theorem printed_step {step : Expr Spelling} (named : counter.Written) (start : first.Spells module .top)
    (stop : limit.Spells module .top) (stride : step.Spells module .top) (inner : body.Spells module) :
    Printed ((numericFor position counter first limit (some step) body).reread.kinds Spelling.text)
      ((numericFor position counter first limit (some step) body).print module).chars := by
  have head := ((((printed_spelling module named).start .kFor).operand .assign start.printed
    (Expr.kinds_head ..) rfl rfl).operand .comma stop.printed (Expr.kinds_head ..) rfl rfl).operand .comma
      stride.printed (Expr.kinds_head ..) rfl rfl
  have whole := (head.part .kDo inner).keyword .kEnd
  simpa using whole

theorem printed_genericFor (written : ∀ name ∈ names, name.Written) (given : Expr.SpellsAll module values)
    (inner : body.Spells module) :
    Printed ((genericFor position names values body).reread.kinds Spelling.text)
      ((genericFor position names values body).print module).chars := by
  have head := ((printed_spellings module written).start .kFor).part .kIn given
  have whole := (head.part .kDo inner).keyword .kEnd
  simpa using whole

theorem printed_label {name : Name} (written : (Kind.name name.text).Written) :
    Printed ((label position name).reread.kinds Spelling.text) ((label position name).print module).chars := by
  have named : Spaced ([.symbol .colonColon] ++ [.name name.text]) ([':', ':'] ++ name.text.toList) :=
    .pair trivial written (by simp [Kind.separate])
  have whole := named.append (Spaced.symbol .colonColon) fun last next final head => by
    obtain rfl : .name name.text = last := by simpa using final
    obtain rfl : ':' = next := by simpa using head
    rfl
  exact ⟨by simpa using whole, rfl⟩

theorem printed_goto {name : Name} (written : (Kind.name name.text).Written) :
    Printed ((goto position name).reread.kinds Spelling.text) ((goto position name).print module).chars := by
  have token : Printed [.name name.text] (Kind.name name.text).chars := ⟨.single written, rfl⟩
  have whole := token.start .kGoto
  simpa [Kind.chars] using whole

theorem printed_branch (test : condition.Spells module .top) (inner : body.Spells module) :
    Printed (.keyword .kIf :: (condition.reread .top).kinds Spelling.text ++
        .keyword .kThen :: body.reread.kinds Spelling.text true)
      ((node module position).join (((((node module position).append "if").join (condition.print module .top)).join
        "then").join (body.printOnto module .empty)).toPiece).chars := by
  have branch := (test.printed.start .kIf).part .kThen inner
  simpa using branch

end Stat

namespace Else

variable {module : String} {position : Position} {body : Block Spelling} {conditional : Fragment} {kinds : List Kind}

theorem printed_otherwise (front : Printed kinds conditional.chars) (inner : body.Spells module) :
    Printed (kinds ++ (otherwise position body).reread.kinds Spelling.text)
      (((otherwise position body).printOnto module conditional).join "end").chars := by
  have whole := (front.append (inner.start .kElse) rfl).keyword .kEnd
  simpa using whole

theorem printed_branch {condition : Expr Spelling} (front : Printed kinds conditional.chars)
    (test : condition.Spells module .top) (inner : body.Spells module) :
    Printed (kinds ++ .keyword .kElseif :: (condition.reread .top).kinds Spelling.text ++
        .keyword .kThen :: body.reread.kinds Spelling.text true)
      (conditional.join (((((node module position).append "elseif").join (condition.print module .top)).join
        "then").join (body.printOnto module .empty)).toPiece).chars := by
  have branch := front.append ((test.printed.start .kElseif).part .kThen inner) rfl
  simpa using branch

end Else

namespace Block

variable {module : String} {position : Position} {block : Fragment} {kinds : List Kind}

theorem printed_return (front : Printed kinds block.chars) :
    Printed (kinds ++ (ret position []).reread.kinds Spelling.text kinds.isEmpty)
      ((ret position []).printOnto module block).chars := by
  have inner : Printed [.keyword .kReturn] ((node module position).append "return").chars :=
    ⟨Spaced.keyword .kReturn, rfl⟩
  have whole := front.statement inner ⟨_, _, rfl, rfl⟩
  simpa [listed, separated] using whole

theorem printed_returnValues {value : Expr Spelling} {values : List (Expr Spelling)}
    (front : Printed kinds block.chars) (given : Expr.SpellsAll module (value :: values)) :
    Printed (kinds ++ (ret position (value :: values)).reread.kinds Spelling.text kinds.isEmpty)
      ((ret position (value :: values)).printOnto module block).chars := by
  have inner : Printed
      (.keyword .kReturn :: listed true (Expr.kindsAll Spelling.text (Expr.rereadAll (value :: values))))
      (((node module position).append "return").join
        (Expr.printList module .empty true (value :: values))).chars := by
    simpa using given.start .kReturn
  have whole := front.statement inner ⟨_, _, rfl, rfl⟩
  simpa [separated] using whole

theorem spellsOnto_cons {head : Stat Spelling} {tail : Block Spelling}
    (formed : head.Formed Kind.Written Spelling.Written)
    (first : Printed (head.reread.kinds Spelling.text) (head.print module).chars) (rest : tail.SpellsOnto module) :
    (cons head tail).SpellsOnto module := by
  intro block kinds front
  have start := (head.reread.kinds_head Spelling.text (head.formed_reread formed)).imp
    Kind.startsLine_of_startsStatement
  have whole := rest (front.statement first start)
  have notFirst : (kinds ++ separated kinds.isEmpty (head.reread.kinds Spelling.text)).isEmpty = false := by
    simp [separated_ne_nil _ start.ne_nil]
  rw [notFirst] at whole
  simpa using whole

end Block

mutual

theorem Expr.spaced_print : ∀ (expression : Expr Spelling) (context : Context) {called : Bool},
    expression.Formed Kind.Written Spelling.Written called → expression.Spells module context
  | .identifier _ _, _, _, formed => spaced_spelling module formed
  | .literal _ _ _, _, _, formed => Expr.spells_literal formed
  | .binary _ operator left right, _, _, formed =>
    Expr.spells_binary (left.spaced_print (.ofBinary operator .left) formed.1)
      (right.spaced_print (.ofBinary operator .right) formed.2)
  | .unary _ operator operand, _, _, formed => Expr.spells_unary (operand.spaced_print (.ofUnary operator) formed)
  | .call _ callee arguments, _, _, ⟨_, formed, given⟩ =>
    Expr.spells_call (callee.spaced_print .top formed) (Expr.spaced_printList arguments given).all
  | .callTable _ callee _ fields, _, _, ⟨_, formed, given⟩ =>
    Expr.spells_callTable (callee.spaced_print .top formed) (Field.spaced_printTable fields given).all
  | .callString _ callee _ _, _, _, ⟨_, formed, given⟩ =>
    Expr.spells_callString (callee.spaced_print .top formed) given
  | .index _ base key, _, _, ⟨_, formed, given⟩ =>
    Expr.spells_index (base.spaced_print .top formed) (key.spaced_print .top given)
  | .member _ base _ _, _, _, ⟨_, suffixable, formed, written⟩ =>
    Expr.spells_member (base.spaced_print .top formed) suffixable written
  | .function _ _ body, _, _, ⟨names, formed⟩ =>
    Expr.spells_function names (body.printed_onto formed).whole
  | .table _ fields, _, _, formed => Expr.spells_table (Field.spaced_printTable fields formed).all

theorem Expr.spaced_printList : ∀ expressions : List (Expr Spelling),
    Expr.FormedAll Kind.Written Spelling.Written expressions → Expr.SpellsOnto module expressions
  | [], _ => fun _ _ isFirst front _ => by simpa [listed] using front
  | expression :: rest, formed =>
    Expr.spellsOnto_cons (expression.spaced_print .top formed.1) (Expr.spaced_printList rest formed.2)

theorem Field.spaced_print : ∀ field : Field Spelling, field.Formed Kind.Written Spelling.Written →
    Spaced (field.reread.kinds Spelling.text) (field.print module).chars
  | .keyed key value, formed =>
    Field.spaced_keyed (key.spaced_print .top formed.1) (value.spaced_print .top formed.2)
  | .named _ value, formed => Field.spaced_named formed.1 (value.spaced_print .top formed.2)
  | .item value, formed => value.spaced_print .top formed

theorem Field.spaced_printTable : ∀ fields : List (Field Spelling),
    Field.FormedAll Kind.Written Spelling.Written fields → Field.SpellsOnto module fields
  | [], _ => Field.spellsOnto_nil
  | field :: rest, formed =>
    Field.spellsOnto_cons (field.spaced_print formed.1) (Field.spaced_printTable rest formed.2)

theorem Stat.printed : ∀ statement : Stat Spelling, statement.Formed Kind.Written Spelling.Written →
    Printed (statement.reread.kinds Spelling.text) (statement.print module).chars
  | .assign position targets [], ⟨_, _, _, given, _⟩ => absurd rfl given
  | .assign position targets (value :: values), ⟨_, _, formed, _, formedValues⟩ =>
    Stat.printed_assign (Expr.spaced_printList targets formed).all
      (Expr.spellsOnto_cons (value.spaced_print .top formedValues.1)
        (Expr.spaced_printList values formedValues.2)).all
  | .localVars position names [], ⟨_, written, _⟩ => Stat.printed_localNames written
  | .localVars position names (value :: values), ⟨_, written, formed⟩ =>
    Stat.printed_localValues written
      (Expr.spellsOnto_cons (value.spaced_print .top formed.1) (Expr.spaced_printList values formed.2)).all
  | .call position applied, ⟨_, _, formed⟩ => by simpa using (applied.spaced_print .top formed).printed
  | .cond position condition body rest, ⟨test, inner, further⟩ =>
    Else.printed_onto rest
      (Stat.printed_branch (condition.spaced_print .top test) (body.printed_onto inner).whole) further
  | .whileLoop position condition body, ⟨test, inner⟩ =>
    Stat.printed_whileLoop (condition.spaced_print .top test) (body.printed_onto inner).whole
  | .doBlock position body, inner => Stat.printed_doBlock (body.printed_onto inner).whole
  | .breakLoop _, _ => ⟨Spaced.keyword .kBreak, rfl⟩
  | .repeatLoop position body condition, ⟨inner, test⟩ =>
    Stat.printed_repeatLoop (body.printed_onto inner).whole (condition.spaced_print .top test)
  | .function position name parameters body, ⟨named, names, inner⟩ =>
    Stat.printed_function named names (body.printed_onto inner).whole
  | .localFunction position name parameters body, ⟨named, names, inner⟩ =>
    Stat.printed_localFunction named names (body.printed_onto inner).whole
  | .numericFor position counter first limit none body, ⟨named, start, stop, inner⟩ =>
    Stat.printed_count named (first.spaced_print .top start) (limit.spaced_print .top stop)
      (body.printed_onto inner).whole
  | .numericFor position counter first limit (some step) body, ⟨named, start, stop, stride, inner⟩ =>
    Stat.printed_step named (first.spaced_print .top start) (limit.spaced_print .top stop)
      (step.spaced_print .top stride) (body.printed_onto inner).whole
  | .genericFor position names iterators body, ⟨_, written, _, given, inner⟩ =>
    Stat.printed_genericFor written (Expr.spaced_printList iterators given).all (body.printed_onto inner).whole
  | .label position name, written => Stat.printed_label written
  | .goto position name, written => Stat.printed_goto written

theorem Else.printed_onto : ∀ (rest : Else Spelling) {conditional : Fragment} {kinds : List Kind},
    Printed kinds conditional.chars → rest.Formed Kind.Written Spelling.Written →
      Printed (kinds ++ rest.reread.kinds Spelling.text) ((rest.printOnto module conditional).join "end").chars
  | .none, _, _, front, _ => by simpa using front.keyword .kEnd
  | .otherwise position body, _, _, front, inner => Else.printed_otherwise front (body.printed_onto inner).whole
  | .elseif position condition body rest, _, _, front, ⟨test, inner, further⟩ => by
    simp only [Else.reread, Else.kinds, Else.printOnto, ← List.append_assoc]
    exact Else.printed_onto rest
      (Else.printed_branch front (condition.spaced_print .top test) (body.printed_onto inner).whole) further

theorem Block.printed_onto : ∀ body : Block Spelling, body.Formed Kind.Written Spelling.Written →
    body.SpellsOnto module
  | .nil, _ => fun _ _ front => by simpa using front
  | .ret position [], _ => fun _ _ front => Block.printed_return front
  | .ret position (value :: values), given => fun _ _ front => Block.printed_returnValues front
    (Expr.spellsOnto_cons (value.spaced_print .top given.1) (Expr.spaced_printList values given.2)).all
  | .cons head tail, ⟨first, further⟩ =>
    Block.spellsOnto_cons first (head.printed first) (tail.printed_onto further)

end

theorem Block.printed (body : Block Spelling) (formed : body.Formed Kind.Written Spelling.Written) :
    body.Spells module :=
  (body.printed_onto module formed).whole

end Trees
end LuaMinifier
