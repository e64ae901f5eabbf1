import LuaMinifier.Proofs.Layout
import LuaMinifier.Proofs.Rendering

/-!
Printed trees are laid out. Main statement: what is printed for a block is the layout of the tokens of the block that
it is read as, whatever its numbers look like.
-/

namespace LuaMinifier

open Token Print

variable {ι : Type}

namespace Laid

variable (module : String)

theorem spelling {occurrence : Spelling} (written : occurrence.Written) :
    Laid [.name occurrence.text] (Print.spelling module occurrence) := by
  have token := (Laid.name written).begins (node module occurrence.position) rfl
  unfold Print.spelling
  split
  · exact ⟨token.legible, token.start, token.finish, token.text, token.cut⟩
  · exact token

theorem spellings {names : List Spelling} (written : ∀ name ∈ names, name.Written) :
    Laid (listed true (nameItems Spelling.text names)) (Print.spellings module names) := by
  have parts := Laid.empty.items (names.map fun name => ([.name name.text], Print.spelling module name)) true (by
    simpa using fun name found => spelling module (written name found))
  simpa [nameItems, Print.spellings, Function.comp_def] using parts

theorem parameters {list : Parameters Spelling} (written : ∀ name ∈ list.names, name.Written) :
    Laid (listed true (list.items Spelling.text)) (Print.parameters module list) := by
  have parts := Laid.empty.items (list.names.map (fun name => ([.name name.text], Print.spelling module name)) ++
      (list.vararg.map fun position => ([.symbol .dotDotDot], (node module position).append "...")).toList) true (by
    simp only [List.mem_append, List.mem_map, Option.mem_toList, Option.map_eq_some_iff]
    rintro part (⟨name, found, rfl⟩ | ⟨position, _, rfl⟩)
    · exact spelling module (written name found)
    · exact (Laid.symbol .dotDotDot (by simp) (by simp)).begins _ rfl)
  cases vararg : list.vararg <;>
    simpa [Parameters.items, nameItems, Print.parameters, vararg, Function.comp_def] using parts

theorem functionBody {list : Parameters Spelling} {kinds : List Kind} {body : Fragment}
    (written : ∀ name ∈ list.names, name.Written) (inner : Laid kinds body) :
    Laid (functionKinds (list.items Spelling.text) kinds) (Print.functionBody module list body) := by
  have head := (parameters module written).enclose .empty rfl
  simpa [functionKinds, Print.functionBody, Keyword.text] using (head.join inner).join (Laid.keyword .kEnd)

theorem access (access : Access) {name : Name} (written : (Kind.name name.text).Written) :
    Laid [access.token, .name name.text] (.text (access.text ++ name.text)) where
  legible := by
    have legible : (Kind.name name.text).Legible := written
    cases access <;> simp [Access.token, Kind.Legible, Kind.Written] <;> exact written
  start := by cases access <;> simp [Access.token]
  finish := by simp
  text := by
    have apart : access.token.parted (.name name.text) = false := by
      cases access with
      | dot => rfl
      | colon =>
          change needsSeparator (.ofChars [':']) name.text.toList.head? = false
          cases name.text.toList.head? <;> simp [Tail.ofChars, needsSeparator, fuses, Lexeme.startsName]
    cases access <;> simp_all [layout, gap, Piece.chars, Access.token, Access.text, Kind.chars, Symbol.text]
  cut := fun _ => .leaf (spaced_access access written)

theorem member {kinds : List Kind} {base : Fragment} (front : Laid kinds base) (position : Position) (access : Access)
    {name : Name} (written : (Kind.name name.text).Written) :
    Laid (kinds ++ [access.token, .name name.text]) (Print.member module position base access name) :=
  (front.begins _ rfl).join (Laid.access access written)

theorem path {kinds : List Kind} {base : Fragment} (fields : List Name) (front : Laid kinds base) (position : Position)
    (written : ∀ field ∈ fields, (Kind.name field.text).Written) :
    Laid (kinds ++ fields.flatMap fun field => [.symbol .dot, .name field.text])
      (fields.foldl (fun base field => Print.member module position base .dot field) base : Fragment) := by
  induction fields generalizing kinds base with
  | nil => simpa using front
  | cons field rest ih =>
      rw [List.forall_mem_cons] at written
      simpa [Access.token] using ih (member module front position .dot written.1) written.2

theorem functionName {name : FunctionName Spelling} (formed : name.Formed Kind.Legible Spelling.Written) :
    Laid (name.kinds Spelling.text) (Print.functionName module name) := by
  obtain ⟨root, fields, method⟩ := formed
  have path := path module name.fields (spelling module root) name.root.position fields
  simp only [Print.functionName]
  cases found : name.method with
  | none => simpa [FunctionName.kinds, found] using path
  | some called =>
      simpa [FunctionName.kinds, found, Access.token] using
        member module path name.root.position .colon (method called found)

/-- Parentheses are printed where a site is marked with them. -/
theorem marked (site : Site) {kinds : List Kind} {printed : Fragment} (inner : Laid kinds printed) :
    Laid (site.enclose kinds)
      (if site.parenthesized then Print.enclose module site.position printed else printed : Fragment) := by
  unfold Site.enclose
  split
  · exact inner.enclose _ rfl
  · exact inner

/-- Something that is applied to is printed as what it is read as. -/
theorem base {expression : Expr Spelling} {printed : Fragment}
    (inner : Laid ((expression.reread .top).kinds Spelling.text) printed) :
    Laid (((expression.reread .top).asBase expression).kinds Spelling.text)
      (Print.base module expression printed) := by
  unfold Print.base Expr.asBase
  split
  next needed =>
    rw [Expr.kinds_parenthesize _ (Expr.bare_of_needsBaseParentheses needed)]
    exact inner.enclose _ rfl
  next => exact inner

end Laid

theorem Expr.reread_numeral (text : ι → String) : ∀ (expression : Expr ι) (context : Context),
    expression.endsWithNumeral = true → ∃ kind, ((expression.reread context).kinds text).getLast? = some kind ∧
      (kind = .symbol .rightParen ∨ ∃ raw, kind = .number raw)
  | .literal site kind raw, _, numeral => by
    have isNumber : kind = .number := by simpa [endsWithNumeral] using numeral
    subst isNumber
    exact ⟨.number raw, by simp [Expr.reread, Expr.kinds, Site.enclose, LiteralKind.token], .inr ⟨raw, rfl⟩⟩
  | .binary site operator left right, context, numeral => by
    obtain ⟨kind, last, known⟩ := reread_numeral text right (.ofBinary operator .right) numeral
    obtain ⟨whole, graft, ⟨_, same⟩ | ⟨_, same⟩⟩ := reread_binary_cases context site operator left right
    · rw [same, kinds_parenthesize text (graft ▸ graft_site ..)]
      exact ⟨.symbol .rightParen, List.getLast?_concat, .inl rfl⟩
    · rw [same, graft, kinds_graft, List.getLast?_append, List.getLast?_cons, last]
      exact ⟨kind, rfl, known⟩
  | .unary site operator operand, context, numeral => by
    obtain ⟨kind, last, known⟩ := reread_numeral text operand (.ofUnary operator) numeral
    simp only [Expr.reread, Expr.kinds, Site.enclose]
    split
    · exact ⟨.symbol .rightParen, List.getLast?_concat, .inl rfl⟩
    · exact ⟨kind, by rw [List.getLast?_cons, last]; rfl, known⟩

section Trees

variable {module : String}

attribute [local simp] Expr.reread Expr.kinds Expr.print Field.reread Field.kinds Field.print Stat.reread Stat.kinds
  Stat.print Else.reread Else.kinds Else.printOnto Block.reread Block.kinds Block.printOnto Expr.rereadAll
  Expr.kindsAll Expr.printList Field.rereadAll Field.kindsAll Field.printTable Site.enclose Keyword.text Symbol.text

variable (module) in
/-- The text of an expression is the layout of the tree that it is read as. -/
def Expr.LaidOut (context : Context) (expression : Expr Spelling) : Prop :=
  Laid ((expression.reread context).kinds Spelling.text) (expression.print module context)

variable (module) in
/-- The same for a list of expressions, behind items that the list already has. -/
def Expr.LaidOnto (expressions : List (Expr Spelling)) : Prop :=
  ∀ ⦃list : Fragment⦄ ⦃kinds : List Kind⦄ (isFirst : Bool), Laid kinds list →
    Laid (kinds ++ listed isFirst (Expr.kindsAll Spelling.text (Expr.rereadAll expressions)))
      (Expr.printList module list isFirst expressions)

variable (module) in
/-- The same for the fields of a table, behind fields that it already has. -/
def Field.LaidOnto (fields : List (Field Spelling)) : Prop :=
  ∀ ⦃table : Fragment⦄ ⦃kinds : List Kind⦄ (last : Option (List Kind × Fragment)), Laid kinds table →
    (∀ part ∈ last, Laid part.1 part.2) →
      Laid (kinds ++ listed last.isNone (Field.kindsAll Spelling.text (Field.rereadAll fields))
          ++ closingComma ((Field.kindsAll Spelling.text (Field.rereadAll fields)).getLast?.or (last.map (·.1)))
          ++ [.symbol .rightBrace])
        (Field.printTable module table (last.map (·.2)) fields)

variable (module) in
/-- The same for a block, behind statements that a block already has. -/
def Block.LaidOnto (body : Block Spelling) : Prop :=
  ∀ ⦃block : Fragment⦄ ⦃kinds : List Kind⦄, Laid kinds block →
    Laid (kinds ++ body.reread.kinds Spelling.text kinds.isEmpty) (body.printOnto module block)

theorem Expr.LaidOnto.all {expressions : List (Expr Spelling)} (onto : Expr.LaidOnto module expressions) :
    Laid (listed true (Expr.kindsAll Spelling.text (Expr.rereadAll expressions)))
      (Expr.printList module .empty true expressions) :=
  onto true .empty

theorem Field.LaidOnto.all {fields : List (Field Spelling)} (onto : Field.LaidOnto module fields)
    (position : Position) : Laid (braces (Field.kindsAll Spelling.text (Field.rereadAll fields)))
      (Field.printTable module ((node module position).append "\x7b") none fields) := by
  have whole := onto none ((Laid.symbol .leftBrace (by simp) (by simp)).begins (node module position) rfl) (by simp)
  simpa [braces] using whole

theorem Block.LaidOnto.whole {body : Block Spelling} (onto : body.LaidOnto module) :
    Laid (body.reread.kinds Spelling.text true) (body.printOnto module .empty) :=
  onto .empty

namespace Expr

variable {callee operand left right : Expr Spelling} {arguments : List (Expr Spelling)} {context : Context}
  {site : Site}

theorem laidOut_literal {kind : LiteralKind} {raw : String} (formed : kind.Formed Kind.Legible raw) :
    (literal site kind raw).LaidOut module context := by
  have token : Laid [kind.token raw] (Print.literal module site.position raw) :=
    (Laid.leaf formed.1 formed.2 (by cases kind <;> simp [LiteralKind.token])
      (by cases kind <;> simp [LiteralKind.token])).begins _ rfl
  exact token.marked module ⟨site.position, site.parenthesized && kind = .vararg⟩

theorem laid_operator {operator : BinaryOp} (other : operator ≠ .concat) :
    Laid [operator.token] (.text operator.text) := by
  cases operator <;> first | exact absurd rfl other | exact Laid.keyword _ | exact Laid.symbol _ (by simp) (by simp)

/-- A blank is put behind a left operand if its last token is a number that does not end in a parenthesis. -/
theorem spaced_iff (front : left.LaidOut module context) :
    (left.endsWithNumeral && (left.print module context).last ≠ some ')') = true ↔
      ∃ raw, ((left.reread context).kinds Spelling.text).getLast? = some (.number raw) ∧
        raw.toList.getLast? ≠ some ')' := by
  have text : (left.print module context).chars = layout ((left.reread context).kinds Spelling.text) := front.text
  have ending : (left.print module context).last =
      ((left.reread context).kinds Spelling.text).getLast?.bind (·.chars.getLast?) := by
    rw [← last_layout front.legible, ← text, Fragment.last, Fragment.tail_eq]
    rcases List.eq_nil_or_concat (left.print module context).chars with nil | ⟨before, last, same⟩
    · simp [nil, Tail.ofChars]
    · simp [same, Tail.ofChars_concat]
  rw [Bool.and_eq_true, decide_eq_true_eq]
  constructor
  · rintro ⟨numeral, noParen⟩
    obtain ⟨kind, last, rfl | ⟨raw, rfl⟩⟩ := left.reread_numeral Spelling.text context numeral
    · exact absurd (by simp [ending, last, Kind.chars]) noParen
    · exact ⟨raw, last, by simpa [ending, last, Kind.chars] using noParen⟩
  · rintro ⟨raw, last, noParen⟩
    refine ⟨?_, by simpa [ending, last, Kind.chars] using noParen⟩
    rw [← Bool.not_eq_false]
    intro other
    have carries := left.reread_carrying Spelling.text context other
    simp [endsCarrying, last, Kind.carries] at carries

theorem laidOut_binary {operator : BinaryOp} (front : left.LaidOut module (.ofBinary operator .left))
    (back : right.LaidOut module (.ofBinary operator .right)) :
    (binary site operator left right).LaidOut module context := by
  have start := front.begins (node module site.position) rfl
  have middle : Laid ((left.reread (.ofBinary operator .left)).kinds Spelling.text ++ [operator.token])
      ((if operator = .concat && left.endsWithNumeral &&
          (left.print module (.ofBinary operator .left)).last ≠ some ')' then
        ((node module site.position).append (left.print module (.ofBinary operator .left))).append " "
        else (node module site.position).append (left.print module (.ofBinary operator .left))).join
          operator.text : Fragment) := by
    by_cases concat : operator = .concat
    · subst concat
      exact start.concat ((left.reread _).kinds_ne_nil _) _ (spaced_iff front)
    · simpa [concat] using start.join (laid_operator concat)
  have whole := middle.join back
  rw [List.append_assoc, List.singleton_append, ← Expr.kinds_graft] at whole
  simp only [LaidOut, Expr.print, Expr.reread]
  split
  next =>
    rw [Expr.kinds_parenthesize _ (Expr.graft_site ..)]
    exact whole.enclose _ rfl
  next => exact whole

theorem laidOut_unary {operator : UnaryOp} (inner : operand.LaidOut module (.ofUnary operator)) :
    (unary site operator operand).LaidOut module context := by
  have token : Laid [operator.token] (.text operator.text) := by
    cases operator <;> first | exact Laid.keyword _ | exact Laid.symbol _ (by simp) (by simp)
  exact ((token.begins (node module site.position) rfl).join inner).marked module
    ⟨site.position, needsUnaryParentheses context⟩

theorem laidOut_call (applied : callee.LaidOut module .top) (given : LaidOnto module arguments) :
    (call site callee arguments).LaidOut module context := by
  have opened := ((Laid.base module applied).begins (node module site.position) rfl).join
    (Laid.symbol .leftParen (by simp) (by simp))
  have whole := (opened.join given.all).punctuation (Laid.symbol .rightParen (by simp) (by simp)) rfl
  simpa [LaidOut] using whole.marked module site

theorem laidOut_callTable {position : Position} {fields : List (Field Spelling)}
    (applied : callee.LaidOut module .top) (given : Field.LaidOnto module fields) :
    (callTable site callee position fields).LaidOut module context :=
  (((Laid.base module applied).begins (node module site.position) rfl).join (given.all position)).marked module site

theorem laidOut_callString {position : Position} {raw : String} (applied : callee.LaidOut module .top)
    (given : (Kind.string raw).Written) : (callString site callee position raw).LaidOut module context := by
  have token : Laid [.string raw] (Print.literal module position raw) :=
    (Laid.leaf (show (Kind.string raw).Legible from given) rfl (by simp) (by simp)).begins _ rfl
  exact (((Laid.base module applied).begins (node module site.position) rfl).join token).marked module site

theorem laidOut_index (applied : callee.LaidOut module .top) (key : operand.LaidOut module .top) :
    (index site callee operand).LaidOut module context := by
  have opened := ((Laid.base module applied).begins (node module site.position) rfl).join
    (Laid.symbol .leftBracket (by simp) (by simp))
  have whole := (opened.join key).punctuation (Laid.symbol .rightBracket (by simp) (by simp)) rfl
  simpa [LaidOut] using whole

theorem laidOut_function {parameters : Parameters Spelling} {body : Block Spelling}
    (names : ∀ name ∈ parameters.names, name.Written) (inner : body.LaidOnto module) :
    (function site parameters body).LaidOut module context :=
  ((Laid.keyword .kFunction).begins (node module site.position) rfl).join (Laid.functionBody module names inner.whole)

theorem laidOnto_cons (first : operand.LaidOut module .top) (rest : LaidOnto module arguments) :
    LaidOnto module (operand :: arguments) := by
  intro list kinds isFirst front
  rw [Expr.rereadAll, Expr.kindsAll, Spaced.listed_cons, ← List.append_assoc]
  exact rest false (front.addItem isFirst first)

end Expr

namespace Field

variable {value : Expr Spelling}

theorem laid_keyed {key : Expr Spelling} (first : key.LaidOut module .top) (second : value.LaidOut module .top) :
    Laid ((keyed key value).reread.kinds Spelling.text) ((keyed key value).print module) := by
  have opened := ((Laid.symbol .leftBracket (by simp) (by simp)).begins (node module key.position) rfl).join first
  have closing : Laid [.symbol .rightBracket, .symbol .assign] (.text "]=") :=
    ⟨by simp [Kind.Legible, Kind.Written], by simp, by simp, by decide +kernel, fun _ => .leaf
      (Spaced.pair trivial trivial (by simp [Kind.separate]))⟩
  simpa using (opened.punctuation closing rfl).join second

theorem laid_named {name : Name} (written : (Kind.name name.text).Written) (second : value.LaidOut module .top) :
    Laid ((named name value).reread.kinds Spelling.text) ((named name value).print module) := by
  have apart : (Kind.name name.text).parted (.symbol .assign) = false := Kind.parted_name written rfl (.inl rfl)
  have named : Laid [.name name.text, .symbol .assign] (.text (name.text ++ "=")) := by
    refine ⟨by simpa [Kind.Legible, Kind.Written] using written, by simp, by simp, ?_, fun _ => .leaf ?_⟩
    · simp [layout, gap, apart, Piece.chars, Kind.chars]
    · have spelled : Spaced [.name name.text, .symbol .assign] (name.text.toList ++ ['=']) :=
        .pair written trivial (by simp [Kind.chars, Kind.separate]; decide)
      simpa using spelled
  simpa using (named.begins (node module name.position) rfl).join second

theorem laidOnto_nil : LaidOnto module [] := by
  intro table kinds last front laid
  simpa [listed] using front.closeTable last laid

theorem laidOnto_cons {field : Field Spelling} {fields : List (Field Spelling)}
    (first : Laid (field.reread.kinds Spelling.text) (field.print module)) (rest : LaidOnto module fields) :
    LaidOnto module (field :: fields) := by
  intro table kinds last front laid
  have further := rest (some (field.reread.kinds Spelling.text, field.print module))
    (front.addItem last.isNone first) (by simpa using first)
  have last (field : List Kind) (fields : List (List Kind)) (before : Option (List Kind)) :
      (field :: fields).getLast?.or before = fields.getLast?.or (some field) := by
    rw [List.getLast?_cons]
    cases fields.getLast? <;> rfl
  rw [Field.rereadAll, Field.kindsAll, Spaced.listed_cons, ← List.append_assoc, last]
  simpa using further

end Field

namespace Stat

variable {position : Position} {condition first limit : Expr Spelling} {body : Block Spelling}
  {names : List Spelling} {counter : Spelling} {parameters : Parameters Spelling}
  {targets values : List (Expr Spelling)} {value : Expr Spelling}

theorem laid_assign (front : Expr.LaidOnto module targets) (back : Expr.LaidOnto module values) :
    Laid ((assign position targets values).reread.kinds Spelling.text)
      ((assign position targets values).print module) := by
  have whole := ((front.all.begins (node module position) rfl).join
    (Laid.symbol .assign (by simp) (by simp))).join back.all
  simpa using whole

theorem laid_localNames (written : ∀ name ∈ names, name.Written) :
    Laid ((localVars position names []).reread.kinds Spelling.text) ((localVars position names []).print module) := by
  have whole := ((Laid.keyword .kLocal).begins (node module position) rfl).join (Laid.spellings module written)
  simpa using whole

theorem laid_localValues (written : ∀ name ∈ names, name.Written) (back : Expr.LaidOnto module (value :: values)) :
    Laid ((localVars position names (value :: values)).reread.kinds Spelling.text)
      ((localVars position names (value :: values)).print module) := by
  have declared := ((Laid.keyword .kLocal).begins (node module position) rfl).join (Laid.spellings module written)
  have whole := (declared.join (Laid.symbol .assign (by simp) (by simp))).join back.all
  simpa using whole

theorem laid_whileLoop (test : condition.LaidOut module .top) (inner : body.LaidOnto module) :
    Laid ((whileLoop position condition body).reread.kinds Spelling.text)
      ((whileLoop position condition body).print module) := by
  have whole := (((((Laid.keyword .kWhile).begins (node module position) rfl).join test).join
    (Laid.keyword .kDo)).join inner.whole).join (Laid.keyword .kEnd)
  simpa using whole

theorem laid_doBlock (inner : body.LaidOnto module) :
    Laid ((doBlock position body).reread.kinds Spelling.text) ((doBlock position body).print module) := by
  have whole := (((Laid.keyword .kDo).begins (node module position) rfl).join inner.whole).join (Laid.keyword .kEnd)
  simpa using whole

theorem laid_repeatLoop (inner : body.LaidOnto module) (test : condition.LaidOut module .top) :
    Laid ((repeatLoop position body condition).reread.kinds Spelling.text)
      ((repeatLoop position body condition).print module) := by
  have whole := ((((Laid.keyword .kRepeat).begins (node module position) rfl).join inner.whole).join
    (Laid.keyword .kUntil)).join test
  simpa using whole

theorem laid_function {name : FunctionName Spelling} (named : name.Formed Kind.Legible Spelling.Written)
    (written : ∀ name ∈ parameters.names, name.Written) (inner : body.LaidOnto module) :
    Laid ((function position name parameters body).reread.kinds Spelling.text)
      ((function position name parameters body).print module) := by
  have whole := (((Laid.keyword .kFunction).begins (node module position) rfl).join
    (Laid.functionName module named)).join (Laid.functionBody module written inner.whole)
  simpa using whole

theorem laid_localFunction (named : counter.Written) (written : ∀ name ∈ parameters.names, name.Written)
    (inner : body.LaidOnto module) :
    Laid ((localFunction position counter parameters body).reread.kinds Spelling.text)
      ((localFunction position counter parameters body).print module) := by
  have whole := ((((Laid.keyword .kLocal).begins (node module position) rfl).join (Laid.keyword .kFunction)).join
    (Laid.spelling module named)).join (Laid.functionBody module written inner.whole)
  simpa using whole

theorem laid_start (position : Position) (named : counter.Written) (start : first.LaidOut module .top) :
    Laid (.keyword .kFor :: .name counter.text :: .symbol .assign :: (first.reread .top).kinds Spelling.text)
      (((((node module position).append "for").join (spelling module counter)).join "=").join
        (first.print module .top)) := by
  have whole := ((((Laid.keyword .kFor).begins (node module position) rfl).join (Laid.spelling module named)).join
    (Laid.symbol .assign (by simp) (by simp))).join start
  simpa using whole

theorem laid_count (named : counter.Written) (start : first.LaidOut module .top) (stop : limit.LaidOut module .top)
    (inner : body.LaidOnto module) :
    Laid ((numericFor position counter first limit none body).reread.kinds Spelling.text)
      ((numericFor position counter first limit none body).print module) := by
  have head := ((laid_start position named start).join (Laid.symbol .comma (by simp) (by simp))).join stop
  have whole := ((head.join (Laid.keyword .kDo)).join inner.whole).join (Laid.keyword .kEnd)
  simpa using whole

theorem laid_step {step : Expr Spelling} (named : counter.Written) (start : first.LaidOut module .top)
    (stop : limit.LaidOut module .top) (stride : step.LaidOut module .top) (inner : body.LaidOnto module) :
    Laid ((numericFor position counter first limit (some step) body).reread.kinds Spelling.text)
      ((numericFor position counter first limit (some step) body).print module) := by
  have comma := Laid.symbol .comma (by simp) (by simp)
  have head := ((((laid_start position named start).join comma).join stop).join comma).join stride
  have whole := ((head.join (Laid.keyword .kDo)).join inner.whole).join (Laid.keyword .kEnd)
  simpa using whole

theorem laid_genericFor (written : ∀ name ∈ names, name.Written) (given : Expr.LaidOnto module values)
    (inner : body.LaidOnto module) :
    Laid ((genericFor position names values body).reread.kinds Spelling.text)
      ((genericFor position names values body).print module) := by
  have head := ((((Laid.keyword .kFor).begins (node module position) rfl).join
    (Laid.spellings module written)).join (Laid.keyword .kIn)).join given.all
  have whole := ((head.join (Laid.keyword .kDo)).join inner.whole).join (Laid.keyword .kEnd)
  simpa using whole

theorem laid_label {name : Name} (written : (Kind.name name.text).Written) :
    Laid ((label position name).reread.kinds Spelling.text) ((label position name).print module) := by
  have front : (Kind.symbol .colonColon).parted (.name name.text) = false := by
    change needsSeparator (.ofChars [':', ':']) name.text.toList.head? = false
    cases name.text.toList.head? <;> simp [Tail.ofChars, needsSeparator, fuses, Lexeme.startsName]
  have back : (Kind.name name.text).parted (.symbol .colonColon) = false := Kind.parted_name written rfl (.inr rfl)
  have token : Laid [.symbol .colonColon, .name name.text, .symbol .colonColon]
      (.text ("::" ++ name.text ++ "::")) := by
    refine ⟨by simpa [Kind.Legible, Kind.Written] using written, by simp, by simp, ?_, fun _ => .leaf ?_⟩
    · simp [layout, gap, front, back, Piece.chars, Kind.chars]
    · have spelled : Printed ((label position name).reread.kinds Spelling.text)
          ((label position name).print module).chars := printed_label written
      simpa [node, Piece.chars] using spelled.spaced
  exact token.begins _ rfl

theorem laid_goto {name : Name} (written : (Kind.name name.text).Written) :
    Laid ((goto position name).reread.kinds Spelling.text) ((goto position name).print module) :=
  ((Laid.keyword .kGoto).begins (node module position) rfl).join (Laid.name written)

theorem laid_branch (test : condition.LaidOut module .top) (inner : body.LaidOnto module) :
    Laid (.keyword .kIf :: (condition.reread .top).kinds Spelling.text ++
        .keyword .kThen :: body.reread.kinds Spelling.text true)
      ((node module position).join (((((node module position).append "if").join (condition.print module .top)).join
        "then").join (body.printOnto module .empty))) := by
  have branch := ((((Laid.keyword .kIf).begins (node module position) rfl).join test).join
    (Laid.keyword .kThen)).join inner.whole
  have blank : Laid [] (node module position) := ⟨by simp, by simp, by simp, rfl, fun _ => .nil⟩
  simpa using blank.join branch

end Stat

namespace Else

variable {position : Position} {body : Block Spelling} {conditional : Fragment} {kinds : List Kind}

theorem laid_otherwise (front : Laid kinds conditional) (inner : body.LaidOnto module) :
    Laid (kinds ++ (otherwise position body).reread.kinds Spelling.text)
      (((otherwise position body).printOnto module conditional).join "end") := by
  have branch := ((Laid.keyword .kElse).begins (node module position) rfl).join inner.whole
  simpa using (front.join branch).join (Laid.keyword .kEnd)

theorem laid_branch {condition : Expr Spelling} (front : Laid kinds conditional)
    (test : condition.LaidOut module .top) (inner : body.LaidOnto module) :
    Laid (kinds ++ .keyword .kElseif :: (condition.reread .top).kinds Spelling.text ++
        .keyword .kThen :: body.reread.kinds Spelling.text true)
      (conditional.join (((((node module position).append "elseif").join (condition.print module .top)).join
        "then").join (body.printOnto module .empty))) := by
  have branch := ((((Laid.keyword .kElseif).begins (node module position) rfl).join test).join
    (Laid.keyword .kThen)).join inner.whole
  simpa using front.join branch

end Else

namespace Block

variable {position : Position} {block : Fragment} {kinds : List Kind}

theorem laidOnto_return : (ret position []).LaidOnto module := by
  intro block kinds front
  have inner := (Laid.keyword .kReturn).begins (node module position) rfl
  simpa [listed, separated] using front.statement inner ⟨_, _, rfl, rfl⟩

theorem laidOnto_returnValues {value : Expr Spelling} {values : List (Expr Spelling)}
    (given : Expr.LaidOnto module (value :: values)) : (ret position (value :: values)).LaidOnto module := by
  intro block kinds front
  have inner := ((Laid.keyword .kReturn).begins (node module position) rfl).join given.all
  simpa [separated] using front.statement inner ⟨_, _, rfl, rfl⟩

theorem laidOnto_cons {head : Stat Spelling} {tail : Block Spelling}
    (formed : head.Formed Kind.Legible Spelling.Written)
    (first : Laid (head.reread.kinds Spelling.text) (head.print module)) (rest : tail.LaidOnto module) :
    (cons head tail).LaidOnto module := by
  intro block kinds front
  have start := (head.reread.kinds_head Spelling.text (head.formed_reread formed)).imp
    Kind.startsLine_of_startsStatement
  have whole := rest (front.statement first start)
  have notFirst : (kinds ++ separated kinds.isEmpty (head.reread.kinds Spelling.text)).isEmpty = false := by
    simp [separated_ne_nil _ start.ne_nil]
  rw [notFirst] at whole
  simpa using whole

end Block

variable (module)

mutual

theorem Expr.laidOut_print : ∀ (expression : Expr Spelling) (context : Context) {called : Bool},
    expression.Formed Kind.Legible Spelling.Written called → expression.LaidOut module context
  | .identifier _ _, _, _, formed => Laid.spelling module formed
  | .literal _ _ _, _, _, formed => Expr.laidOut_literal formed
  | .binary _ operator left right, _, _, formed =>
    Expr.laidOut_binary (left.laidOut_print (.ofBinary operator .left) formed.1)
      (right.laidOut_print (.ofBinary operator .right) formed.2)
  | .unary _ operator operand, _, _, formed => Expr.laidOut_unary (operand.laidOut_print (.ofUnary operator) formed)
  | .call _ callee arguments, _, _, ⟨_, formed, given⟩ =>
    Expr.laidOut_call (callee.laidOut_print .top formed) (Expr.laidOnto_printList arguments given)
  | .callTable _ callee _ fields, _, _, ⟨_, formed, given⟩ =>
    Expr.laidOut_callTable (callee.laidOut_print .top formed) (Field.laidOnto_printTable fields given)
  | .callString _ callee _ _, _, _, ⟨_, formed, given⟩ =>
    Expr.laidOut_callString (callee.laidOut_print .top formed) given
  | .index _ base key, _, _, ⟨_, formed, given⟩ =>
    Expr.laidOut_index (base.laidOut_print .top formed) (key.laidOut_print .top given)
  | .member site base access _, _, _, ⟨_, _, formed, written⟩ =>
    Laid.member module (Laid.base module (base.laidOut_print .top formed)) site.position access written
  | .function _ _ body, _, _, ⟨names, formed⟩ => Expr.laidOut_function names (body.laidOnto_print formed)
  | .table site fields, _, _, formed => (Field.laidOnto_printTable fields formed).all site.position

theorem Expr.laidOnto_printList : ∀ expressions : List (Expr Spelling),
    Expr.FormedAll Kind.Legible Spelling.Written expressions → Expr.LaidOnto module expressions
  | [], _ => fun _ _ isFirst front => by simpa [listed] using front
  | expression :: rest, formed =>
    Expr.laidOnto_cons (expression.laidOut_print .top formed.1) (Expr.laidOnto_printList rest formed.2)

theorem Field.laid_print : ∀ field : Field Spelling, field.Formed Kind.Legible Spelling.Written →
    Laid (field.reread.kinds Spelling.text) (field.print module)
  | .keyed key value, formed =>
    Field.laid_keyed (key.laidOut_print .top formed.1) (value.laidOut_print .top formed.2)
  | .named _ value, formed => Field.laid_named formed.1 (value.laidOut_print .top formed.2)
  | .item value, formed => value.laidOut_print .top formed

theorem Field.laidOnto_printTable : ∀ fields : List (Field Spelling),
    Field.FormedAll Kind.Legible Spelling.Written fields → Field.LaidOnto module fields
  | [], _ => Field.laidOnto_nil
  | field :: rest, formed =>
    Field.laidOnto_cons (field.laid_print formed.1) (Field.laidOnto_printTable rest formed.2)

theorem Stat.laid_print : ∀ statement : Stat Spelling, statement.Formed Kind.Legible Spelling.Written →
    Laid (statement.reread.kinds Spelling.text) (statement.print module)
  | .assign _ targets values, ⟨_, _, formed, _, formedValues⟩ =>
    Stat.laid_assign (Expr.laidOnto_printList targets formed) (Expr.laidOnto_printList values formedValues)
  | .localVars _ _ [], ⟨_, written, _⟩ => Stat.laid_localNames written
  | .localVars _ _ (value :: values), ⟨_, written, formed⟩ =>
    Stat.laid_localValues written
      (Expr.laidOnto_cons (value.laidOut_print .top formed.1) (Expr.laidOnto_printList values formed.2))
  | .call _ applied, ⟨_, _, formed⟩ => (applied.laidOut_print .top formed).begins _ rfl
  | .cond _ condition body rest, ⟨test, inner, further⟩ =>
    Else.laid_print rest
      (Stat.laid_branch (condition.laidOut_print .top test) (body.laidOnto_print inner)) further
  | .whileLoop _ condition body, ⟨test, inner⟩ =>
    Stat.laid_whileLoop (condition.laidOut_print .top test) (body.laidOnto_print inner)
  | .doBlock _ body, inner => Stat.laid_doBlock (body.laidOnto_print inner)
  | .breakLoop _, _ => (Laid.keyword .kBreak).begins _ rfl
  | .repeatLoop _ body condition, ⟨inner, test⟩ =>
    Stat.laid_repeatLoop (body.laidOnto_print inner) (condition.laidOut_print .top test)
  | .function _ _ _ body, ⟨named, names, inner⟩ =>
    Stat.laid_function named names (body.laidOnto_print inner)
  | .localFunction _ _ _ body, ⟨named, names, inner⟩ =>
    Stat.laid_localFunction named names (body.laidOnto_print inner)
  | .numericFor _ _ first limit none body, ⟨named, start, stop, inner⟩ =>
    Stat.laid_count named (first.laidOut_print .top start) (limit.laidOut_print .top stop) (body.laidOnto_print inner)
  | .numericFor _ _ first limit (some step) body, ⟨named, start, stop, stride, inner⟩ =>
    Stat.laid_step named (first.laidOut_print .top start) (limit.laidOut_print .top stop)
      (step.laidOut_print .top stride) (body.laidOnto_print inner)
  | .genericFor _ _ iterators body, ⟨_, written, _, given, inner⟩ =>
    Stat.laid_genericFor written (Expr.laidOnto_printList iterators given) (body.laidOnto_print inner)
  | .label _ _, written => Stat.laid_label written
  | .goto _ _, written => Stat.laid_goto written

theorem Else.laid_print : ∀ (rest : Else Spelling) {conditional : Fragment} {kinds : List Kind},
    Laid kinds conditional → rest.Formed Kind.Legible Spelling.Written →
      Laid (kinds ++ rest.reread.kinds Spelling.text) ((rest.printOnto module conditional).join "end")
  | .none, _, _, front, _ => front.join (Laid.keyword .kEnd)
  | .otherwise _ body, _, _, front, inner => Else.laid_otherwise front (body.laidOnto_print inner)
  | .elseif _ condition body rest, _, _, front, ⟨test, inner, further⟩ => by
    simp only [Else.reread, Else.kinds, Else.printOnto, ← List.append_assoc]
    exact Else.laid_print rest
      (Else.laid_branch front (condition.laidOut_print .top test) (body.laidOnto_print inner)) further

theorem Block.laidOnto_print : ∀ body : Block Spelling, body.Formed Kind.Legible Spelling.Written →
    body.LaidOnto module
  | .nil, _ => fun _ _ front => by simpa using front
  | .ret _ [], _ => Block.laidOnto_return
  | .ret _ (value :: values), given => Block.laidOnto_returnValues
    (Expr.laidOnto_cons (value.laidOut_print .top given.1) (Expr.laidOnto_printList values given.2))
  | .cons head tail, ⟨first, further⟩ =>
    Block.laidOnto_cons first (head.laid_print first) (tail.laidOnto_print further)

end

/-- A printed text depends on the tokens of what it is read as and on nothing else. -/
theorem Block.toText_print {body : Block Spelling} (formed : body.Formed Kind.Legible Spelling.Written) :
    (body.print module).toText = String.ofList (layout (body.reread.kinds Spelling.text true)) := by
  have laid := (body.laidOnto_print module formed).whole
  rw [Fragment.toText_eq, Block.print, Fragment.chars_append, laid.text]
  rfl

end Trees
end LuaMinifier
