import LuaMinifier.Proofs.Rendering

/-!
What is printed of a tree depends only on its essential view: positions and marks of parentheses that cut no values
down to one leave no trace. Main statement: trees with the same essential view are read again as the same tokens.
-/

namespace LuaMinifier

open Token

variable {ι κ μ : Type}

namespace Expr

/-- An expression without the mark of parentheses around it. -/
def unmark : Expr ι → Expr ι
  | .identifier site occurrence => .identifier ⟨site.position, false⟩ occurrence
  | .literal site kind raw => .literal ⟨site.position, false⟩ kind raw
  | .binary site operator left right => .binary ⟨site.position, false⟩ operator left right
  | .unary site operator operand => .unary ⟨site.position, false⟩ operator operand
  | .call site callee arguments => .call ⟨site.position, false⟩ callee arguments
  | .callTable site callee position fields => .callTable ⟨site.position, false⟩ callee position fields
  | .callString site callee position raw => .callString ⟨site.position, false⟩ callee position raw
  | .index site base key => .index ⟨site.position, false⟩ base key
  | .member site base access name => .member ⟨site.position, false⟩ base access name
  | .function site parameters body => .function ⟨site.position, false⟩ parameters body
  | .table site fields => .table ⟨site.position, false⟩ fields

/-- The tokens of what an expression is read as, without parentheses around it. -/
def core (text : ι → String) (expression : Expr ι) : List Kind := (expression.unmark.reread .top).kinds text

theorem core_binary (text : ι → String) (site : Site) (operator : BinaryOp) (left right : Expr ι) :
    (binary site operator left right).core text = (left.reread (.ofBinary operator .left)).kinds text ++
      operator.token :: (right.reread (.ofBinary operator .right)).kinds text := by
  have bare : needsParentheses (.binary operator) .top = false := by cases operator <;> rfl
  simp [core, unmark, reread, bare, kinds_graft]

theorem kinds_reread (text : ι → String) (expression : Expr ι) (context : Context) :
    (expression.reread context).kinds text = (expression.reread context).site.enclose (expression.core text) := by
  cases expression with
  | binary site operator left right =>
      obtain ⟨whole, graft, found⟩ := reread_binary_cases context site operator left right
      have unmarked : whole.site.parenthesized = false := graft ▸ graft_site ..
      rcases found with ⟨_, same⟩ | ⟨_, same⟩
      · rw [same, kinds_parenthesize text unmarked, Site.enclose, if_pos (parenthesize_site _), graft, kinds_graft,
          core_binary]
      · rw [same, Site.enclose, if_neg (by simp [unmarked]), graft, kinds_graft, core_binary]
  | _ => simp [core, unmark, reread, Expr.kinds, Site.enclose, Expr.site, needsUnaryParentheses, Context.top]

theorem kinds_asBase (text : ι → String) (expression : Expr ι) :
    ((expression.reread .top).asBase expression).kinds text =
      ((expression.reread .top).asBase expression).site.enclose (expression.core text) := by
  unfold asBase
  split
  next needed =>
    have unmarked := bare_of_needsBaseParentheses needed
    rw [kinds_parenthesize text unmarked, Site.enclose, if_pos (parenthesize_site _), kinds_reread, Site.enclose,
      if_neg (by simp [unmarked])]
  next => exact kinds_reread text expression .top

theorem marked_view (see : ι → κ) (expression : Expr ι) (context : Context) :
    ((expression.view .essential see false).reread context).site.parenthesized =
      (expression.reread context).site.parenthesized := by
  cases expression with
  | binary site operator left right =>
      simp only [Expr.view, reread]
      split
      · rw [parenthesize_site, parenthesize_site]
      · rw [graft_site, graft_site]
  | literal site kind raw => cases kind <;> simp [Expr.view, reread, Expr.site, Site.view, Detail.keeps]
  | _ => simp [Expr.view, reread, Expr.site, Site.view, Detail.keeps]

/-- Variables and fields of something are the only expressions that are applied without parentheses. -/
def isPlace : Expr ι → Bool
  | .identifier .. | .index .. | .member .. => true
  | _ => false

theorem isPlace_view (detail : Detail) (see : ι → κ) (asBase : Bool) (expression : Expr ι) :
    (expression.view detail see asBase).isPlace = expression.isPlace := by
  cases expression <;> rfl

theorem marked_asBase {expression : Expr ι} (suffixable : expression.isSuffixable = true) :
    ((expression.reread .top).asBase expression).site.parenthesized = !expression.isPlace := by
  unfold asBase
  split
  next needed =>
    rw [parenthesize_site]
    cases expression <;> simp_all [isPlace, needsBaseParentheses]
  next bare =>
    cases expression with
    | literal site kind raw =>
        cases kind <;> simp_all [isPlace, needsBaseParentheses, isTruncated, isMultiValue, isCall, isSuffixable, reread,
          Expr.site]
    | _ => simp_all [isPlace, needsBaseParentheses, isTruncated, isMultiValue, isCall, isSuffixable, reread, Expr.site]

end Expr

section Trees

variable {valid valid' : Kind → Prop} {named : ι → Prop} {named' : κ → Prop} {see : ι → μ} {other : κ → μ}
  (text : μ → String)

namespace Expr

variable {first : Expr ι} {second : Expr κ}

theorem kinds_of_core (cores : first.core (text ∘ see) = second.core (text ∘ other))
    (same : first.view .essential see false = second.view .essential other false) (context : Context) :
    (first.reread context).kinds (text ∘ see) = (second.reread context).kinds (text ∘ other) := by
  rw [kinds_reread, kinds_reread, cores, Site.enclose, Site.enclose, ← first.marked_view see, same,
    second.marked_view other]

theorem base_of_core (cores : first.core (text ∘ see) = second.core (text ∘ other))
    (same : first.view .essential see true = second.view .essential other true)
    (suffixable : first.isSuffixable = true) (suffixable' : second.isSuffixable = true) :
    ((first.reread .top).asBase first).kinds (text ∘ see) =
      ((second.reread .top).asBase second).kinds (text ∘ other) := by
  have place := congrArg Expr.isPlace same
  rw [isPlace_view, isPlace_view] at place
  rw [kinds_asBase, kinds_asBase, cores, Site.enclose, Site.enclose, marked_asBase suffixable,
    marked_asBase suffixable', place]

end Expr

theorem nameItems_congr {names : List ι} {others : List κ} (same : names.map see = others.map other) :
    nameItems (text ∘ see) names = nameItems (text ∘ other) others := by
  have items := congrArg (List.map fun name => [Kind.name (text name)]) same
  simpa [nameItems, Function.comp_def] using items

theorem Parameters.items_congr {parameters : Parameters ι} {others : Parameters κ}
    (same : parameters.view see = others.view other) :
    parameters.items (text ∘ see) = others.items (text ∘ other) := by
  obtain ⟨names, vararg⟩ := parameters
  obtain ⟨names', vararg'⟩ := others
  obtain ⟨sameNames, sameVararg⟩ := Parameters.mk.inj same
  simp only [Parameters.items, nameItems_congr text sameNames]
  cases vararg <;> cases vararg' <;> first | rfl | cases sameVararg

theorem Name.kind_of_view {name called : Name} (same : name.view = called.view) :
    Kind.name name.text = .name called.text :=
  congrArg (Kind.name ·.text) same

theorem FunctionName.kinds_congr {name : FunctionName ι} {called : FunctionName κ}
    (same : name.view see = called.view other) : name.kinds (text ∘ see) = called.kinds (text ∘ other) := by
  obtain ⟨root, fields, method⟩ := name
  obtain ⟨root', fields', method'⟩ := called
  obtain ⟨roots, paths, methods⟩ := FunctionName.mk.inj same
  have path := congrArg (List.flatMap fun field => [Kind.symbol .dot, .name field.text]) paths
  have last := congrArg (Option.map fun method => [Kind.symbol .colon, .name method.text]) methods
  simp only [List.flatMap_map, Option.map_map, Name.view_text, Function.comp_def] at path last
  simp [FunctionName.kinds, roots, path, last]

attribute [local simp] Expr.core Expr.unmark Expr.reread Expr.kinds Field.reread Field.kinds Stat.reread Stat.kinds
  Else.reread Else.kinds Block.reread Block.kinds Expr.rereadAll Expr.kindsAll Field.rereadAll Field.kindsAll
  Site.enclose

mutual

theorem Expr.core_congr : ∀ (first : Expr ι) (second : Expr κ) (asBase : Bool) {called called' : Bool},
    first.Formed valid named called → second.Formed valid' named' called' →
      first.view .essential see asBase = second.view .essential other asBase →
        first.core (text ∘ see) = second.core (text ∘ other)
  | .identifier _ occurrence, second, _, _, _, _, _, same => by
    cases second with
    | identifier _ occurrence' =>
        obtain ⟨_, names⟩ := Expr.identifier.inj same
        simp [names]
    | _ => cases same
  | .literal _ kind raw, second, _, _, _, _, _, same => by
    cases second with
    | literal _ kind' raw' =>
        obtain ⟨_, rfl, rfl⟩ := Expr.literal.inj same
        simp
    | _ => cases same
  | .binary _ operator left right, second, _, _, _, formed, formed', same => by
    cases second with
    | binary _ operator' left' right' =>
        obtain ⟨_, rfl, front, back⟩ := Expr.binary.inj same
        rw [Expr.core_binary, Expr.core_binary,
          Expr.kinds_of_core text (Expr.core_congr left left' false formed.1 formed'.1 front) front,
          Expr.kinds_of_core text (Expr.core_congr right right' false formed.2 formed'.2 back) back]
    | _ => cases same
  | .unary _ operator operand, second, _, _, _, formed, formed', same => by
    cases second with
    | unary _ operator' operand' =>
        obtain ⟨_, rfl, inner⟩ := Expr.unary.inj same
        simp [needsUnaryParentheses, Context.top,
          Expr.kinds_of_core text (Expr.core_congr operand operand' false formed formed' inner) inner]
    | _ => cases same
  | .call _ callee arguments, second, _, _, _, ⟨suffixable, formed, given⟩, formed', same => by
    cases second with
    | call _ callee' arguments' =>
        obtain ⟨suffixable', formed', given'⟩ := formed'
        obtain ⟨_, inner, list⟩ := Expr.call.inj same
        simp [Expr.kindsAll_congr arguments arguments' given given' list,
          Expr.base_of_core text (Expr.core_congr callee callee' true formed formed' inner) inner suffixable
            suffixable']
    | _ => cases same
  | .callTable _ callee _ fields, second, _, _, _, ⟨suffixable, formed, given⟩, formed', same => by
    cases second with
    | callTable _ callee' _ fields' =>
        obtain ⟨suffixable', formed', given'⟩ := formed'
        obtain ⟨_, inner, _, list⟩ := Expr.callTable.inj same
        simp [Field.kindsAll_congr fields fields' given given' list,
          Expr.base_of_core text (Expr.core_congr callee callee' true formed formed' inner) inner suffixable
            suffixable']
    | _ => cases same
  | .callString _ callee _ raw, second, _, _, _, ⟨suffixable, formed, _⟩, formed', same => by
    cases second with
    | callString _ callee' _ raw' =>
        obtain ⟨suffixable', formed', _⟩ := formed'
        obtain ⟨_, inner, _, rfl⟩ := Expr.callString.inj same
        simp [Expr.base_of_core text (Expr.core_congr callee callee' true formed formed' inner) inner suffixable
          suffixable']
    | _ => cases same
  | .index _ base key, second, _, _, _, ⟨suffixable, formed, given⟩, formed', same => by
    cases second with
    | index _ base' key' =>
        obtain ⟨suffixable', formed', given'⟩ := formed'
        obtain ⟨_, inner, sameKey⟩ := Expr.index.inj same
        simp [Expr.kinds_of_core text (Expr.core_congr key key' false given given' sameKey) sameKey,
          Expr.base_of_core text (Expr.core_congr base base' true formed formed' inner) inner suffixable suffixable']
    | _ => cases same
  | .member _ base access name, second, _, _, _, ⟨_, suffixable, formed, _⟩, formed', same => by
    cases second with
    | member _ base' access' name' =>
        obtain ⟨_, suffixable', formed', _⟩ := formed'
        obtain ⟨_, inner, rfl, sameName⟩ := Expr.member.inj same
        simp [Name.kind_of_view sameName,
          Expr.base_of_core text (Expr.core_congr base base' true formed formed' inner) inner suffixable suffixable']
    | _ => cases same
  | .function _ parameters body, second, _, _, _, ⟨_, formed⟩, formed', same => by
    cases second with
    | function _ parameters' body' =>
        obtain ⟨_, list, inner⟩ := Expr.function.inj same
        simp [Parameters.items_congr text list, Block.kinds_congr body body' true formed formed'.2 inner]
    | _ => cases same
  | .table _ fields, second, _, _, _, formed, formed', same => by
    cases second with
    | table _ fields' =>
        obtain ⟨_, list⟩ := Expr.table.inj same
        simp [Field.kindsAll_congr fields fields' formed formed' list]
    | _ => cases same

theorem Expr.kindsAll_congr : ∀ (firsts : List (Expr ι)) (seconds : List (Expr κ)),
    Expr.FormedAll valid named firsts → Expr.FormedAll valid' named' seconds →
      Expr.viewAll .essential see firsts = Expr.viewAll .essential other seconds →
        Expr.kindsAll (text ∘ see) (Expr.rereadAll firsts) = Expr.kindsAll (text ∘ other) (Expr.rereadAll seconds)
  | [], [], _, _, _ => rfl
  | first :: firsts, second :: seconds, formed, formed', same => by
    obtain ⟨head, tail⟩ := List.cons.inj same
    simp [Expr.kinds_of_core text (Expr.core_congr first second false formed.1 formed'.1 head) head,
      Expr.kindsAll_congr firsts seconds formed.2 formed'.2 tail]

theorem Field.kinds_congr : ∀ (first : Field ι) (second : Field κ), first.Formed valid named →
    second.Formed valid' named' → first.view .essential see = second.view .essential other →
      first.reread.kinds (text ∘ see) = second.reread.kinds (text ∘ other)
  | .keyed key value, .keyed key' value', formed, formed', same => by
    obtain ⟨sameKey, sameValue⟩ := Field.keyed.inj same
    simp [Expr.kinds_of_core text (Expr.core_congr key key' false formed.1 formed'.1 sameKey) sameKey,
      Expr.kinds_of_core text (Expr.core_congr value value' false formed.2 formed'.2 sameValue) sameValue]
  | .named name value, .named name' value', formed, formed', same => by
    obtain ⟨sameName, sameValue⟩ := Field.named.inj same
    simp [Name.kind_of_view sameName,
      Expr.kinds_of_core text (Expr.core_congr value value' false formed.2 formed'.2 sameValue) sameValue]
  | .item value, .item value', formed, formed', same => by
    have sameValue := Field.item.inj same
    exact Expr.kinds_of_core text (Expr.core_congr value value' false formed formed' sameValue) sameValue .top

theorem Field.kindsAll_congr : ∀ (firsts : List (Field ι)) (seconds : List (Field κ)),
    Field.FormedAll valid named firsts → Field.FormedAll valid' named' seconds →
      Field.viewAll .essential see firsts = Field.viewAll .essential other seconds →
        Field.kindsAll (text ∘ see) (Field.rereadAll firsts) = Field.kindsAll (text ∘ other) (Field.rereadAll seconds)
  | [], [], _, _, _ => rfl
  | first :: firsts, second :: seconds, formed, formed', same => by
    obtain ⟨head, tail⟩ := List.cons.inj same
    simp [Field.kinds_congr first second formed.1 formed'.1 head,
      Field.kindsAll_congr firsts seconds formed.2 formed'.2 tail]

theorem Stat.kinds_congr : ∀ (first : Stat ι) (second : Stat κ), first.Formed valid named →
    second.Formed valid' named' → first.view .essential see = second.view .essential other →
      first.reread.kinds (text ∘ see) = second.reread.kinds (text ∘ other)
  | .assign _ targets values, .assign _ targets' values', ⟨_, _, formed, _, given⟩, formed', same => by
    obtain ⟨_, _, formed', _, given'⟩ := formed'
    obtain ⟨_, front, back⟩ := Stat.assign.inj same
    simp [Expr.kindsAll_congr targets targets' formed formed' front,
      Expr.kindsAll_congr values values' given given' back]
  | .localVars _ names values, .localVars _ names' values', ⟨_, _, given⟩, formed', same => by
    obtain ⟨_, front, back⟩ := Stat.localVars.inj same
    have list := Expr.kindsAll_congr values values' given formed'.2.2 back
    cases values <;> cases values' <;> first | (cases back; done) | simp_all [nameItems_congr text front]
  | .call _ call, .call _ call', ⟨_, _, formed⟩, formed', same => by
    obtain ⟨_, inner⟩ := Stat.call.inj same
    exact Expr.kinds_of_core text (Expr.core_congr call call' false formed formed'.2.2 inner) inner .top
  | .cond _ condition body rest, .cond _ condition' body' rest', ⟨test, inner, further⟩, formed', same => by
    obtain ⟨test', inner', further'⟩ := formed'
    obtain ⟨_, sameTest, sameBody, sameRest⟩ := Stat.cond.inj same
    simp [Expr.kinds_of_core text (Expr.core_congr condition condition' false test test' sameTest) sameTest,
      Block.kinds_congr body body' true inner inner' sameBody,
      Else.kinds_congr rest rest' further further' sameRest]
  | .whileLoop _ condition body, .whileLoop _ condition' body', ⟨test, inner⟩, formed', same => by
    obtain ⟨_, sameTest, sameBody⟩ := Stat.whileLoop.inj same
    simp [Expr.kinds_of_core text (Expr.core_congr condition condition' false test formed'.1 sameTest) sameTest,
      Block.kinds_congr body body' true inner formed'.2 sameBody]
  | .doBlock _ body, .doBlock _ body', inner, formed', same => by
    obtain ⟨_, sameBody⟩ := Stat.doBlock.inj same
    simp [Block.kinds_congr body body' true inner formed' sameBody]
  | .breakLoop _, .breakLoop _, _, _, _ => rfl
  | .repeatLoop _ body condition, .repeatLoop _ body' condition', ⟨inner, test⟩, formed', same => by
    obtain ⟨_, sameBody, sameTest⟩ := Stat.repeatLoop.inj same
    simp [Expr.kinds_of_core text (Expr.core_congr condition condition' false test formed'.2 sameTest) sameTest,
      Block.kinds_congr body body' true inner formed'.1 sameBody]
  | .function _ name parameters body, .function _ name' parameters' body', ⟨_, _, inner⟩, formed', same => by
    obtain ⟨_, sameName, list, sameBody⟩ := Stat.function.inj same
    simp [FunctionName.kinds_congr text sameName, Parameters.items_congr text list,
      Block.kinds_congr body body' true inner formed'.2.2 sameBody]
  | .localFunction _ name parameters body, .localFunction _ name' parameters' body', ⟨_, _, inner⟩, formed', same => by
    obtain ⟨_, sameName, list, sameBody⟩ := Stat.localFunction.inj same
    simp [sameName, Parameters.items_congr text list, Block.kinds_congr body body' true inner formed'.2.2 sameBody]
  | .numericFor _ counter start limit none body, .numericFor _ counter' start' limit' none body',
      ⟨_, first, stop, inner⟩, ⟨_, first', stop', inner'⟩, same => by
    obtain ⟨_, sameName, sameStart, sameLimit, _, sameBody⟩ := Stat.numericFor.inj same
    simp [sameName, Expr.kinds_of_core text (Expr.core_congr start start' false first first' sameStart) sameStart,
      Expr.kinds_of_core text (Expr.core_congr limit limit' false stop stop' sameLimit) sameLimit,
      Block.kinds_congr body body' true inner inner' sameBody]
  | .numericFor _ counter start limit (some step) body, .numericFor _ counter' start' limit' (some step') body',
      ⟨_, first, stop, stride, inner⟩, ⟨_, first', stop', stride', inner'⟩, same => by
    obtain ⟨_, sameName, sameStart, sameLimit, sameSome, sameBody⟩ := Stat.numericFor.inj same
    have sameStep := Option.some.inj sameSome
    simp [sameName, Expr.kinds_of_core text (Expr.core_congr start start' false first first' sameStart) sameStart,
      Expr.kinds_of_core text (Expr.core_congr limit limit' false stop stop' sameLimit) sameLimit,
      Expr.kinds_of_core text (Expr.core_congr step step' false stride stride' sameStep) sameStep,
      Block.kinds_congr body body' true inner inner' sameBody]
  | .numericFor _ _ _ _ none _, .numericFor _ _ _ _ (some _) _, _, _, same
  | .numericFor _ _ _ _ (some _) _, .numericFor _ _ _ _ none _, _, _, same => by simp [Stat.view] at same
  | .genericFor _ names iterators body, .genericFor _ names' iterators' body',
      ⟨_, _, _, given, inner⟩, formed', same => by
    obtain ⟨_, _, _, given', inner'⟩ := formed'
    obtain ⟨_, front, list, sameBody⟩ := Stat.genericFor.inj same
    simp [nameItems_congr text front, Expr.kindsAll_congr iterators iterators' given given' list,
      Block.kinds_congr body body' true inner inner' sameBody]
  | .label _ name, .label _ name', _, _, same => by simp [Name.kind_of_view (Stat.label.inj same).2]
  | .goto _ name, .goto _ name', _, _, same => by simp [Name.kind_of_view (Stat.goto.inj same).2]

theorem Else.kinds_congr : ∀ (first : Else ι) (second : Else κ), first.Formed valid named →
    second.Formed valid' named' → first.view .essential see = second.view .essential other →
      first.reread.kinds (text ∘ see) = second.reread.kinds (text ∘ other)
  | .none, .none, _, _, _ => rfl
  | .otherwise _ body, .otherwise _ body', inner, formed', same => by
    obtain ⟨_, sameBody⟩ := Else.otherwise.inj same
    simp [Block.kinds_congr body body' true inner formed' sameBody]
  | .elseif _ condition body rest, .elseif _ condition' body' rest', ⟨test, inner, further⟩, formed', same => by
    obtain ⟨test', inner', further'⟩ := formed'
    obtain ⟨_, sameTest, sameBody, sameRest⟩ := Else.elseif.inj same
    simp [Expr.kinds_of_core text (Expr.core_congr condition condition' false test test' sameTest) sameTest,
      Block.kinds_congr body body' true inner inner' sameBody,
      Else.kinds_congr rest rest' further further' sameRest]

theorem Block.kinds_congr : ∀ (first : Block ι) (second : Block κ) (isFirst : Bool), first.Formed valid named →
    second.Formed valid' named' → first.view .essential see = second.view .essential other →
      first.reread.kinds (text ∘ see) isFirst = second.reread.kinds (text ∘ other) isFirst
  | .nil, .nil, _, _, _, _ => rfl
  | .ret _ values, .ret _ values', _, given, formed', same => by
    obtain ⟨_, list⟩ := Block.ret.inj same
    simp [Expr.kindsAll_congr values values' given formed' list]
  | .cons head tail, .cons head' tail', isFirst, ⟨formed, further⟩, formed', same => by
    obtain ⟨sameHead, sameTail⟩ := Block.cons.inj same
    simp [Stat.kinds_congr head head' formed formed'.1 sameHead,
      Block.kinds_congr tail tail' false further formed'.2 sameTail]

end

end Trees
end LuaMinifier
