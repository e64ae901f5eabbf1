import LuaMinifier.Proofs.ReadItems

/-!
The leaves of a tree: the tokens of its variables and literals, which a source map has to know. The leaves of a tree
that was read are tokens of its text.
-/

namespace LuaMinifier

open Token

variable {ι κ : Type}

/-- The text of a token stands in a source where the token says. -/
def Token.StandsIn (source : String) (token : Token) : Prop :=
  ∃ before behind, source.toList = before ++ token.kind.chars ++ behind ∧ token.position = Position.start.after before

section Reading

theorem Symbol.chars_of_read {first : Char} {rest : List Char} {sign : Symbol} {tail : Nat}
    (read : Symbol.read first rest = some (sign, tail)) : sign.text.toList = first :: rest.take tail := by
  unfold Symbol.read at read
  split at read <;> cases read <;> rfl

theorem Keyword.text_of_ofText {word : String} {reserved : Keyword} (found : Keyword.ofText? word = some reserved) :
    reserved.text = word := by
  simpa using List.find?_some found

theorem Token.Kind.chars_ofWord (word : String) : (Kind.ofWord word).chars = word.toList := by
  unfold ofWord
  split
  next reserved found => rw [chars, Keyword.text_of_ofText found]
  next => rfl

theorem Lexeme.chars_of_read {first : Char} {rest : List Char} {kind : Token.Kind} {tail : Nat}
    (read : Lexeme.read first rest = .ok ⟨.token kind, tail⟩) : kind.chars = first :: rest.take tail := by
  have symbols (read : readSymbol first rest = .ok ⟨.token kind, tail⟩) : kind.chars = first :: rest.take tail := by
    unfold readSymbol at read
    split at read
    next sign length found =>
      cases read
      exact Symbol.chars_of_read found
    next => cases read
  unfold Lexeme.read at read
  split at read
  next => cases read
  split at read
  next => exact absurd read (readComment_ne_token rest.tail kind tail)
  split at read
  next =>
    unfold readQuoted at read
    split at read <;> cases read
    exact String.toList_ofList
  split at read
  next isBracket =>
    subst isBracket
    unfold readBracket at read
    split at read
    next =>
      split at read <;> cases read
      exact String.toList_ofList
    next => exact symbols read
  split at read
  next =>
    simp only [readNumeral] at read
    split at read <;> cases read
    exact String.toList_ofList
  split at read
  next =>
    cases read
    exact (Kind.chars_ofWord _).trans String.toList_ofList
  next => exact symbols read

theorem Lexed.stands_of_ofText {position : Position} {text : List Char} {lexed : Lexed}
    (read : Lexed.ofText position text = .ok lexed) :
    ∀ token ∈ lexed.tokens, ∃ before behind, text = before ++ token.kind.chars ++ behind ∧
      token.position = position.after before := by
  fun_induction Lexed.ofText position text generalizing lexed with
  | case1 =>
      cases read
      simp
  | case2 => simp at read
  | case3 => simp at read
  | case4 position first rest lexeme found behind cut ih =>
      cases read
      have later : ∀ token ∈ behind.tokens, ∃ before after, first :: rest = before ++ token.kind.chars ++ after ∧
          token.position = position.after before := by
        intro token member
        obtain ⟨before, after, same, place⟩ := ih cut token member
        refine ⟨first :: rest.take lexeme.tail ++ before, after, ?_, by rw [place, ← Position.after_append]⟩
        rw [List.append_assoc, List.append_assoc, ← List.append_assoc before, ← same, List.cons_append,
          List.take_append_drop]
      obtain ⟨kind, tail⟩ := lexeme
      cases kind with
      | blank => exact later
      | comment raw value => exact later
      | token kind =>
          refine List.forall_mem_cons.mpr ⟨⟨[], rest.drop tail, ?_, rfl⟩, later⟩
          rw [List.nil_append, Lexeme.chars_of_read found, List.cons_append, List.take_append_drop]

theorem Lexed.ne_eof_of_ofText {position : Position} {text : List Char} {lexed : Lexed}
    (read : Lexed.ofText position text = .ok lexed) : ∀ token ∈ lexed.tokens, token.kind ≠ .eof := by
  fun_induction Lexed.ofText position text generalizing lexed with
  | case1 =>
      cases read
      simp
  | case2 => simp at read
  | case3 => simp at read
  | case4 position first rest lexeme found behind cut ih =>
      cases read
      have later := ih cut
      obtain ⟨kind, tail⟩ := lexeme
      cases kind with
      | blank => exact later
      | comment raw value => exact later
      | token kind =>
          refine List.forall_mem_cons.mpr ⟨?_, later⟩
          rintro rfl
          cases Lexeme.chars_of_read found

theorem standsIn_of_tokenize {source : String} {lexed : Lexed} (found : tokenize source = .ok lexed) :
    ∀ token ∈ lexed.tokens, token.StandsIn source := by
  intro token member
  obtain ⟨before, behind, same, place⟩ := Lexed.stands_of_ofText found token member
  refine ⟨interpreterLine source.toList ++ before, behind, ?_, by rw [place, ← Position.after_append]⟩
  have front : interpreterLine source.toList <+: source.toList := by
    unfold interpreterLine
    split
    · exact List.takeWhile_prefix _
    · exact List.nil_prefix
  rw [List.append_assoc, List.append_assoc, ← List.append_assoc before, ← same]
  exact List.prefix_iff_eq_append.mp front |>.symm

end Reading

def Item.name? : Item ι → Option ι
  | .occurrence name => some name
  | .literal .. => none
  | .fixed _ => none

theorem Item.name_comp_occurrence : (Item.name? : Item ι → Option ι) ∘ Item.occurrence = some := rfl

theorem Parameters.names_leaves (parameters : Parameters ι) :
    parameters.leaves.filterMap Item.name? = parameters.names := by
  obtain ⟨names, vararg⟩ := parameters
  cases vararg <;> simp [leaves, Item.name_comp_occurrence, Item.name?]

theorem FunctionName.names_leaves (name : FunctionName ι) :
    name.leaves.filterMap Item.name? = [name.root] := by
  obtain ⟨root, fields, method⟩ := name
  have path : (fields.flatMap fun field => [Item.fixed (.symbol .dot), .fixed (.name field.text)]).filterMap
      (Item.name? : Item ι → Option ι) = [] := by
    induction fields with
    | nil => rfl
    | cons field rest ih => rw [List.flatMap_cons, List.filterMap_append, ih]; rfl
  cases method <;> simp [leaves, path, Item.name?]

section Variables

attribute [local simp] Expr.items Expr.itemsAll Field.items Field.itemsAll Stat.items Else.items Block.items
  Expr.occurrences Expr.occurrencesAll Field.occurrences Field.occurrencesAll Stat.occurrences Else.occurrences
  Block.occurrences braced Item.name? Parameters.names_leaves FunctionName.names_leaves
  Item.name_comp_occurrence List.filterMap_cons

mutual

theorem Expr.names_items : ∀ expression : Expr ι,
    expression.items.filterMap Item.name? = expression.occurrences
  | .identifier .. => by simp
  | .literal .. => by simp
  | .binary _ _ left right => by simp [Expr.names_items left, Expr.names_items right]
  | .unary _ _ operand => by simp [Expr.names_items operand]
  | .call _ callee arguments => by simp [Expr.names_items callee, Expr.names_itemsAll arguments]
  | .callTable _ callee _ fields => by simp [Expr.names_items callee, Field.names_itemsAll fields]
  | .callString _ callee _ _ => by simp [Expr.names_items callee]
  | .index _ base key => by simp [Expr.names_items base, Expr.names_items key]
  | .member _ base _ _ => by simp [Expr.names_items base]
  | .function _ parameters body => by simp [Block.names_items body]
  | .table _ fields => by simp [Field.names_itemsAll fields]

theorem Expr.names_itemsAll : ∀ expressions : List (Expr ι),
    (Expr.itemsAll expressions).filterMap Item.name? = Expr.occurrencesAll expressions
  | [] => rfl
  | expression :: rest => by simp [Expr.names_items expression, Expr.names_itemsAll rest]

theorem Field.names_items : ∀ field : Field ι, field.items.filterMap Item.name? = field.occurrences
  | .keyed key value => by simp [Expr.names_items key, Expr.names_items value]
  | .named _ value => by simp [Expr.names_items value]
  | .item value => by simp [Expr.names_items value]

theorem Field.names_itemsAll : ∀ fields : List (Field ι),
    (Field.itemsAll fields).filterMap Item.name? = Field.occurrencesAll fields
  | [] => rfl
  | field :: rest => by simp [Field.names_items field, Field.names_itemsAll rest]

theorem Stat.names_items : ∀ statement : Stat ι,
    statement.items.filterMap Item.name? = statement.occurrences
  | .assign _ targets values => by simp [Expr.names_itemsAll targets, Expr.names_itemsAll values]
  | .localVars _ names [] => by simp
  | .localVars _ names (value :: values) => by simp [Expr.names_items value, Expr.names_itemsAll values]
  | .call _ call => by simp [Expr.names_items call]
  | .cond _ condition body rest => by
    simp [Expr.names_items condition, Block.names_items body, Else.names_items rest]
  | .whileLoop _ condition body => by simp [Expr.names_items condition, Block.names_items body]
  | .doBlock _ body => by simp [Block.names_items body]
  | .breakLoop _ => by simp
  | .repeatLoop _ body condition => by simp [Expr.names_items condition, Block.names_items body]
  | .function _ name parameters body => by simp [Block.names_items body]
  | .localFunction _ name parameters body => by simp [Block.names_items body]
  | .numericFor _ counter first limit none body => by
    simp [Expr.names_items first, Expr.names_items limit, Block.names_items body]
  | .numericFor _ counter first limit (some step) body => by
    simp [Expr.names_items first, Expr.names_items limit, Expr.names_items step,
      Block.names_items body]
  | .genericFor _ names iterators body => by simp [Expr.names_itemsAll iterators, Block.names_items body]
  | .label .. => by simp
  | .goto .. => by simp

theorem Else.names_items : ∀ rest : Else ι, rest.items.filterMap Item.name? = rest.occurrences
  | .none => by simp
  | .otherwise _ body => by simp [Block.names_items body]
  | .elseif _ condition body rest => by
    simp [Expr.names_items condition, Block.names_items body, Else.names_items rest]

theorem Block.names_items : ∀ body : Block ι, body.items.filterMap Item.name? = body.occurrences
  | .nil => by simp
  | .ret _ values => by simp [Expr.names_itemsAll values]
  | .cons head tail => by simp [Stat.names_items head, Block.names_items tail]

end

end Variables

def Item.leaf? (see : ι → Name) : Item ι → Option Token
  | .occurrence name => some ⟨.name (see name).text, (see name).position⟩
  | .literal kind position => some ⟨kind, position⟩
  | .fixed _ => none

/-- The tokens of the variables and literals of a tree, in order. -/
def Block.leaves (see : ι → Name) (body : Block ι) : List Token := body.items.filterMap (Item.leaf? see)

theorem Block.token_mem_leaves {see : ι → Name} {body : Block ι} {name : ι} (inside : name ∈ body.occurrences) :
    ⟨.name (see name).text, (see name).position⟩ ∈ body.leaves see := by
  rw [← Block.names_items] at inside
  obtain ⟨item, member, same⟩ := List.mem_filterMap.mp inside
  refine List.mem_filterMap.mpr ⟨item, member, ?_⟩
  cases item with
  | occurrence => cases same; rfl
  | literal => cases same
  | fixed => cases same

theorem filterMap_leaf_map (see : κ → Name) (change : ι → κ) (items : List (Item ι)) :
    (items.map (Item.map change)).filterMap (Item.leaf? see) =
      items.filterMap (Item.leaf? fun name => see (change name)) := by
  rw [List.filterMap_map]
  refine congrArg (List.filterMap · items) (funext fun item => ?_)
  cases item <;> rfl

theorem Block.reads_of_written {lexed : Lexed} {body : Block Name}
    (written : ∀ token ∈ lexed.tokens, token.kind.Written)
    (read : Block.ofTokens lexed = .ok body) : LuaMinifier.Reads lexed.tokens body.items := by
  refine Block.reads_all_of_ofTokens (fun token member isEnd => ?_) read
  have impossible := written token member
  rw [isEnd] at impossible
  exact impossible

theorem Block.separates_items (body : Block ι) (text : ι → String) :
    ∀ item ∈ body.items, (item.kind text).separates = false := by
  intro item member
  have listed : item.kind text ∈ significant (body.kinds text true) := by
    rw [Block.significant_kinds]
    exact List.mem_map_of_mem member
  simpa using (List.mem_filter.mp listed).2

/-- The leaves among some items, each with the token that stands for it. -/
def leafPairs (see : ι → Name) (items : List (Item ι)) (tokens : List Token) : List (Token × Token) :=
  (items.zip tokens).filterMap fun pair => (pair.1.leaf? see).map (·, pair.2)

section Pairs

variable {see : ι → Name} {items : List (Item ι)} {tokens : List Token} {token : Token}

@[simp] theorem leafPairs_occurrence (name : ι) : leafPairs see (.occurrence name :: items) (token :: tokens) =
    (⟨.name (see name).text, (see name).position⟩, token) :: leafPairs see items tokens := rfl

@[simp] theorem leafPairs_literal (kind : Kind) (position : Position) :
    leafPairs see (.literal kind position :: items) (token :: tokens) =
      (⟨kind, position⟩, token) :: leafPairs see items tokens := rfl

@[simp] theorem leafPairs_fixed (kind : Kind) :
    leafPairs see (.fixed kind :: items) (token :: tokens) = leafPairs see items tokens := rfl

theorem map_fst_leafPairs (same : items.length = tokens.length) :
    (leafPairs see items tokens).map Prod.fst = items.filterMap (Item.leaf? see) := by
  induction items generalizing tokens with
  | nil => rfl
  | cons item rest ih =>
      cases tokens with
      | nil => cases same
      | cons token others =>
          have behind := ih (Nat.succ.inj same)
          cases item with
          | occurrence name => exact congrArg (_ :: ·) behind
          | literal kind position => exact congrArg (_ :: ·) behind
          | fixed kind => exact behind

end Pairs

namespace Reads

variable {tokens : List Token} {items : List (Item Name)}

theorem leaves_sublist (reads : Reads tokens items) : (items.filterMap (Item.leaf? id)).Sublist tokens := by
  induction reads with
  | nil => exact .slnil
  | skip _ _ ih => exact ih.cons _
  | occurrence name _ ih => exact ih.cons_cons _
  | literal kind position _ ih => exact ih.cons_cons _
  | fixed kind position _ ih => exact ih.cons _

/-- The leaves of a tree that was read are the tokens that stand for the leaves of a tree of the same form. -/
theorem leaves_eq (reads : Reads tokens items) {others : List (Item ι)} {text : ι → String} (see : ι → Name)
    (matter : ∀ item ∈ items, (item.kind Name.text).separates = false)
    (same : items.map (Item.view Name.text) = others.map (Item.view text)) :
    items.filterMap (Item.leaf? id) =
      (leafPairs see others (tokens.filter (!·.kind.separates))).map Prod.snd := by
  -- The two trees have the same form, so that their first items are leaves both or neither.
  induction reads generalizing others with
  | nil => rw [List.map_eq_nil_iff.mp same.symm]; rfl
  | skip separates _ ih => simpa [separates] using ih matter same
  | occurrence name _ ih =>
      obtain ⟨other, rest, rfl, view, behind⟩ := List.map_eq_cons_iff.mp same.symm
      cases other with
      | occurrence found =>
          have rest := ih (List.forall_mem_cons.mp matter).2 behind.symm
          rw [List.filter_cons_of_pos rfl, leafPairs_occurrence, List.map_cons, ← rest]
          rfl
      | literal => cases view
      | fixed => cases view
  | literal kind position _ ih =>
      obtain ⟨other, rest, rfl, view, behind⟩ := List.map_eq_cons_iff.mp same.symm
      obtain ⟨kept, matter⟩ := List.forall_mem_cons.mp matter
      cases other with
      | literal found place =>
          have kept : kind.separates = false := kept
          rw [List.filter_cons_of_pos (by simp [kept]), leafPairs_literal, List.map_cons, ← ih matter behind.symm]
          rfl
      | occurrence => cases view
      | fixed => cases view
  | fixed kind position _ ih =>
      obtain ⟨other, rest, rfl, view, behind⟩ := List.map_eq_cons_iff.mp same.symm
      obtain ⟨kept, matter⟩ := List.forall_mem_cons.mp matter
      cases other with
      | fixed found =>
          have kept : kind.separates = false := kept
          rw [List.filter_cons_of_pos (by simp [kept]), leafPairs_fixed, ← ih matter behind.symm]
          rfl
      | occurrence => cases view
      | literal => cases view

end Reads

end LuaMinifier
