import LuaMinifier.Proofs.Essence
import LuaMinifier.Proofs.PieceTokens
import LuaMinifier.Proofs.Semicolons

/-!
Minified texts are canonical: they depend on what a source text says, and not on how it is laid out or on the names that
it gives to its local variables.
-/

namespace LuaMinifier

open Token

def Block.localNames (body : Block Identifier) : List String :=
  (body.occurrences.filter (·.isLocal)).map (·.name)

theorem Block.mem_localNames {body : Block Identifier} {name : String} :
    name ∈ body.localNames ↔ ∃ identifier ∈ body.occurrences, identifier.isLocal = true ∧ identifier.name = name := by
  simp [Block.localNames, and_assoc]

/-- The text of an occurrence once a session has spelled all occurrences of a block. -/
def Block.spelledText (body : Block Identifier) (session : Session) (identifier : Identifier) : String :=
  ((session.after body.occurrences).spelling identifier).text

section Blocks

variable {respell : String → String} {known : String → Prop} {first second : Block Identifier}

theorem Block.respelled_of_view
    (same : first.view .essential (·.respelled respell) = second.view .essential (·.respelled id)) :
    first.occurrences.map (·.respelled respell) = second.occurrences.map (·.respelled id) := by
  have listed := congrArg Block.occurrences same
  rwa [Block.occurrences_view, Block.occurrences_view] at listed

theorem Block.mem_globals_congr
    (same : first.occurrences.map (·.respelled respell) = second.occurrences.map (·.respelled id)) (name : String) :
    name ∈ first.globals ↔ name ∈ second.globals := by
  have global (body : Block Identifier) (respell : String → String) :
      name ∈ body.globals ↔ (false, name) ∈ body.occurrences.map (·.respelled respell) := by
    simp only [Block.mem_globals, List.mem_map, Identifier.respelled, Prod.mk.injEq]
    refine exists_congr fun identifier => and_congr_right fun _ => and_congr_right fun isGlobal => ?_
    simp [isGlobal]
  rw [global first respell, global second id, same]

theorem Block.kinds_mirrored {named named' : Identifier → Prop} (formed : first.Formed Kind.Legible named)
    (formed' : second.Formed Kind.Legible named') (renames : Renaming respell known)
    (areKnown : ∀ name ∈ first.localNames, known name)
    (same : first.view .essential (·.respelled respell) = second.view .essential (·.respelled id))
    {names others : List String} (reserved : ∀ name, name ∈ names ↔ name ∈ others) :
    first.reread.kinds (first.spelledText (.withReserved names)) true =
      second.reread.kinds (second.spelledText (.withReserved others)) true := by
  have mirrors := (Session.Mirrors.withReserved reserved).after renames (fun identifier member isLocal =>
    areKnown identifier.name (Block.mem_localNames.mpr ⟨identifier, member, isLocal, rfl⟩)) (respelled_of_view same)
  -- What an occurrence is printed as can be told from its name in the second block.
  let shown : Bool × String → String := fun occurrence =>
    if occurrence.1 then ((Session.withReserved others).after second.occurrences).shortName occurrence.2
    else occurrence.2
  have shownFirst : first.view .essential (first.spelledText (.withReserved names)) =
      first.view .essential (shown ∘ (·.respelled respell)) := by
    refine Block.view_congr .essential first fun identifier member => ?_
    cases isLocal : identifier.isLocal with
    | false => simp [Block.spelledText, Session.spelling, shown, Identifier.respelled, isLocal]
    | true =>
        have isKnown := areKnown identifier.name (Block.mem_localNames.mpr ⟨identifier, member, isLocal, rfl⟩)
        simp [Block.spelledText, Session.spelling, shown, Identifier.respelled, isLocal,
          mirrors.shortName_eq renames isKnown]
  have shownSecond : second.spelledText (.withReserved others) = shown ∘ (·.respelled id) := by
    funext identifier
    cases isLocal : identifier.isLocal <;>
      simp [Block.spelledText, Session.spelling, shown, Identifier.respelled, isLocal]
  calc first.reread.kinds (first.spelledText (.withReserved names)) true
      = first.reread.kinds (shown ∘ (·.respelled respell)) true :=
        Block.kinds_congr id first first true formed formed shownFirst
    _ = second.reread.kinds (shown ∘ (·.respelled id)) true :=
        Block.kinds_congr shown first second true formed formed' same
    _ = second.reread.kinds (second.spelledText (.withReserved others)) true := by rw [shownSecond]

end Blocks

theorem Block.kinds_spell {session : Session} (names : session.Names) {body : Block Identifier}
    (formed : body.Formed Kind.Legible fun identifier => (Kind.name identifier.name).Written) :
    (body.spell session).1.reread.kinds Spelling.text true = body.reread.kinds (body.spelledText session) true := by
  refine Block.kinds_congr id _ body true (Block.formed_spelled names formed) formed ?_
  rw [Session.spell_view, Session.spell_after]
  rfl

theorem Block.toText_spell (module : String) {session : Session} (names : session.Names) {body : Block Identifier}
    (formed : body.Formed Kind.Legible fun identifier => (Kind.name identifier.name).Written) :
    ((body.spell session).1.print module).toText =
      String.ofList (layout (body.reread.kinds (body.spelledText session) true)) := by
  rw [Block.toText_print module (Block.formed_spelled names formed), Block.kinds_spell names formed]

namespace Chunk

variable {source : String} {chunk : Chunk}

theorem formed_of_parse (read : Chunk.parse source = .ok chunk) :
    chunk.body.Formed Kind.Legible fun identifier => (Kind.name identifier.name).Written := by
  obtain ⟨lexed, tree, found, parsed, rfl⟩ := Chunk.parse_eq_ok.mp read
  exact Block.formed_resolve (Block.formed_of_ofTokens (legible_of_tokenize found) parsed)

theorem globals_of_parse (read : Chunk.parse source = .ok chunk) : chunk.globals = chunk.body.globals := by
  obtain ⟨lexed, tree, found, parsed, rfl⟩ := Chunk.parse_eq_ok.mp read
  rfl

theorem toText_minified (module : String) (read : Chunk.parse source = .ok chunk) :
    (chunk.minified module).toText = String.ofList
      (layout (chunk.body.reread.kinds (chunk.body.spelledText (.withReserved chunk.globals)) true)) :=
  Block.toText_spell module (Session.history_names [.reserve chunk.globals]) (formed_of_parse read)

/-- Texts that differ only in layout and in semicolons that could be left out say the same. -/
theorem view_of_sheds {other : String} {again : Chunk} {lexed lighter : Lexed} (read : Chunk.parse source = .ok chunk)
    (readOther : Chunk.parse other = .ok again) (found : tokenize source = .ok lexed)
    (foundOther : tokenize other = .ok lighter)
    (sheds : Sheds (lexed.tokens.map (·.kind)) (lighter.tokens.map (·.kind))) :
    chunk.body.view .essential (·.respelled id) = again.body.view .essential (·.respelled id) := by
  obtain ⟨_, tree, found', parsed, rfl⟩ := Chunk.parse_eq_ok.mp read
  obtain ⟨_, treeOther, foundOther', parsedOther, rfl⟩ := Chunk.parse_eq_ok.mp readOther
  obtain rfl := Except.ok.inj (found.symm.trans found')
  obtain rfl := Except.ok.inj (foundOther.symm.trans foundOther')
  -- Which names are local can be told from the names alone, and these are the same.
  have seen (tree : Block Name) :=
    Block.bound_resolve_exact (fun name isLocal => (isLocal, if isLocal then id name else name)) .essential
      (rfl : (tree.resolve.run .empty).1 = _)
  have same := Block.view_of_sheds parsed parsedOther sheds
  rw [← treeOther.view_resolve, ← tree.view_resolve] at same
  have first := seen tree
  rw [← same] at first
  exact first.symm.trans (seen treeOther)

/-- A text that gives a value to two variables and prints the second, seen without what leaves no trace. -/
theorem exists_of_printed_local (source name : String)
    (checked : ((Chunk.parse source).toOption.any fun chunk => match chunk.body with
      | .cons (.localVars _ [first, second] [.literal _ .number value])
          (.cons (.call _ (.call site (.identifier _ callee) [.identifier _ given])) .nil) =>
        decide (first.respelled id = (true, "self") ∧ second.respelled id = (true, name) ∧ value = "1" ∧
          callee.respelled id = (false, "print") ∧ given.respelled id = (true, name) ∧ site.parenthesized = false)
      | _ => false) = true) :
    ∃ chunk, Chunk.parse source = .ok chunk ∧ chunk.body.localNames = ["self", name, name] ∧
      ∀ respell : String → String, chunk.body.view .essential (·.respelled respell) =
        .cons (.localVars .start [(true, respell "self"), (true, respell name)] [.literal ⟨.start, false⟩ .number "1"])
          (.cons (.call .start (.call ⟨.start, false⟩ (.identifier ⟨.start, false⟩ (false, "print"))
            [.identifier ⟨.start, false⟩ (true, respell name)])) .nil) := by
  obtain ⟨chunk, read, shape⟩ := Chunk.exists_of_parse checked
  refine ⟨chunk, read, ?_⟩
  split at shape
  next body =>
    obtain ⟨kept, declared, rfl, global, used, bare⟩ := of_decide_eq_true shape
    simp only [Identifier.respelled, Prod.mk.injEq, id, ite_self] at kept declared global used
    rw [body]
    constructor
    · simp [Block.localNames, Block.occurrences, Stat.occurrences, Expr.occurrences, Expr.occurrencesAll, kept,
        declared, global, used]
    · intro respell
      simp [Block.view, Stat.view, Expr.view, Expr.viewAll, Identifier.respelled, Site.view, Detail.keeps, kept,
        declared, global, used, bare]
  next => cases shape

theorem exists_of_kinds (source : String) (kinds : List Kind)
    (checked : (tokenize source).toOption.map (·.tokens.map (·.kind)) = some kinds) :
    ∃ lexed, tokenize source = .ok lexed ∧ lexed.tokens.map (·.kind) = kinds := by
  cases found : tokenize source with
  | error => simp [found, Except.toOption] at checked
  | ok lexed => exact ⟨lexed, rfl, by simpa [found, Except.toOption] using checked⟩

/-- Two texts that say the same have the same short form: positions, comments, the names of local variables and marks of
parentheses leave no trace in it, apart from the marks that cut the values of a call or of `...` down to one. So have
texts with the same tokens, and those that only have some more semicolons between statements. -/
theorem minified_canonical {other : String} {again : Chunk} (module otherModule : String)
    (read : Chunk.parse source = .ok chunk) (readOther : Chunk.parse other = .ok again) :
    (∀ respell : String → String, Renaming respell (· ∈ chunk.body.localNames) →
      chunk.body.view .essential (·.respelled respell) = again.body.view .essential (·.respelled id) →
        (chunk.minified module).toText = (again.minified otherModule).toText) ∧
    (∀ lexed lighter, tokenize source = .ok lexed → tokenize other = .ok lighter →
      Sheds (lexed.tokens.map (·.kind)) (lighter.tokens.map (·.kind)) →
        (chunk.minified module).toText = (again.minified otherModule).toText) := by
  have canonical : ∀ respell : String → String, Renaming respell (· ∈ chunk.body.localNames) →
      chunk.body.view .essential (·.respelled respell) = again.body.view .essential (·.respelled id) →
        (chunk.minified module).toText = (again.minified otherModule).toText := by
    intro respell renames same
    have reserved : ∀ name, name ∈ chunk.globals ↔ name ∈ again.globals := by
      rw [globals_of_parse read, globals_of_parse readOther]
      exact Block.mem_globals_congr (Block.respelled_of_view same)
    rw [toText_minified module read, toText_minified otherModule readOther, Block.kinds_mirrored (formed_of_parse read)
      (formed_of_parse readOther) renames (fun _ member => member) same reserved]
  refine ⟨canonical, fun lexed lighter found foundOther sheds => ?_⟩
  exact canonical id ⟨fun _ _ same => same, fun _ => Iff.rfl⟩ (view_of_sheds read readOther found foundOther sheds)

/-- A text with a comment and a semicolon, the same without them, and one with another name and parentheses. -/
theorem minified_canonical_layout : ∃ chunk lighter renamed lexed lexedLighter,
    Chunk.parse "local self,x=1;--[[one]]\nprint(x)" = .ok chunk ∧
      Chunk.parse "local self,x=1 print(x)" = .ok lighter ∧
      tokenize "local self,x=1;--[[one]]\nprint(x)" = .ok lexed ∧
      tokenize "local self,x=1 print(x)" = .ok lexedLighter ∧
      Sheds (lexed.tokens.map (·.kind)) (lexedLighter.tokens.map (·.kind)) ∧
      (chunk.minified "main").toText = (lighter.minified "main").toText ∧
      Chunk.parse "local self,count=(1)print(count)" = .ok renamed ∧
      (chunk.minified "main").toText = (renamed.minified "main").toText := by
  obtain ⟨chunk, read, names, view⟩ :=
    exists_of_printed_local "local self,x=1;--[[one]]\nprint(x)" "x" (by decide +kernel)
  obtain ⟨lighter, readLighter, _⟩ := exists_of_printed_local "local self,x=1 print(x)" "x" (by decide +kernel)
  obtain ⟨renamed, readRenamed, _, viewRenamed⟩ :=
    exists_of_printed_local "local self,count=(1)print(count)" "count" (by decide +kernel)
  let start : List Kind := [.keyword .kLocal, .name "self", .symbol .comma, .name "x", .symbol .assign, .number "1"]
  let last : List Kind := [.name "print", .symbol .leftParen, .name "x", .symbol .rightParen]
  obtain ⟨lexed, found, kinds⟩ :=
    exists_of_kinds "local self,x=1;--[[one]]\nprint(x)" (start ++ .symbol .semicolon :: last) (by decide +kernel)
  obtain ⟨lexedLighter, foundLighter, kindsLighter⟩ :=
    exists_of_kinds "local self,x=1 print(x)" (start ++ last) (by decide +kernel)
  have sheds : Sheds (lexed.tokens.map (·.kind)) (lexedLighter.tokens.map (·.kind)) := by
    rw [kinds, kindsLighter]
    exact .cons _ (.cons _ (.cons _ (.cons _ (.cons _ (.cons _ (.drop rfl (.refl last)))))))
  refine ⟨chunk, lighter, renamed, lexed, lexedLighter, read, readLighter, found, foundLighter, sheds, ?_, readRenamed,
    ?_⟩
  · exact (minified_canonical "main" "main" read readLighter).2 lexed lexedLighter found foundLighter sheds
  · refine (minified_canonical "main" "main" read readRenamed).1 (fun name => if name = "x" then "count" else name)
      ⟨?_, ?_⟩ (by rw [view, viewRenamed]; rfl)
    · intro first second isFirst isSecond same
      simp only [names, List.mem_cons, List.not_mem_nil, or_false, or_self] at isFirst isSecond
      rcases isFirst with rfl | rfl <;> rcases isSecond with rfl | rfl <;>
        first | rfl | exact absurd same (by decide)
    · intro name isKnown
      simp only [names, List.mem_cons, List.not_mem_nil, or_false, or_self] at isKnown
      rcases isKnown with rfl | rfl <;> decide

end Chunk
end LuaMinifier
