import LuaMinifier.Proofs.Ink
import LuaMinifier.Proofs.ItemViews
import LuaMinifier.Proofs.KeptComments

/-!
Where the tokens of a printed text stand. The lexer cuts a text that is written item by item exactly at these items,
so that a mark before an item stands where the lexer finds its token.
-/

namespace LuaMinifier

open Token

/-- The rest of a spelled text behind one of its tokens: it may start with a blank. -/
inductive Remaining : List Kind → List Char → Prop
  | direct {kinds : List Kind} {text : List Char} : Spaced kinds text → Remaining kinds text
  | blank {kind : Kind} {kinds : List Kind} {text : List Char} : Spaced (kind :: kinds) text →
      Remaining (kind :: kinds) (' ' :: text)

theorem Spaced.split {kind : Kind} {kinds : List Kind} {text : List Char} (spaced : Spaced (kind :: kinds) text) :
    ∃ rest, text = kind.chars ++ rest ∧ Remaining kinds rest ∧
      ∀ next, rest.head? = some next → kind.separate next = true := by
  cases spaced with
  | direct written rest apart => exact ⟨_, rfl, .direct rest, apart⟩
  | blank written rest => exact ⟨_, rfl, .blank rest, by simp [separate_blank written]⟩

theorem Token.Kind.separates_of_isSpacing {kind : Kind} (written : kind.Written) {first : Char} {rest : List Char}
    (same : kind.chars = first :: rest) (spacing : isSpacing first = true) : kind.separates = true ∧ rest = [] := by
  have visible := Spaced.head_not_blank written same
  have start := startsWith_head written same
  have listed : first = ' ' ∨ first = '(' ∨ first = ')' ∨ first = ',' ∨ first = ';' := by
    simpa [isSpacing] using spacing
  cases kind with
  | symbol sign =>
      have text : sign.text.toList = first :: rest := same
      rcases listed with rfl | rfl | rfl | rfl | rfl <;> cases sign <;> simp_all [Symbol.text, Symbol.separates]
  | _ => rcases listed with rfl | rfl | rfl | rfl | rfl <;> simp_all [startsWith, Lexeme.startsName]

theorem Token.Kind.chars_of_separates {kind : Kind} (separates : kind.separates = true) :
    ∃ sign, kind.chars = [sign] ∧ isSpacing sign = true := by
  cases kind with
  | symbol sign => cases sign <;> first | exact ⟨_, rfl, rfl⟩ | cases separates
  | _ => cases separates

theorem Remaining.written {kinds : List Kind} {text : List Char} (remaining : Remaining kinds text) :
    ∀ kind ∈ kinds, kind.Written := by
  cases remaining with
  | direct spaced => exact spaced.written
  | blank spaced => exact spaced.written

/-- Where the first item of a text is written, its token is the first one that is no separator. -/
theorem Remaining.token {kind : Kind} {kinds rest : List Kind} {text : List Char}
    (remaining : Remaining kinds (kind.chars ++ text)) (same : significant kinds = kind :: rest) :
    kind.Written ∧ kind.separates = false ∧ ∃ others, Remaining others text ∧ significant others = rest ∧
      ∀ next, text.head? = some next → kind.separate next = true := by
  have listed : kind ∈ significant kinds := same ▸ List.mem_cons_self
  obtain ⟨member, kept⟩ := List.mem_filter.mp listed
  have matters : kind.separates = false := by simpa using kept
  have written := remaining.written kind member
  obtain ⟨first, tail, chars⟩ := Spaced.chars_ne_nil written
  have unspaced : isSpacing first = false := by
    rw [Bool.eq_false_iff]
    intro spacing
    cases matters.symm.trans (Kind.separates_of_isSpacing written chars spacing).1
  refine ⟨written, matters, ?_⟩
  generalize whole : kind.chars ++ text = all at remaining
  rw [chars, List.cons_append] at whole
  cases remaining with
  | blank spaced =>
      obtain ⟨rfl, -⟩ := List.cons.inj whole
      cases unspaced
  | direct spaced =>
      cases kinds with
      | nil => cases same
      | cons head others =>
          obtain ⟨behind, split, rest, apart⟩ := spaced.split
          rw [significant_cons] at same
          split at same
          next separates =>
            obtain ⟨sign, single, spacing⟩ := Kind.chars_of_separates separates
            rw [split, single] at whole
            obtain ⟨rfl, -⟩ := List.cons.inj whole
            cases unspaced.symm.trans spacing
          next =>
            obtain ⟨rfl, tail⟩ := List.cons.inj same
            rw [split, chars, List.cons_append] at whole
            obtain rfl := List.append_cancel_left (List.cons.inj whole).2
            exact ⟨others, rest, tail, apart⟩

/-- Items where they stand: each has a token at its place, and the mark before a variable or a literal stands there
too. -/
inductive Placed (module : String) : Position → List (Item Spelling) → List Token → List Ink → Prop
  | nil {position : Position} : Placed module position [] [] []
  | mark {position : Position} {items : List (Item Spelling)} {tokens : List Token} {ink : List Ink}
      (origin : Position) : Placed module position items tokens ink →
        Placed module position items tokens (.mark ⟨module, origin⟩ none :: ink)
  | char {position : Position} {items : List (Item Spelling)} {tokens : List Token} {ink : List Ink}
      (character : Char) : Placed module (position.step character) items tokens ink →
        Placed module position items tokens (.char character :: ink)
  | fixed {position : Position} {items : List (Item Spelling)} {tokens : List Token} {ink : List Ink} (kind : Kind) :
      Placed module (position.after kind.chars) items tokens ink →
        Placed module position (.fixed kind :: items) (⟨kind, position⟩ :: tokens) (Ink.ofChars kind.chars ++ ink)
  | literal {position : Position} {items : List (Item Spelling)} {tokens : List Token} {ink : List Ink} (kind : Kind)
      (origin : Position) : kind.Written → Placed module (position.after kind.chars) items tokens ink →
        Placed module position (.literal kind origin :: items) (⟨kind, position⟩ :: tokens)
          (.mark ⟨module, origin⟩ none :: Ink.ofChars kind.chars ++ ink)
  | occurrence {position : Position} {items : List (Item Spelling)} {tokens : List Token} {ink : List Ink}
      (occurrence : Spelling) : occurrence.Written →
        Placed module (position.after (Kind.name occurrence.text).chars) items tokens ink →
          Placed module position (.occurrence occurrence :: items) (⟨.name occurrence.text, position⟩ :: tokens)
            (.mark ⟨module, occurrence.position⟩ occurrence.original? ::
              Ink.ofChars (Kind.name occurrence.text).chars ++ ink)

def Lexed.significant (lexed : Lexed) : List Token := lexed.tokens.filter (!·.kind.separates)

/-- The lexer finds the items of a text where they stand. -/
def Lexes (module : String) (position : Position) (items : List (Item Spelling)) (ink : List Ink) : Prop :=
  ∃ lexed, Lexed.ofText position (Ink.chars ink) = .ok lexed ∧ Placed module position items lexed.significant ink

section Lexing

variable {module : String} {items : List (Item Spelling)} {ink : List Ink} {kinds : List Kind} {position : Position}

theorem Lexes.spacing {character : Char} (spacing : isSpacing character = true)
    (remaining : Remaining kinds (character :: Ink.chars ink))
    (rest : ∀ {others : List Kind}, Remaining others (Ink.chars ink) → significant others = significant kinds →
      Lexes module (position.step character) items ink) : Lexes module position items (.char character :: ink) := by
  generalize whole : character :: Ink.chars ink = text at remaining
  cases remaining with
  | blank spaced =>
      obtain ⟨rfl, rfl⟩ := List.cons.inj whole
      obtain ⟨lexed, read, placed⟩ := rest (.direct spaced) rfl
      exact ⟨lexed, (Spaced.ofText_blank spaced position).trans read, .char _ placed⟩
  | direct spaced =>
      cases kinds with
      | nil =>
          rw [spaced.text_eq_nil.mpr rfl] at whole
          cases whole
      | cons kind others =>
          have written := spaced.written kind List.mem_cons_self
          obtain ⟨behind, split, remaining, apart⟩ := spaced.split
          obtain ⟨first, tail, chars⟩ := Spaced.chars_ne_nil written
          rw [split, chars, List.cons_append] at whole
          obtain ⟨rfl, same⟩ := List.cons.inj whole
          obtain ⟨separates, rfl⟩ := Kind.separates_of_isSpacing written chars spacing
          obtain rfl : Ink.chars ink = behind := same
          obtain ⟨lexed, read, placed⟩ := rest remaining (by simp [separates])
          have after : position.step character = position.after kind.chars := by rw [chars]; rfl
          rw [after] at read
          refine ⟨_, by simpa [chars] using Spaced.ofText_token written _ apart position read, .char _ ?_⟩
          simpa [Lexed.significant, separates] using placed

theorem Lexes.token {kind : Kind} {rest : List Kind} (remaining : Remaining kinds (kind.chars ++ Ink.chars ink))
    (same : significant kinds = kind :: rest)
    (behind : ∀ {others : List Kind}, Remaining others (Ink.chars ink) → significant others = rest →
      Lexes module (position.after kind.chars) items ink) :
    kind.Written ∧ ∃ lexed tokens, Lexed.ofText position (kind.chars ++ Ink.chars ink) = .ok lexed ∧
      lexed.significant = ⟨kind, position⟩ :: tokens ∧ Placed module (position.after kind.chars) items tokens ink := by
  obtain ⟨written, matters, others, remaining, further, apart⟩ := remaining.token same
  obtain ⟨lexed, read, placed⟩ := behind remaining further
  exact ⟨written, _, _, Spaced.ofText_token written _ apart position read, by simp [Lexed.significant, matters], placed⟩

/-- The lexer cuts a text that is written item by item at these items. -/
theorem Inked.lexes (inked : Inked module items ink) (remaining : Remaining kinds (Ink.chars ink))
    (same : significant kinds = items.map (Item.kind Spelling.text)) (position : Position) :
    Lexes module position items ink := by
  -- The text is followed piece by piece. What is left of it always spells the tokens that are left.
  induction inked generalizing kinds position with
  | nil => exact ⟨⟨[], [], position⟩, by rw [Ink.chars_nil, Lexed.ofText], .nil⟩
  | mark origin _ ih =>
      obtain ⟨lexed, read, placed⟩ := ih remaining same position
      exact ⟨lexed, read, .mark origin placed⟩
  | spacing spacing _ ih =>
      exact Lexes.spacing spacing remaining fun remaining rest => ih remaining (rest.trans same) _
  | fixed kind _ ih =>
      rw [Ink.chars_append, Ink.chars_ofChars] at remaining
      obtain ⟨-, lexed, tokens, read, found, placed⟩ := Lexes.token remaining same fun remaining rest =>
        ih remaining rest _
      exact ⟨lexed, by simpa using read, found ▸ .fixed kind placed⟩
  | literal kind origin _ ih =>
      rw [List.cons_append, Ink.chars_mark, Ink.chars_append, Ink.chars_ofChars] at remaining
      obtain ⟨written, lexed, tokens, read, found, placed⟩ := Lexes.token remaining same fun remaining rest =>
        ih remaining rest _
      exact ⟨lexed, by simpa using read, found ▸ .literal kind origin written placed⟩
  | occurrence occurrence _ ih =>
      rw [List.cons_append, Ink.chars_mark, Ink.chars_append, Ink.chars_ofChars] at remaining
      obtain ⟨written, lexed, tokens, read, found, placed⟩ := Lexes.token remaining same fun remaining rest =>
        ih remaining rest _
      exact ⟨lexed, by simpa using read, found ▸ .occurrence occurrence written placed⟩

end Lexing

section Comments

variable {module : String} {items : List (Item Spelling)} {tokens : List Token} {ink : List Ink} {position : Position}

theorem Placed.chars (text : List Char) (placed : Placed module (position.after text) items tokens ink) :
    Placed module position items tokens (Ink.ofChars text ++ ink) := by
  induction text generalizing position with
  | nil => exact placed
  | cons character rest ih => exact .char character (ih placed)

theorem ink_line (comment : Comment) (module : String) :
    (comment.line module).ink =
      .mark ⟨module, comment.position⟩ none :: Ink.ofChars (comment.raw.toList ++ ['\n']) := by
  simp only [Comment.line, Fragment.ink_append, Ink.ofChars_append]
  rfl

theorem ink_withPragmas (module : String) (kept : List Comment) (code : Fragment) :
    (code.withPragmas module kept).ink =
      (⟨code.origin, code.name, .empty⟩ : Fragment).ink ++ kept.flatMap (fun comment => (comment.line module).ink)
        ++ code.body.ink := by
  have inside : (code.withPragmas module kept).origin = code.origin ∧ (code.withPragmas module kept).name = code.name ∧
      (code.withPragmas module kept).body.ink =
        kept.flatMap (fun comment => (comment.line module).ink) ++ code.body.ink := by
    induction kept with
    | nil => exact ⟨rfl, rfl, rfl⟩
    | cons comment rest ih =>
        refine ⟨ih.1, ih.2.1, ?_⟩
        rw [List.flatMap_cons, List.append_assoc, ← ih.2.2]
        exact Piece.ink_behind (comment.line module).toPiece (code.withPragmas module rest).body
  obtain ⟨origin, name, body⟩ := inside
  have whole (fragment : Fragment) :
      fragment.ink = (⟨fragment.origin, fragment.name, .empty⟩ : Fragment).ink ++ fragment.body.ink := by
    obtain ⟨origin, _, _⟩ := fragment
    cases origin <;> rfl
  rw [whole, origin, name, body, List.append_assoc]

theorem Lexes.line {comment : Comment} (closed : comment.Closed)
    (visible : ∀ first, (Ink.chars ink).head? = some first → Lexeme.isBlank first = false)
    (lexes : ∀ position, Lexes module position items ink) (position : Position) :
    Lexes module position items ((comment.line module).ink ++ ink) := by
  obtain ⟨lexed, read, placed⟩ := lexes (position.after (comment.raw.toList ++ ['\n']))
  have whole := closed.ofText visible read
  rw [ink_line]
  exact ⟨lexed.cons (.comment comment.reread.raw comment.reread.value) position, by simpa using whole,
    .mark _ (Placed.chars _ placed)⟩

theorem Lexes.comments {kept : List Comment} (closed : ∀ comment ∈ kept, comment.Closed)
    (visible : ∀ first, (Ink.chars ink).head? = some first → Lexeme.isBlank first = false)
    (lexes : ∀ position, Lexes module position items ink) (position : Position) :
    Lexes module position items (kept.flatMap (fun comment => (comment.line module).ink) ++ ink) := by
  induction kept generalizing position with
  | nil => exact lexes position
  | cons comment rest ih =>
      rw [List.forall_mem_cons] at closed
      rw [List.flatMap_cons, List.append_assoc]
      refine Lexes.line closed.1 ?_ (ih closed.2) position
      cases rest with
      | nil => exact visible
      | cons next others =>
          obtain ⟨body, raw, -⟩ := closed.2 next List.mem_cons_self
          intro first head
          obtain rfl : '-' = first := by simpa [ink_line, raw] using head
          decide

end Comments

/-- A block printed behind kept comments is read again, and the lexer finds its items where they were printed. -/
theorem Block.read_marked (module : String) {body : Block Spelling} (formed : body.Formed Kind.Written Spelling.Written)
    {kept : List Comment} (closed : ∀ comment ∈ kept, comment.Closed) :
    ∃ lexed tree, tokenize ((body.print module).withPragmas module kept).toText = .ok lexed ∧
      Block.ofTokens lexed = .ok tree ∧ tree.view .exact Name.text = body.reread.view .exact Spelling.text ∧
      (∀ token ∈ lexed.tokens, token.kind.Written) ∧
      Placed module .start body.items lexed.significant ((body.print module).withPragmas module kept).ink := by
  have printed := (body.printed module formed).spaced
  have chars : (body.print module).chars = (body.printOnto module .empty).chars := by simp [Block.print, Print.node]
  have cut := body.cut_print module formed
  have whole := cut.withPragmas closed module
  obtain ⟨lexed, found, kinds, -⟩ := whole.tokenize
  obtain ⟨tree, isRead, read⟩ := Block.ofTokens_kinds (body.formed_reread formed) body.grouped_reread kinds
  have inner : Ink.chars (body.printOnto module .empty).ink = (body.print module).chars :=
    (Piece.chars_ink _).trans chars.symm
  have same : significant (body.reread.kinds Spelling.text true) = body.items.map (Item.kind Spelling.text) := by
    rw [Block.significant_kinds, Block.items_reread]
  have lexes := Lexes.comments closed (inner ▸ cut.visible)
    ((body.inked_onto module formed .empty).lexes (.direct (inner ▸ chars ▸ printed)) same) .start
  obtain ⟨again, reads, placed⟩ := lexes
  have text :
      Ink.chars (kept.flatMap (fun comment => (comment.line module).ink) ++ (body.printOnto module .empty).ink) =
      ((body.print module).withPragmas module kept).chars := by
    rw [← Fragment.chars_toPiece, ← Piece.chars_ink]
    exact (congrArg Ink.chars (ink_withPragmas module kept (body.print module))).symm
  obtain rfl : lexed = again := by
    have cutAgain : tokenize (String.ofList ((body.print module).withPragmas module kept).chars) = .ok again := by
      simpa [tokenize, interpreterLine, whole.plain, text] using reads
    exact Except.ok.inj (found.symm.trans cutAgain)
  refine ⟨lexed, tree, by rw [Fragment.toText_eq, found], read, isRead, fun token member => ?_, ?_⟩
  · exact printed.written _ (kinds ▸ List.mem_map_of_mem member)
  · rw [ink_withPragmas]
    exact .mark .start placed

end LuaMinifier
