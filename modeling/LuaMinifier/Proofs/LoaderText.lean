import LuaMinifier.Proofs.KeptComments
import LuaMinifier.Proofs.LoaderTree

/-!
The text of a loader spells the tree of a loader, and the text of an entry directly behind it is read as the rest of
one block.
-/

namespace LuaMinifier

open Token

namespace Token.Kind

/-- Whether a token stays itself when another one stands directly behind it, by their kinds alone. -/
def meets : Kind → Kind → Bool
  | .name _, .symbol _ | .keyword _, .symbol _ | .symbol _, .name _ | .symbol _, .keyword _ => true
  | .symbol .eq, .string _ => true
  | .symbol sign, .symbol next => next.text.toList.head?.all (Kind.symbol sign).separate
  | _, _ => false

theorem separate_startsName (sign : Symbol) {first : Char} (start : Lexeme.startsName first = true) :
    (Kind.symbol sign).separate first = true := by
  have other (character : Char) (sign : Lexeme.startsName character = false) : first ≠ character := by
    rintro rfl
    simp [start] at sign
  have notDigit : first.isDigit = false := Lexeme.isDigit_of_startsName start
  cases sign <;> simp [separate, other, notDigit, Lexeme.startsName]

theorem separate_of_meets {kind next : Kind} (meeting : kind.meets next = true) {first : Char}
    (start : next.startsWith first = true) : kind.separate first = true := by
  unfold meets at meeting
  split at meeting
  next sign =>
    simp only [startsWith, decide_eq_true_eq] at start
    cases sign <;> simp [Symbol.text] at start <;> subst start <;> rfl
  next sign =>
    simp only [startsWith, decide_eq_true_eq] at start
    cases sign <;> simp [Symbol.text] at start <;> subst start <;> rfl
  next sign _ => exact separate_startsName sign start
  next sign _ => exact separate_startsName sign start
  next => rfl
  next sign other =>
    simp only [startsWith, decide_eq_true_eq] at start
    simpa [start] using meeting
  next => cases meeting

end Token.Kind

@[simp] theorem Token.Kind.written_keyword (reserved : Keyword) : (Kind.keyword reserved).Written := trivial

@[simp] theorem Token.Kind.written_symbol (sign : Symbol) : (Kind.symbol sign).Written := trivial

/-- Whether tokens can be written without blanks between them. -/
def adjoin : List Kind → Bool
  | kind :: next :: rest => kind.meets next && adjoin (next :: rest)
  | _ => true

theorem Spaced.ofKinds {kinds : List Kind} (written : ∀ kind ∈ kinds, kind.Written) (meeting : adjoin kinds = true) :
    Spaced kinds (kinds.flatMap Kind.chars) := by
  induction kinds with
  | nil => exact .nil
  | cons kind rest ih =>
      rw [List.forall_mem_cons] at written
      cases rest with
      | nil => simpa using Spaced.single written.1
      | cons next others =>
          simp only [adjoin, Bool.and_eq_true] at meeting
          have behind := ih written.2 meeting.2
          refine .direct written.1 behind fun first head => ?_
          obtain ⟨tail, same⟩ := List.head?_eq_some_iff.mp (behind.head.symm.trans head)
          exact Kind.separate_of_meets meeting.1 (Kind.startsWith_head (written.2 next (by simp)) same)

/-- A part of a text: tokens that can stand behind others and before others, or nothing. -/
structure Piece.Spells (piece : Piece) (kinds : List Kind) : Prop where
  printed : Printed kinds piece.chars
  follows : startsFollowing kinds = true

namespace Piece

variable {kinds : List Kind}

theorem spells_text {text : String} (same : text.toList = kinds.flatMap Kind.chars)
    (written : ∀ kind ∈ kinds, kind.Written) (meeting : adjoin kinds = true) (closed : endsClosed kinds = true)
    (follows : startsFollowing kinds = true) : (Piece.text text).Spells kinds := by
  refine ⟨⟨?_, closed⟩, follows⟩
  rw [chars, same]
  exact Spaced.ofKinds written meeting

theorem Spells.keyword (reserved : Keyword) : (Piece.text reserved.text).Spells [.keyword reserved] :=
  ⟨⟨.keyword reserved, rfl⟩, rfl⟩

end Piece

namespace Printed

variable {kinds more : List Kind} {fragment : Fragment}

theorem join {piece : Piece} (front : Printed kinds fragment.chars) (part : piece.Spells more) :
    Printed (kinds ++ more) (fragment.join piece).chars := by
  rw [Fragment.chars_join]
  cases more with
  | nil =>
      have nothing : piece.chars = [] := part.printed.spaced.text_eq_nil.mpr rfl
      simpa [nothing, joinChars, needsSeparator] using front
  | cons kind rest => exact front.append part.printed part.follows

end Printed

namespace Loader

def Variables.labels (names : Variables) : Labels Spelling :=
  let spelled (text : String) : Spelling := ⟨text, text, .start⟩
  ⟨spelled "require", spelled names.host, spelled names.loaded, spelled names.name, spelled "require"⟩

structure Variables.Written (names : Variables) : Prop where
  host : (Kind.name names.host).Written
  loaded : (Kind.name names.loaded).Written
  name : (Kind.name names.name).Written

theorem written_require : (Kind.name "require").Written := ⟨by decide, by decide⟩

section Text

variable {names : Variables}

theorem labels_written (written : names.Written) : names.labels.All Spelling.Written :=
  ⟨written_require, written.host, written.loaded, written.name, written_require⟩

def Variables.slotKinds (names : Variables) (more : List Kind) : List Kind :=
  [.name names.loaded, .symbol .leftBracket, .name names.name, .symbol .rightBracket] ++ more

theorem spells_slot (written : names.Written) {more : List Kind} (known : ∀ kind ∈ more, kind.Written)
    (meeting : adjoin (.symbol .rightBracket :: more) = true)
    (closed : endsClosed (.symbol .rightBracket :: more) = true) {text : String}
    (same : text.toList = more.flatMap Kind.chars) :
    (Piece.text (names.slot ++ text)).Spells (names.slotKinds more) := by
  refine Piece.spells_text ?_ ?_ ?_ ?_ rfl
  · simp [Variables.slot, Variables.slotKinds, same, Kind.chars, Symbol.text]
  · simpa [Variables.slotKinds, written.loaded, written.name] using known
  · simpa [Variables.slotKinds, adjoin, Kind.meets] using meeting
  · rw [Variables.slotKinds, ← closed]
    exact endsClosed_append_of_ne_nil [.name names.loaded, .symbol .leftBracket, .name names.name] (by simp)

theorem spells_result (written : names.Written) : (Piece.text names.slot).Spells (names.slotKinds []) := by
  have nothing : ("" : String).toList = ([] : List Kind).flatMap Kind.chars := rfl
  simpa using spells_slot written (by simp) rfl rfl nothing

def Variables.openingKinds (names : Variables) : List Kind :=
  names.labels.header.kinds Spelling.text ++
    [.keyword .kLocal, .keyword .kFunction, .name "require", .symbol .leftParen, .name names.name,
      .symbol .rightParen, .name names.loaded, .symbol .assign, .name names.loaded, .keyword .kOr, .symbol .leftBrace,
      .symbol .rightBrace, .keyword .kIf] ++ names.slotKinds [.symbol .notEq, .keyword .kNil] ++
    [.keyword .kThen, .keyword .kReturn] ++ names.slotKinds [] ++ [.keyword .kEnd]

theorem printed_opening (written : names.Written) : Printed names.openingKinds (opening names).chars := by
  have start : Printed [.keyword .kLocal] (Fragment.empty.append "local").chars := ⟨.keyword .kLocal, rfl⟩
  have bound : (Piece.text (names.host ++ "," ++ names.loaded ++ "=require")).Spells
      [.name names.host, .symbol .comma, .name names.loaded, .symbol .assign, .name "require"] :=
    Piece.spells_text (by simp [Kind.chars, Symbol.text]) (by simp [written.host, written.loaded, written_require])
      rfl rfl rfl
  have head : (Piece.text ("require(" ++ names.name ++ ")")).Spells
      [.name "require", .symbol .leftParen, .name names.name, .symbol .rightParen] :=
    Piece.spells_text (by simp [Kind.chars, Symbol.text]) (by simp [written.name, written_require]) rfl rfl rfl
  have table : (Piece.text (names.loaded ++ "=" ++ names.loaded ++ " or\x7b\x7d")).Spells
      [.name names.loaded, .symbol .assign, .name names.loaded, .keyword .kOr, .symbol .leftBrace,
        .symbol .rightBrace] := by
    have left : Spaced [.name names.loaded, .symbol .assign, .name names.loaded] _ :=
      Spaced.ofKinds (by simp [written.loaded]) rfl
    have right : Spaced [.keyword .kOr, .symbol .leftBrace, .symbol .rightBrace] _ :=
      Spaced.ofKinds (by simp) rfl
    refine ⟨⟨?_, rfl⟩, rfl⟩
    simpa [Piece.chars, Kind.chars, Symbol.text, Keyword.text] using left.append_blank (by simp) right
  have filled : (Piece.text (names.slot ++ "~=nil")).Spells (names.slotKinds [.symbol .notEq, .keyword .kNil]) :=
    spells_slot written (by simp) rfl rfl (by simp [Kind.chars, Symbol.text, Keyword.text])
  have whole := start.join bound |>.join (.keyword .kLocal) |>.join (.keyword .kFunction) |>.join head |>.join table
    |>.join (.keyword .kIf) |>.join filled |>.join (.keyword .kThen) |>.join (.keyword .kReturn)
    |>.join (spells_result written) |>.join (.keyword .kEnd)
  simpa [Variables.openingKinds, Labels.header, Variables.labels, reference, Stat.kinds, nameItems, Expr.kindsAll,
    Expr.kinds, Site.enclose, Site.plain, listed, opening, joinAll, Keyword.text] using whole

theorem printed_branch (written : names.Written) {kinds : List Kind} {loader body : Fragment} {module : String}
    {inner : Block Spelling} (front : Printed kinds loader.chars) (quoted : (Kind.string (quoteName module)).Written)
    (spelled : body.toPiece.Spells (inner.kinds Spelling.text true)) :
    Printed (kinds ++ (names.labels.branch module inner).kinds Spelling.text)
      (branch names loader module body).chars := by
  have test : (Piece.text (names.name ++ "==" ++ quoteName module)).Spells
      [.name names.name, .symbol .eq, .string (quoteName module)] :=
    Piece.spells_text (by simp [Kind.chars, Symbol.text]) (by simp [written.name, quoted]) rfl rfl rfl
  have function : (Piece.text (names.slot ++ "=(function(...)")).Spells (names.slotKinds [.symbol .assign,
      .symbol .leftParen, .keyword .kFunction, .symbol .leftParen, .symbol .dotDotDot, .symbol .rightParen]) :=
    spells_slot written (by simp) rfl rfl (by simp [Kind.chars, Symbol.text, Keyword.text])
  have call : (Piece.text ("end)(" ++ names.name ++ ")")).Spells [.keyword .kEnd, .symbol .rightParen,
      .symbol .leftParen, .name names.name, .symbol .rightParen] :=
    Piece.spells_text (by simp [Kind.chars, Symbol.text, Keyword.text]) (by simp [written.name]) rfl rfl rfl
  have missing : (Piece.text (names.slot ++ "==nil")).Spells (names.slotKinds [.symbol .eq, .keyword .kNil]) :=
    spells_slot written (by simp) rfl rfl (by simp [Kind.chars, Symbol.text, Keyword.text])
  have filled : (Piece.text (names.slot ++ "=true")).Spells (names.slotKinds [.symbol .assign, .keyword .kTrue]) :=
    spells_slot written (by simp) rfl rfl (by simp [Kind.chars, Symbol.text, Keyword.text])
  have whole := front.join (.keyword .kIf) |>.join test |>.join (.keyword .kThen) |>.join function |>.join spelled
    |>.join call |>.join (.keyword .kIf) |>.join missing |>.join (.keyword .kThen) |>.join filled
    |>.join (.keyword .kEnd) |>.join (.keyword .kReturn) |>.join (spells_result written) |>.join (.keyword .kEnd)
  simpa [Labels.branch, Labels.slot, Labels.unset, Variables.labels, Variables.slotKinds, reference, Stat.kinds,
    Block.kinds, Else.kinds, Expr.kindsAll, Expr.kinds, LiteralKind.token, BinaryOp.token, functionKinds, separated,
    Parameters.items, nameItems, Site.enclose, Site.plain, listed, branch, joinAll, Keyword.text] using whole

theorem printed_closing (written : names.Written) {kinds : List Kind} {loader : Fragment}
    (front : Printed kinds loader.chars) :
    Printed (kinds ++ (names.labels.branches []).kinds Spelling.text false ++ [.keyword .kEnd])
      (closing names loader).chars := by
  have host : (Piece.text (names.host ++ "(" ++ names.name ++ ")")).Spells
      [.name names.host, .symbol .leftParen, .name names.name, .symbol .rightParen] :=
    Piece.spells_text (by simp [Kind.chars, Symbol.text]) (by simp [written.host, written.name]) rfl rfl rfl
  have whole := front.join (.keyword .kReturn) |>.join host |>.join (.keyword .kEnd)
  simpa [Labels.branches, Variables.labels, reference, Block.kinds, Expr.kindsAll, Expr.kinds, Site.enclose,
    Site.plain, listed, closing, joinAll, Keyword.text] using whole

theorem startsFollowing_body {inner : Block Spelling} (formed : inner.Formed Kind.Written Spelling.Written) :
    startsFollowing (inner.kinds Spelling.text true) = true := by
  cases kinds : inner.kinds Spelling.text true with
  | nil => rfl
  | cons kind rest => exact Kind.follows_of_startsLine kind (Block.kinds_head Spelling.text formed kinds)

theorem spells_print (module : String) {body : Block Spelling} (formed : body.Formed Kind.Written Spelling.Written) :
    (body.print module).toPiece.Spells (body.reread.kinds Spelling.text true) := by
  refine ⟨?_, startsFollowing_body (body.formed_reread formed)⟩
  simpa [Block.print, Print.node, Block.Spells] using body.printed module formed

theorem printed_branches (written : names.Written) (modules : List (String × Block Spelling))
    (each : ∀ module ∈ modules, (Kind.string (quoteName module.1)).Written ∧
      module.2.Formed Kind.Written Spelling.Written)
    {kinds : List Kind} {loader : Fragment} (front : Printed kinds loader.chars) :
    Printed (kinds ++ (names.labels.branches (modules.map fun module => (module.1, module.2.reread))).kinds
        Spelling.text false ++ [.keyword .kEnd])
      (closing names ((modules.map fun module => (module.1, module.2.print module.1)).foldl
        (fun loader (name, body) => branch names loader name body) loader)).chars := by
  induction modules generalizing kinds loader with
  | nil => exact printed_closing written front
  | cons module rest ih =>
      rw [List.forall_mem_cons] at each
      have whole := ih each.2 (printed_branch written front each.1.1 (spells_print module.1 each.1.2))
      have plain : separated false ((names.labels.branch module.1 module.2.reread).kinds Spelling.text) =
          (names.labels.branch module.1 module.2.reread).kinds Spelling.text := rfl
      simpa [Labels.branches, Block.kinds, plain] using whole

/-- A loader with the printed bodies of some modules spells the two statements of a loader with these bodies. -/
theorem printed_ofModules (written : names.Written) (modules : List (String × Block Spelling))
    (each : ∀ module ∈ modules, (Kind.string (quoteName module.1)).Written ∧
      module.2.Formed Kind.Written Spelling.Written) :
    Printed (names.labels.header.kinds Spelling.text ++ (names.labels.function
        (names.labels.branches (modules.map fun module => (module.1, module.2.reread)))).kinds Spelling.text)
      (ofModules names (modules.map fun module => (module.1, module.2.print module.1))).chars := by
  have whole := printed_branches written modules each (printed_opening written)
  simpa [Variables.openingKinds, Variables.slotKinds, Labels.function, Labels.body, Labels.unset, Labels.slot,
    Variables.labels, reference, Stat.kinds, Block.kinds, Else.kinds, Expr.kindsAll, Expr.kinds, LiteralKind.token,
    BinaryOp.token, functionKinds, braces, closingComma, Field.kindsAll, separated, Parameters.items, nameItems,
    Site.enclose, Site.plain, listed, ofModules] using whole

theorem read_bundle (written : names.Written) {modules : List (String × Block Spelling)}
    (each : ∀ module ∈ modules, (Kind.string (quoteName module.1)).Written ∧
      module.2.Formed Kind.Written Spelling.Written)
    {entry : Block Spelling} (last : entry.Formed Kind.Written Spelling.Written) {kept : List Comment}
    (closed : ∀ comment ∈ kept, comment.Closed) (name : String) {loader : Fragment}
    (loaded : loader = ofModules names (modules.map fun module => (module.1, module.2.print module.1))) :
    ∃ lexed tree, tokenize (((Fragment.empty.append loader).join (entry.print name)).withPragmas name kept).toText =
        .ok lexed ∧ Block.ofTokens lexed = .ok tree ∧
      tree.view .exact Name.text =
        (names.labels.bundle (modules.map fun module => (module.1, module.2.reread)) entry.reread).view .exact
          Spelling.text := by
  have start : (Fragment.empty.append loader).chars = loader.chars := by simp
  have front := printed_ofModules written modules each
  rw [← loaded, ← start] at front
  have whole := front.join (spells_print name last)
  have plain : ((Fragment.empty.append loader).join (entry.print name)).chars.head? ≠ some '#' := by
    rw [whole.spaced.head]
    decide
  obtain ⟨lexed, found, kinds, -⟩ := ((Cut.ofSpaced whole.spaced plain).withPragmas closed name).tokenize
  have again (module : String × Block Spelling)
      (member : module ∈ modules.map fun module => (module.1, module.2.reread)) :
      (Kind.string (quoteName module.1)).Written ∧ module.2.Formed Kind.Written Spelling.Written := by
    obtain ⟨old, present, rfl⟩ := List.mem_map.mp member
    exact ⟨(each old present).1, old.2.formed_reread (each old present).2⟩
  have grouped (module : String × Block Spelling)
      (member : module ∈ modules.map fun module => (module.1, module.2.reread)) : module.2.All Expr.Grouped := by
    obtain ⟨old, _, rfl⟩ := List.mem_map.mp member
    exact old.2.grouped_reread
  obtain ⟨tree, isRead, read⟩ := Block.ofTokens_spliced
    (formed_bundle (labels_written written) again (entry.formed_reread last))
    (grouped_bundle grouped entry.grouped_reread) (kinds.trans (List.append_assoc ..))
  exact ⟨lexed, tree, by rw [Fragment.toText_eq, found], read, isRead⟩

end Text

end Loader

end LuaMinifier
