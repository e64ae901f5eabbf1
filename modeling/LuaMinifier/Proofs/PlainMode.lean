import LuaMinifier.Proofs.Canonical
import LuaMinifier.Proofs.Printing
import LuaMinifier.Proofs.SourceMapping

/-!
Runs without module mode. Main statement: such a run on a text gives what minifying the text on its own gives. The one
writes the comments that it keeps in front of the node of the whole text, the other into this node; this makes a
difference for the map only where no statement begins behind them, since of two marks at one place the last is kept.
-/

namespace LuaMinifier

open Token Print

namespace SourceMap.Builder

theorem addMapping_addMapping (builder : Builder) (source other : Nat) (origin later : Position)
    (name again : Option String) :
    (builder.addMapping source origin name).addMapping other later again = builder.addMapping other later again := by
  obtain ⟨file, sources, contents, mappings, line, column⟩ := builder
  cases mappings with
  | nil => simp [addMapping]
  | cons latest earlier =>
      by_cases here : latest.generatedLine = line ∧ latest.generatedColumn = column <;> simp [addMapping, here]

/-- A builder as it is before the first mapping. -/
def unmapped (builder : Builder) : Builder := { builder with mappings := [], line := 0, column := 0 }

theorem unmapped_addMapping (builder : Builder) (source : Nat) (origin : Position) (name : Option String) :
    (builder.addMapping source origin name).unmapped = builder.unmapped := by
  unfold addMapping
  split
  · split <;> rfl
  · rfl

theorem unmapped_step (builder : Builder) (character : Char) :
    (builder.step character).unmapped = builder.unmapped := by
  unfold step
  split <;> rfl

end SourceMap.Builder

namespace Ink

variable {module : String} {ink : List Ink}

/-- A mark of a module stands in front. -/
def Begins (module : String) (ink : List Ink) : Prop :=
  ∃ position name rest, ink = .mark ⟨module, position⟩ name :: rest

theorem Begins.append (begins : Begins module ink) (others : List Ink) : Begins module (ink ++ others) := by
  obtain ⟨position, name, rest, rfl⟩ := begins
  exact ⟨position, name, rest ++ others, rfl⟩

end Ink

namespace Recording

variable {describe other : String → SourceEntry} {recording : Recording} {module : String} {ink : List Ink}

theorem lookup_draw (position : Position) (name : Option String) :
    (recording.draw describe (.mark ⟨module, position⟩ name)).modules.lookup module =
      some (recording.indexOf describe module).2 := by
  simp only [draw, step]
  unfold indexOf
  split
  next known => exact known
  next => simp

theorem draw_known {index : Nat} (known : recording.modules.lookup module = some index) (position : Position)
    (name : Option String) : recording.draw describe (.mark ⟨module, position⟩ name) =
      { recording with builder := recording.builder.addMapping index position name } := by
  simp only [draw, step, indexOf, known]

theorem draw_mark_mark (first second : Position) (name again : Option String) :
    (recording.draw describe (.mark ⟨module, first⟩ name)).draw describe (.mark ⟨module, second⟩ again) =
      recording.draw describe (.mark ⟨module, second⟩ again) := by
  rw [draw_known (lookup_draw first name)]
  simp only [draw, step, SourceMap.Builder.addMapping_addMapping]

theorem foldl_draw_congr (agree : describe module = other module) (marks : Ink.From module ink)
    (recording : Recording) : ink.foldl (draw describe) recording = ink.foldl (draw other) recording := by
  induction ink generalizing recording with
  | nil => rfl
  | cons first rest ih =>
      have same : recording.draw describe first = recording.draw other first := by
        cases first with
        | char character => rfl
        | mark origin name =>
            have here := marks origin name List.mem_cons_self
            simp only [draw, step, indexOf, here, agree]
      rw [List.foldl_cons, List.foldl_cons, same, ih marks.rest]

theorem foldl_draw_begins (begins : Ink.Begins module ink) (position : Position) (name : Option String)
    (recording : Recording) :
    ink.foldl (draw describe) (recording.draw describe (.mark ⟨module, position⟩ name)) =
      ink.foldl (draw describe) recording := by
  obtain ⟨later, again, rest, rfl⟩ := begins
  rw [List.foldl_cons, List.foldl_cons, draw_mark_mark]

theorem draw_lists (describe : String → SourceEntry) {index : Nat}
    (known : recording.modules.lookup module = some index) {first : Ink} (marks : Ink.From module (first :: ink)) :
    (recording.draw describe first).modules.lookup module = some index ∧
      (recording.draw describe first).builder.unmapped = recording.builder.unmapped := by
  cases first with
  | char character => exact ⟨known, recording.builder.unmapped_step character⟩
  | mark origin name =>
      obtain ⟨other, position⟩ := origin
      obtain rfl : other = module := marks ⟨other, position⟩ name List.mem_cons_self
      rw [draw_known known]
      exact ⟨known, recording.builder.unmapped_addMapping ..⟩

theorem unmapped_foldl_draw {index : Nat} (known : recording.modules.lookup module = some index)
    (marks : Ink.From module ink) :
    (ink.foldl (draw describe) recording).builder.unmapped = recording.builder.unmapped := by
  induction ink generalizing recording with
  | nil => rfl
  | cons first rest ih =>
      obtain ⟨still, same⟩ := draw_lists describe known marks
      rw [List.foldl_cons, ih still marks.rest, same]

theorem unmapped_begins (begins : Ink.Begins module ink) (marks : Ink.From module ink) :
    (ink.foldl (draw describe) recording).builder.unmapped =
      (recording.indexOf describe module).1.builder.unmapped := by
  obtain ⟨position, name, rest, rfl⟩ := begins
  rw [List.foldl_cons, unmapped_foldl_draw (lookup_draw position name) marks.rest]
  exact (recording.indexOf describe module).1.builder.unmapped_addMapping ..

end Recording

theorem Inked.marks {module : String} {items : List (Item Spelling)} {ink : List Ink}
    (inked : Inked module items ink) : Ink.From module ink := by
  induction inked with
  | nil => intro origin name member; cases member
  | mark position _ ih => exact .cons position none ih
  | @spacing _ _ character _ _ ih => exact (Ink.From.ofChars module [character]).append ih
  | fixed kind _ ih => exact (Ink.From.ofChars module _).append ih
  | literal kind position _ ih => exact .cons position none ((Ink.From.ofChars module _).append ih)
  | occurrence occurrence _ ih => exact .cons _ _ ((Ink.From.ofChars module _).append ih)

namespace Fragment

@[simp] theorem origin_append (fragment : Fragment) (piece : Piece) :
    (fragment.append piece).origin = fragment.origin := rfl

@[simp] theorem origin_join (fragment : Fragment) (piece : Piece) : (fragment.join piece).origin = fragment.origin := by
  unfold join
  split <;> rfl

@[simp] theorem origin_node (module : String) (position : Position) :
    (node module position).origin = some ⟨module, position⟩ := rfl

theorem empty_join (piece : Piece) : empty.join piece = ⟨none, none, piece⟩ := rfl

theorem begins_of_origin {fragment : Fragment} {module : String} {position : Position}
    (made : fragment.origin = some ⟨module, position⟩) : Ink.Begins module fragment.ink := by
  obtain ⟨origin, name, body⟩ := fragment
  obtain rfl : origin = some ⟨module, position⟩ := made
  exact ⟨position, name, body.ink, rfl⟩

end Fragment

section Statements

variable (module : String)

theorem Else.origin_printOnto : ∀ (rest : Else Spelling) (conditional : Fragment),
    (rest.printOnto module conditional).origin = conditional.origin
  | .none, _ => rfl
  | .otherwise _ _, conditional => conditional.origin_join _
  | .elseif _ _ _ rest, conditional => (rest.origin_printOnto _).trans (conditional.origin_join _)

theorem Stat.origin_print (statement : Stat Spelling) :
    ∃ position, (statement.print module).origin = some ⟨module, position⟩ := by
  cases statement with
  | localVars position names values => cases values <;> exact ⟨position, by simp [Stat.print]⟩
  | numericFor position counter first limit step body => cases step <;> exact ⟨position, by simp [Stat.print]⟩
  | cond position condition body rest => exact ⟨position, by simp [Stat.print, Else.origin_printOnto]⟩
  | _ position => exact ⟨position, by simp [Stat.print]⟩

theorem Fragment.begins_join {fragment : Fragment} (begins : Ink.Begins module fragment.ink) (piece : Piece) :
    Ink.Begins module (fragment.join piece).ink := by
  obtain same | same := fragment.ink_join piece <;> rw [same] <;> exact begins.append _

theorem begins_addStatement {block : Fragment} (begins : Ink.Begins module block.ink) (statement : Fragment) :
    Ink.Begins module (addStatement block statement).ink := by
  unfold addStatement
  refine Fragment.begins_join module ?_ _
  split
  · rw [Fragment.ink_append]
    exact begins.append _
  · exact begins

theorem addStatement_empty (statement : Fragment) : addStatement .empty statement = ⟨none, none, statement⟩ := by
  have alone : (Fragment.empty).isEmpty = true := rfl
  simp [addStatement, alone, Fragment.empty_join]

theorem Block.begins_printOnto : ∀ (body : Block Spelling) {block : Fragment}, Ink.Begins module block.ink →
    Ink.Begins module (body.printOnto module block).ink
  | .nil, _, begins => begins
  | .ret _ [], _, begins => begins_addStatement module begins _
  | .ret _ (_ :: _), _, begins => begins_addStatement module begins _
  | .cons _ tail, _, begins => tail.begins_printOnto (begins_addStatement module begins _)

theorem Block.begins_print {body : Block Spelling} (some : body ≠ .nil) :
    Ink.Begins module (body.printOnto module .empty).ink := by
  have alone : ∀ {statement : Fragment} (position : Position), statement.origin = .some ⟨module, position⟩ →
      Ink.Begins module (addStatement .empty statement).ink := by
    intro statement position made
    have begins : Ink.Begins module statement.ink := Fragment.begins_of_origin made
    rwa [addStatement_empty]
  cases body with
  | nil => exact absurd rfl some
  | ret position values => cases values <;> exact alone position (by simp)
  | cons head tail =>
      obtain ⟨position, made⟩ := head.origin_print module
      exact tail.begins_printOnto module (alone position made)

end Statements

section Comments

variable (module : String)

theorem begins_lines (kept : List Comment) {ink : List Ink} (begins : Ink.Begins module ink) :
    Ink.Begins module (kept.flatMap (fun comment => (comment.line module).ink) ++ ink) := by
  cases kept with
  | nil => exact begins
  | cons comment rest =>
      rw [List.flatMap_cons, ink_line]
      exact ⟨comment.position, none, _, rfl⟩

theorem marks_lines (kept : List Comment) :
    Ink.From module (kept.flatMap fun comment => (comment.line module).ink) := by
  induction kept with
  | nil => intro origin name member; cases member
  | cons comment rest ih =>
      rw [List.flatMap_cons, ink_line]
      exact (Ink.From.cons _ _ (.ofChars module _)).append ih

end Comments

namespace Fragment

theorem finalize_eq (fragment : Fragment) (file : Option String) (describe : String → SourceEntry) :
    fragment.finalize file describe = ⟨String.ofList (Ink.chars fragment.ink),
      (fragment.ink.foldl (Recording.draw describe)
        ⟨{ SourceMap.Builder.empty with file := file }, []⟩).builder.build⟩ := by
  have chars : Ink.chars fragment.ink = fragment.chars := fragment.toPiece.chars_ink
  rw [chars, ← toText_eq, ← foldl_events]
  rfl

variable {module : String} {code : Fragment} {position : Position}

/-- Comments in front of a node instead of inside it make the same text with the same sources. The map is the same where
a mark follows that of the node at once. -/
theorem withPragmas_outside (kept : List Comment) (file : Option String) {describe other : String → SourceEntry}
    (agree : describe module = other module) (made : code.origin = some ⟨module, position⟩)
    (marks : Ink.From module code.body.ink) :
    let outside := ((empty.join code).withPragmas module kept).finalize file describe
    let inside := (code.withPragmas module kept).finalize file other
    outside.code = inside.code ∧ outside.map.file = inside.map.file ∧ outside.map.sources = inside.map.sources ∧
      outside.map.sourcesContent = inside.map.sourcesContent ∧
      (Ink.Begins module code.body.ink → outside.map = inside.map) := by
  obtain ⟨origin, name, body⟩ := code
  obtain rfl : origin = some ⟨module, position⟩ := made
  let lines := kept.flatMap fun comment => (comment.line module).ink
  have outside : ((empty.join (⟨some ⟨module, position⟩, name, body⟩ : Fragment)).withPragmas module kept).ink =
      lines ++ .mark ⟨module, position⟩ name :: body.ink := ink_withPragmas ..
  have inside : (withPragmas module kept ⟨some ⟨module, position⟩, name, body⟩).ink =
      .mark ⟨module, position⟩ name :: (lines ++ body.ink) := ink_withPragmas ..
  have marksOutside : Ink.From module (lines ++ .mark ⟨module, position⟩ name :: body.ink) :=
    (marks_lines module kept).append (.cons position name marks)
  have marksInside : Ink.From module (.mark ⟨module, position⟩ name :: (lines ++ body.ink)) :=
    .cons position name ((marks_lines module kept).append marks)
  simp only [finalize_eq, outside, inside, Recording.foldl_draw_congr agree marksOutside]
  let start : Recording := ⟨{ SourceMap.Builder.empty with file := file }, []⟩
  have listed : (List.foldl (Recording.draw other) start
        (lines ++ .mark ⟨module, position⟩ name :: body.ink)).builder.unmapped =
      (List.foldl (Recording.draw other) start
        (.mark ⟨module, position⟩ name :: (lines ++ body.ink))).builder.unmapped := by
    rw [Recording.unmapped_begins (begins_lines module kept ⟨position, name, _, rfl⟩) marksOutside,
      Recording.unmapped_begins ⟨position, name, _, rfl⟩ marksInside]
  refine ⟨by simp, congrArg (·.build.file) listed, congrArg (·.build.sources) listed,
    congrArg (·.build.sourcesContent) listed, fun begins => ?_⟩
  -- Without the mark of the node both are the comments and then the code.
  rw [List.foldl_append, List.foldl_cons, Recording.foldl_draw_begins begins, List.foldl_cons,
    Recording.foldl_draw_begins (begins_lines module kept begins), List.foldl_append]

end Fragment

theorem Block.spell_eq_nil {body : Block Identifier} {session : Session} (nothing : (body.spell session).1 = .nil) :
    body = .nil := by
  have seen := Session.spell_view .exact id body session
  rw [nothing] at seen
  cases body with
  | nil => rfl
  | ret position values => cases seen
  | cons head tail => cases seen

namespace Chunk

variable {source : String} {chunk : Chunk}

theorem marks_minified (module : String) (read : Chunk.parse source = .ok chunk) :
    Ink.From module (chunk.minified module).body.ink := by
  have names : (Session.withReserved chunk.globals).Names := Session.history_names [.reserve chunk.globals]
  exact (Block.inked_onto module _ (Block.formed_spelled names (formed_of_parse read)) .empty).marks

theorem begins_minified (module : String) (some : chunk.body ≠ .nil) :
    Ink.Begins module (chunk.minified module).body.ink :=
  Block.begins_print module fun nothing => some (Block.spell_eq_nil nothing)

end Chunk

namespace Bundler

variable {options : Options}

theorem run_unread (library : Library) (entry : String) (loaded : LoadedModule) (file : Option String)
    {error : SyntaxError} (read : Chunk.parse loaded.source = .error error) :
    ((run library options entry (some loaded) file).run.run .empty).1 = .error (.parse entry error) := by
  obtain ⟨outcome, new, loads, ran⟩ := exists_loads_run library options entry (some loaded) file .empty
  have opened : reader library entry (some loaded) entry = .error (.parse entry error) := by
    rw [reader_entry, parseModule, read]
    rfl
  obtain ⟨rfl, rfl⟩ := loads.unique (.unread List.not_mem_nil List.not_mem_nil opened)
  rw [ran]
  rfl

theorem run_read (library : Library) (entry : String) (loaded : LoadedModule) (file : Option String) {chunk : Chunk}
    (mode : options.moduleMode = false) (read : Chunk.parse loaded.source = .ok chunk) :
    ∃ describe : String → SourceEntry,
      describe entry = ⟨loaded.path.text, if options.sourcesContent then some loaded.source else none⟩ ∧
      ((run library options entry (some loaded) file).run.run .empty).1 =
        .ok (((Fragment.empty.join (chunk.minified entry)).withPragmas entry
          (pragmas options.pragmaMarker chunk.comments)).finalize file describe) := by
  obtain ⟨outcome, new, loads, ran⟩ := exists_loads_run library options entry (some loaded) file .empty
  have opened : reader library entry (some loaded) entry = .ok (loaded, chunk) := by
    rw [reader_entry, parseModule, read]
    rfl
  rw [mode, requested, mode] at loads
  obtain ⟨rfl, rfl⟩ := loads.unique (.found List.not_mem_nil List.not_mem_nil opened .done .done)
  let bundler := (({ Bundler.empty with entry := some entry } : Bundler).extend
    [⟨entry, .generating (parsed (loaded, chunk))⟩]).printModules
  have found : bundler.graph.find? entry =
      some ⟨entry, .done ⟨loaded.path, loaded.source, chunk⟩ (chunk.minified entry)⟩ :=
    List.find?_cons_of_pos (by simp)
  refine ⟨describe options bundler.graph, ?_, ?_⟩
  · simp only [describe, found]
    rfl
  · have code : (assemble options entry bundler).1 = (Fragment.empty.join (chunk.minified entry)).withPragmas entry
        (pragmas options.pragmaMarker chunk.comments) := by
      rw [assemble_eq, preamble, mode, withBody, keptComments, found]
      rfl
    rw [ran, ← code, ← graph_assemble options entry bundler]
    rfl

/-- Without module mode a run on a text gives what minifying the text on its own gives. -/
theorem run_minifies (library : Library) (options : Options) (name source : String) (file : Option String)
    (plain : options.moduleMode = false) :
    let bundled := ((run library options name (some ⟨⟨name⟩, source⟩) file).run.run .empty).1
    let minified := minify name source options file
    (∀ error, Chunk.parse source = .error error →
      bundled = .error (.parse name error) ∧ minified = .error (.parse name error)) ∧
    (∀ chunk, Chunk.parse source = .ok chunk → ∃ bundle single, bundled = .ok bundle ∧ minified = .ok single ∧
      bundle.code = single.code ∧ bundle.map.file = single.map.file ∧ bundle.map.sources = single.map.sources ∧
      bundle.map.sourcesContent = single.map.sourcesContent ∧ (chunk.body ≠ .nil → bundle.map = single.map)) := by
  intro bundled minified
  constructor
  · intro error read
    refine ⟨run_unread library name ⟨⟨name⟩, source⟩ file read, ?_⟩
    simp only [minified, minify, parseModule, read]
    rfl
  · intro chunk read
    obtain ⟨describe, agree, ran⟩ := run_read library name ⟨⟨name⟩, source⟩ file plain read
    let alone : String → SourceEntry := fun module => ⟨module, if options.sourcesContent then some source else none⟩
    have same : describe name = alone name := agree
    have made : (chunk.minified name).origin = some ⟨name, .start⟩ := rfl
    obtain ⟨code, toFile, sources, contents, map⟩ := Fragment.withPragmas_outside
      (pragmas options.pragmaMarker chunk.comments) file same made (chunk.marks_minified name read)
    exact ⟨_, _, ran, minify_eq_ok.mpr ⟨chunk, read, rfl⟩, code, toFile, sources, contents,
      fun some => map (chunk.begins_minified name some)⟩

/-- A comment that is kept, and a local that gets a new name. -/
theorem run_minifies_kept :
    let source := "--#keep\nlocal word=1 return word"
    let options : Options := { sourcesContent := true }
    ∃ chunk bundle single, Chunk.parse source = .ok chunk ∧ chunk.body.localNames = ["word", "word"] ∧
      (pragmas options.pragmaMarker chunk.comments).map (·.raw) = ["--#keep"] ∧
      ((run (.ofModules []) options "main" (some ⟨⟨"main"⟩, source⟩) (some "out")).run.run .empty).1 = .ok bundle ∧
      minify "main" source options (some "out") = .ok single ∧ bundle.code = single.code ∧ bundle.map = single.map := by
  intro source options
  have check : (Chunk.parse source).toOption.any (fun chunk =>
      decide (chunk.body.localNames = ["word", "word"] ∧
        (pragmas options.pragmaMarker chunk.comments).map (·.raw) = ["--#keep"])) = true := by
    decide +kernel
  obtain ⟨chunk, read, found⟩ := Chunk.exists_of_parse check
  obtain ⟨names, kept⟩ := of_decide_eq_true found
  obtain ⟨bundle, single, bundled, minified, code, -, -, -, map⟩ :=
    (run_minifies (.ofModules []) options "main" source (some "out") rfl).2 chunk read
  refine ⟨chunk, bundle, single, read, names, kept, bundled, minified, code, map fun nothing => ?_⟩
  rw [nothing] at names
  cases names

-- Where no statement follows, the mark of the whole text stays behind the comment.
example :
    (((run (.ofModules []) {} "main" (some ⟨⟨"main"⟩, "--#keep"⟩) none).run.run .empty).1.map (·.map.mappings)).toOption
      = some "AAAA;AAAA" ∧ ((minify "main" "--#keep" {} none).map (·.map.mappings)).toOption = some "AAAA" := by
  decide +kernel

end Bundler

end LuaMinifier
