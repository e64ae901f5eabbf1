import LuaMinifier.Proofs.FragmentText
import LuaMinifier.Proofs.Loading

/-!
What printing makes of the modules of a bundler, and what the output of a run is put together from.
-/

namespace LuaMinifier
namespace Bundler

open ModuleGraph

/-- Printing some modules one behind the other, each with the session that the last one left. -/
inductive Prints : Session → List Module → List Module → Session → Prop
  | nil {session : Session} : Prints session [] [] session
  | kept {session last : Session} {module : Module} {rest printed : List Module} :
      (∀ parsed, module.stage ≠ .generating parsed) → Prints session rest printed last →
        Prints session (module :: rest) (module :: printed) last
  | printed {session last : Session} {name : String} {parsed : ParsedModule} {rest printed : List Module} :
      Prints ((parsed.chunk.print name).run session).2 rest printed last →
        Prints session (⟨name, .generating parsed⟩ :: rest)
          (⟨name, .done parsed ((parsed.chunk.print name).run session).1⟩ :: printed) last

theorem prints_printAll (modules : List Module) (session : Session) :
    Prints session modules ((printAll modules).run session).1 ((printAll modules).run session).2 := by
  induction modules generalizing session with
  | nil => exact .nil
  | cons module rest ih =>
      obtain ⟨name, stage⟩ := module
      cases stage with
      | generating parsed => exact .printed (ih _)
      | pending | done | failed => exact .kept (by simp) (ih _)

namespace Prints

variable {session last : Session} {modules printed : List Module}

theorem namesOf_eq (prints : Prints session modules printed last) : namesOf printed = namesOf modules := by
  induction prints with
  | nil => rfl
  | kept _ _ ih => simp [ih]
  | printed _ ih => simp [ih]

theorem mem (prints : Prints session modules printed last) {module : Module} (member : module ∈ printed) :
    (module ∈ modules ∧ ∀ parsed, module.stage ≠ .generating parsed) ∨
      ∃ parsed session, ⟨module.name, .generating parsed⟩ ∈ modules ∧
        module.stage = .done parsed ((parsed.chunk.print module.name).run session).1 := by
  induction prints with
  | nil => cases member
  | kept other _ ih =>
      obtain rfl | inside := List.mem_cons.mp member
      · exact .inl ⟨List.mem_cons_self, other⟩
      · obtain ⟨old, same⟩ | ⟨parsed, session, old, same⟩ := ih inside
        · exact .inl ⟨List.mem_cons_of_mem _ old, same⟩
        · exact .inr ⟨parsed, session, List.mem_cons_of_mem _ old, same⟩
  | @printed session _ name parsed _ _ _ ih =>
      obtain rfl | inside := List.mem_cons.mp member
      · exact .inr ⟨parsed, session, List.mem_cons_self, rfl⟩
      · obtain ⟨old, same⟩ | ⟨parsed, session, old, same⟩ := ih inside
        · exact .inl ⟨List.mem_cons_of_mem _ old, same⟩
        · exact .inr ⟨parsed, session, List.mem_cons_of_mem _ old, same⟩

theorem mem_kept (prints : Prints session modules printed last) {module : Module} (member : module ∈ modules)
    (other : ∀ parsed, module.stage ≠ .generating parsed) : module ∈ printed := by
  induction prints with
  | nil => cases member
  | kept _ _ ih =>
      obtain rfl | inside := List.mem_cons.mp member
      · exact List.mem_cons_self
      · exact List.mem_cons_of_mem _ (ih inside)
  | printed _ ih =>
      obtain rfl | inside := List.mem_cons.mp member
      · exact absurd rfl (other _)
      · exact List.mem_cons_of_mem _ (ih inside)

end Prints

variable {options : Options} {entry : String} {bundler : Bundler}

theorem prints_printModules (bundler : Bundler) : Prints bundler.session bundler.graph.modules
    bundler.printModules.graph.modules bundler.printModules.session :=
  prints_printAll bundler.graph.modules bundler.session

@[simp] theorem names_printModules (bundler : Bundler) : bundler.printModules.graph.names = bundler.graph.names :=
  (prints_printModules bundler).namesOf_eq

@[simp] theorem graph_assemble (options : Options) (entry : String) (bundler : Bundler) :
    (assemble options entry bundler).2.graph = bundler.graph := by
  unfold assemble
  rfl

theorem complete_ok (options : Options) (entry : String) (file : Option String) (bundler : Bundler) :
    complete options entry file (.ok ()) bundler =
      (.ok ((assemble options entry bundler.printModules).1.finalize file
        (describe options (assemble options entry bundler.printModules).2.graph)),
        (assemble options entry bundler.printModules).2) := rfl

theorem exists_complete_iff {file : Option String} {outcome : Except Failure Unit} :
    (∃ output, (complete options entry file outcome bundler).1 = .ok output) ↔ outcome = .ok () := by
  cases outcome with
  | error failure => simp [complete]
  | ok => simp [complete]

@[simp] theorem graph_complete (options : Options) (entry : String) (file : Option String) (bundler : Bundler) :
    (complete options entry file (.ok ()) bundler).2.graph = bundler.printModules.graph :=
  graph_assemble options entry bundler.printModules

theorem exists_front (kept : List Comment) (module : String) (code : Fragment) :
    ∃ front, (code.withPragmas module kept).chars = front ++ code.chars := by
  induction kept with
  | nil => exact ⟨[], rfl⟩
  | cons comment rest ih =>
      obtain ⟨front, same⟩ := ih
      refine ⟨(comment.line module).chars ++ front, ?_⟩
      rw [List.append_assoc, ← same]
      exact Fragment.chars_prepend ..

theorem exists_gap (first second : List Char) : ∃ gap, joinChars first second = first ++ gap ++ second := by
  unfold joinChars
  split
  · exact ⟨[' '], by simp⟩
  · exact ⟨[], by simp⟩

def loaderText (options : Options) (entry : String) (graph : ModuleGraph) (names : Loader.Variables) : String :=
  if options.moduleMode then (Loader.ofModules names (graph.bodiesExcept entry)).toText else ""

def bodyText (entry : String) (graph : ModuleGraph) : String :=
  (((graph.find? entry).bind (·.stage.body?)).map Fragment.toText).getD ""

def preamble (options : Options) (entry : String) (bundler : Bundler) : Fragment :=
  if options.moduleMode then
    Fragment.empty.append ((loader (bundler.graph.bodiesExcept entry)).run bundler.session).1.toPiece
  else .empty

theorem toText_preamble (options : Options) (entry : String) (bundler : Bundler) :
    String.ofList (preamble options entry bundler).chars =
      loaderText options entry bundler.graph (Session.loaderVariables bundler.session).1 := by
  unfold preamble loaderText
  split
  · rw [Fragment.toText_eq, Fragment.chars_append]
    rfl
  · rfl

def keptComments (options : Options) (entry : String) (graph : ModuleGraph) : List Comment :=
  (((graph.find? entry).bind (·.stage.parsed?)).map (pragmas options.pragmaMarker ·.chunk.comments)).getD []

def withBody (entry : String) (graph : ModuleGraph) (front : Fragment) : Fragment :=
  match (graph.find? entry).bind (·.stage.body?) with
  | some body => front.join body.toPiece
  | none => front

theorem assemble_eq (options : Options) (entry : String) (bundler : Bundler) :
    (assemble options entry bundler).1 =
      (withBody entry bundler.graph (preamble options entry bundler)).withPragmas entry
        (keptComments options entry bundler.graph) := by
  unfold assemble withBody preamble keptComments
  cases bundler.graph.find? entry <;> cases options.moduleMode <;> rfl

theorem exists_text_assemble (options : Options) (entry : String) (bundler : Bundler) :
    ∃ front gap, (assemble options entry bundler).1.toText =
      front ++ loaderText options entry bundler.graph (Session.loaderVariables bundler.session).1 ++ gap ++
        bodyText entry bundler.graph := by
  obtain ⟨front, comments⟩ := exists_front (keptComments options entry bundler.graph) entry
    (withBody entry bundler.graph (preamble options entry bundler))
  rw [assemble_eq, Fragment.toText_eq, ← toText_preamble, bodyText, comments, withBody]
  cases (bundler.graph.find? entry).bind (·.stage.body?) with
  | none => exact ⟨String.ofList front, "", by simp⟩
  | some body =>
      obtain ⟨gap, joined⟩ := exists_gap (preamble options entry bundler).chars body.chars
      refine ⟨String.ofList front, String.ofList gap, ?_⟩
      simp [Fragment.chars_join, joined, Fragment.toText_eq, String.append_assoc]

theorem exists_text_complete {file : Option String} {output : Output} {after : Bundler}
    (done : complete options entry file (.ok ()) bundler = (.ok output, after)) :
    ∃ front gap, output.code =
      front ++ loaderText options entry after.graph (Session.loaderVariables bundler.printModules.session).1 ++ gap ++
        bodyText entry after.graph := by
  obtain ⟨finished, rfl⟩ := Prod.mk.inj ((complete_ok ..).symm.trans done)
  obtain rfl := Except.ok.inj finished
  rw [graph_assemble]
  exact exists_text_assemble options entry bundler.printModules

end Bundler
end LuaMinifier
