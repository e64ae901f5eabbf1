import LuaMinifier.Proofs.Printing

/-!
Which modules a run finds. Requires lead from module to module; a run succeeds if and only if all that it can reach in
this way can be read and no module leads back to itself, and then it holds exactly what it can reach, in depth-first
order.
-/

namespace LuaMinifier
namespace Bundler

open ModuleGraph

variable {reads : Reader} {chain known requests roots : List String} {outcome : Except Failure Unit}
  {new : List Module} {name : String}

def Requires (reads : Reader) (name required : String) : Prop :=
  ∃ found, reads name = .ok found ∧ required ∈ found.2.requires

/-- The modules that requires lead to. -/
inductive Reachable (reads : Reader) (roots : List String) : String → Prop
  | root {name : String} : name ∈ roots → Reachable reads roots name
  | step {name required : String} : Reachable reads roots name → Requires reads name required →
      Reachable reads roots required

/-- The modules that a depth-first search finds, each before those that it requires. -/
inductive Preorder (reads : Reader) : List String → List String → List String → Prop
  | nil {seen : List String} : Preorder reads seen [] []
  | skip {seen rest order : List String} {name : String} : name ∈ seen → Preorder reads seen rest order →
      Preorder reads seen (name :: rest) order
  | visit {seen rest below further : List String} {name : String} {found : LoadedModule × Chunk} :
      name ∉ seen → reads name = .ok found → Preorder reads (seen ++ [name]) found.2.requires below →
        Preorder reads (seen ++ name :: below) rest further →
          Preorder reads seen (name :: rest) (name :: below ++ further)

/-- A module all of whose requires can be read, and theirs, and so on. -/
inductive Resolves (reads : Reader) : String → Prop
  | of_found {name : String} {found : LoadedModule × Chunk} : reads name = .ok found →
      (∀ required ∈ found.2.requires, Resolves reads required) → Resolves reads name

namespace Resolves

theorem readable (resolves : Resolves reads name) : ∃ found, reads name = .ok found := by
  cases resolves with
  | of_found found _ => exact ⟨_, found⟩

theorem required {other : String} (resolves : Resolves reads name) (requires : Requires reads name other) :
    Resolves reads other := by
  cases resolves with
  | of_found found inner =>
      obtain ⟨again, same, member⟩ := requires
      cases found.symm.trans same
      exact inner other member

theorem reachable (resolves : ∀ root ∈ roots, Resolves reads root) (reached : Reachable reads roots name) :
    Resolves reads name := by
  induction reached with
  | root member => exact resolves _ member
  | step _ requires ih => exact ih.required requires

/-- A module that resolves does not lead back to itself: the first module it requires on such a way would too. -/
theorem acyclic (resolves : Resolves reads name) : ¬Relation.TransGen (Requires reads) name name := by
  induction resolves with
  | @of_found name found opened _ ih =>
      have first : ∀ {last : String}, Relation.TransGen (Requires reads) name last →
          ∃ next ∈ found.2.requires, next = last ∨ Relation.TransGen (Requires reads) next last := by
        intro last way
        induction way with
        | single requires =>
            obtain ⟨again, same, member⟩ := requires
            cases opened.symm.trans same
            exact ⟨_, member, .inl rfl⟩
        | tail _ requires front =>
            obtain ⟨next, member, way⟩ := front
            obtain rfl | way := way
            · exact ⟨next, member, .inr (.single requires)⟩
            · exact ⟨next, member, .inr (.tail way requires)⟩
      intro back
      obtain ⟨next, member, way⟩ := first back
      have step : Requires reads name next := ⟨found, opened, member⟩
      obtain rfl | way := way
      · exact ih next member (.single step)
      · exact ih next member (.tail way step)

end Resolves

namespace Loads

/-- Where loading succeeds, all that is asked for and all that is found resolves, if all that is known and not being
followed does. -/
theorem resolves (loads : Loads reads true chain known requests outcome new) (fine : outcome = .ok ())
    (resolved : ∀ name ∈ known, name ∈ chain ∨ Resolves reads name) :
    (∀ name ∈ requests, Resolves reads name) ∧ ∀ name ∈ namesOf new, Resolves reads name := by
  induction loads with
  | done => simp
  | cycle | unread | broken => cases fine
  | known fresh old _ ih =>
      -- What is known and not being followed resolves; what is being followed would be a cycle.
      obtain ⟨others, found⟩ := ih fine resolved
      exact ⟨List.forall_mem_cons.mpr ⟨(resolved _ old).resolve_left fresh, others⟩, found⟩
  | @found chain known rest name found outcome below further fresh unknown opened _ _ ih others =>
      have inner : ∀ other ∈ known ++ [name], other ∈ chain ++ [name] ∨ Resolves reads other := by
        intro other member
        obtain old | rfl := by simpa using member
        · exact (resolved other old).imp_left fun followed => by simp [followed]
        · exact .inl (by simp)
      obtain ⟨required, foundBelow⟩ := ih rfl inner
      have here : Resolves reads name := .of_found opened required
      have outer : ∀ other ∈ known ++ name :: namesOf below, other ∈ chain ∨ Resolves reads other := by
        intro other member
        obtain old | rfl | under := by simpa using member
        · exact resolved other old
        · exact .inr here
        · exact .inr (foundBelow other under)
      obtain ⟨asked, foundFurther⟩ := others fine outer
      refine ⟨List.forall_mem_cons.mpr ⟨here, asked⟩, ?_⟩
      intro other member
      obtain rfl | under | later := by simpa using member
      · exact here
      · exact foundBelow other under
      · exact foundFurther other later

/-- Where loading fails, requires lead to a module that cannot be read or that leads back to itself. -/
theorem fails {failure : Failure} (loads : Loads reads true chain known requests outcome new)
    (failed : outcome = .error failure) (reached : ∀ name ∈ requests, Reachable reads roots name)
    (way : ∀ first ∈ chain, ∀ name ∈ requests, Relation.TransGen (Requires reads) first name) :
    ∃ name, Reachable reads roots name ∧
      ((∃ failure, reads name = .error failure) ∨ Relation.TransGen (Requires reads) name name) := by
  induction loads with
  | done => cases failed
  | @cycle _ _ _ name repeated =>
      -- Every module of the chain leads to what is asked for, so this one leads to itself.
      exact ⟨name, reached name List.mem_cons_self, .inr (way name repeated name List.mem_cons_self)⟩
  | known _ _ _ ih =>
      exact ih failed (fun name member => reached name (List.mem_cons_of_mem _ member))
        fun first followed name member => way first followed name (List.mem_cons_of_mem _ member)
  | unread _ _ opened => exact ⟨_, reached _ List.mem_cons_self, .inl ⟨_, opened⟩⟩
  | @broken chain _ _ name found _ _ _ _ opened _ ih =>
      have requires : ∀ required ∈ found.2.requires, Requires reads name required :=
        fun required member => ⟨found, opened, member⟩
      refine ih failed (fun required member => .step (reached name List.mem_cons_self) (requires required member)) ?_
      intro first followed required member
      obtain before | rfl := by simpa using followed
      · exact .tail (way first before name List.mem_cons_self) (requires required member)
      · exact .single (requires required member)
  | found _ _ _ _ _ _ others =>
      exact others failed (fun name member => reached name (List.mem_cons_of_mem _ member))
        fun first followed name member => way first followed name (List.mem_cons_of_mem _ member)

theorem preorder (loads : Loads reads true chain known requests outcome new) (fine : outcome = .ok ()) :
    Preorder reads known requests (namesOf new) := by
  induction loads with
  | done => exact .nil
  | cycle | unread | broken => cases fine
  | known _ old _ ih => exact .skip old (ih fine)
  | found _ unknown opened _ _ ih others =>
      simpa using Preorder.visit unknown opened (ih rfl) (others fine)

theorem generating {follow : Bool} (loads : Loads reads follow chain known requests outcome new)
    (fine : outcome = .ok ()) :
    ∀ module ∈ new, ∃ found, reads module.name = .ok found ∧ module.stage = .generating (parsed found) := by
  induction loads with
  | done => simp
  | cycle | unread | broken => cases fine
  | known _ _ _ ih => exact ih fine
  | found _ _ opened _ _ ih others =>
      intro module member
      obtain rfl | under | later := by simpa using member
      · exact ⟨_, opened, rfl⟩
      · exact ih rfl module under
      · exact others fine module later

end Loads

namespace Preorder

variable {seen order : List String}

theorem reachable (found : Preorder reads seen requests order)
    (reached : ∀ name ∈ requests, Reachable reads roots name) :
    ∀ name ∈ order, Reachable reads roots name := by
  induction found with
  | nil => simp
  | skip _ _ ih => exact ih fun name member => reached name (List.mem_cons_of_mem _ member)
  | @visit _ _ _ _ name found _ opened _ _ ih others =>
      have here := reached name List.mem_cons_self
      have below := ih fun required member => .step here ⟨found, opened, member⟩
      have further := others fun name member => reached name (List.mem_cons_of_mem _ member)
      intro other member
      obtain rfl | under | later := by simpa using member
      · exact here
      · exact below other under
      · exact further other later

theorem closed (found : Preorder reads seen requests order) :
    (∀ name ∈ requests, name ∈ seen ++ order) ∧
      ∀ name ∈ order, ∀ required, Requires reads name required → required ∈ seen ++ order := by
  induction found with
  | nil => simp
  | skip old _ ih => exact ⟨List.forall_mem_cons.mpr ⟨by simp [old], ih.1⟩, ih.2⟩
  | @visit seen rest below further name found _ opened _ _ ih others =>
      refine ⟨List.forall_mem_cons.mpr ⟨by simp, fun other member => by simpa using others.1 other member⟩, ?_⟩
      intro other member required requires
      obtain rfl | under | later := by simpa using member
      · obtain ⟨again, same, named⟩ := requires
        cases opened.symm.trans same
        have inner := ih.1 required named
        simp only [List.mem_append, List.cons_append, List.mem_cons] at inner ⊢
        grind
      · have inner := ih.2 other under required requires
        simp only [List.mem_append, List.cons_append, List.mem_cons] at inner ⊢
        grind
      · simpa using others.2 other later required requires

theorem mem_iff (found : Preorder reads [] roots order) {name : String} :
    name ∈ order ↔ Reachable reads roots name := by
  refine ⟨found.reachable (fun _ => .root) name, fun reached => ?_⟩
  induction reached with
  | root member => simpa using found.closed.1 _ member
  | step _ requires ih => simpa using found.closed.2 _ ih _ requires

end Preorder

theorem Loads.ok_iff (loads : Loads reads true [] [] roots outcome new) :
    outcome = .ok () ↔ ∀ name, Reachable reads roots name →
      (∃ found, reads name = .ok found) ∧ ¬Relation.TransGen (Requires reads) name name := by
  constructor
  · intro fine name reached
    have resolves := Resolves.reachable (loads.resolves fine (by simp)).1 reached
    exact ⟨resolves.readable, resolves.acyclic⟩
  · intro resolved
    cases outcome with
    | ok => rfl
    | error failure =>
        obtain ⟨name, reached, unreadable | cyclic⟩ := loads.fails rfl (fun _ => .root) (by simp)
        · obtain ⟨found, opened⟩ := (resolved name reached).1
          obtain ⟨failure, failed⟩ := unreadable
          cases opened.symm.trans failed
        · exact absurd cyclic (resolved name reached).2

/-- In module mode a run of a new bundler succeeds if and only if every module that can be reached can be read and
none leads back to itself. It then holds the modules that can be reached, each once and printed, in depth-first order.
No greater depth would change what it finds. -/
theorem run_resolves (library : Library) (options : Options) (entry : String) (preloaded : Option LoadedModule)
    (file : Option String) (mode : options.moduleMode = true) :
    let reads := reader library entry preloaded
    let roots := entry :: options.extraModules
    let ran := (run library options entry preloaded file).run.run .empty
    ((∃ output, ran.1 = .ok output) ↔ ∀ name, Reachable reads roots name →
        (∃ found, reads name = .ok found) ∧ ¬Relation.TransGen (Requires reads) name name) ∧
      (∀ output, ran.1 = .ok output →
        Preorder reads [] roots ran.2.graph.names ∧ ran.2.graph.names.Nodup ∧
          (∀ name, name ∈ ran.2.graph.names ↔ Reachable reads roots name) ∧
          ∀ module ∈ ran.2.graph.modules, ∃ found body,
            reads module.name = .ok found ∧ module.stage = .done (parsed found) body) ∧
      ∀ depth, depthBound library options preloaded ≤ depth →
        (discover library options entry preloaded depth).run.run .empty =
          (discover library options entry preloaded (depthBound library options preloaded)).run.run .empty := by
  intro reads roots ran
  have asked : requested options entry = roots := by rw [requested, mode, if_pos rfl]
  obtain ⟨outcome, new, loads, done⟩ := exists_loads_run library options entry preloaded file .empty
  rw [mode, asked] at loads
  have succeeded : (∃ output, ran.1 = .ok output) ↔ outcome = .ok () := by
    simp only [ran, done, exists_complete_iff]
  refine ⟨succeeded.trans loads.ok_iff, ?_, ?_⟩
  · intro output fine
    obtain rfl := succeeded.mp ⟨output, fine⟩
    have graph : ran.2.graph =
        (({ Bundler.empty with entry := some entry } : Bundler).extend new).printModules.graph := by
      simp only [ran, done, graph_complete]
    have names : ran.2.graph.names = namesOf new := by
      rw [graph, names_printModules, names_extend]
      rfl
    have order := loads.preorder rfl
    rw [names]
    refine ⟨order, loads.new_nodup, fun name => order.mem_iff, fun module member => ?_⟩
    rw [graph] at member
    obtain ⟨old, kept⟩ | ⟨parsed, session, old, same⟩ := (prints_printModules _).mem member
    · obtain ⟨found, -, waits⟩ := loads.generating rfl module old
      exact absurd waits (kept _)
    · obtain ⟨found, opened, waits⟩ := loads.generating rfl ⟨module.name, .generating parsed⟩ old
      cases waits
      exact ⟨found, _, opened, same⟩
  · intro depth bound
    obtain ⟨first, found, loads, ran⟩ := exists_loads_discover library options entry preloaded bound .empty
    obtain ⟨second, again, loads', ran'⟩ :=
      exists_loads_discover library options entry preloaded (Nat.le_refl _) .empty
    obtain ⟨rfl, rfl⟩ := loads.unique loads'
    rw [ran, ran']

theorem exists_ok_of_toBool {α : Type} {outcome : Except Failure α} (succeeds : outcome.toBool = true) :
    ∃ value, outcome = .ok value := by
  cases outcome with
  | ok value => exact ⟨value, rfl⟩
  | error failure => cases succeeds

/-- Two modules that require the same one, and an extra module that requires the entry. -/
theorem run_resolves_shared :
    let library := Library.ofModules [("a", "require'b'require'c'"), ("b", "require'd'"), ("c", "require'd'"),
      ("d", ""), ("e", "require'a'")]
    let options : Options := { moduleMode := true, extraModules := ["e"] }
    options.moduleMode = true ∧ (∃ output, ((run library options "a" none none).run.run .empty).1 = .ok output) ∧
      Preorder (reader library "a" none) [] ["a", "e"] ["a", "b", "d", "c", "e"] := by
  intro library options
  have fine : ∃ output, ((run library options "a" none none).run.run .empty).1 = .ok output :=
    exists_ok_of_toBool (by decide +kernel)
  have names : ((run library options "a" none none).run.run .empty).2.graph.names = ["a", "b", "d", "c", "e"] := by
    decide +kernel
  have resolved := run_resolves library options "a" none none rfl
  obtain ⟨output, ok⟩ := fine
  have order := (resolved.2.1 output ok).1
  rw [names] at order
  exact ⟨rfl, ⟨output, ok⟩, order⟩

end Bundler
end LuaMinifier
