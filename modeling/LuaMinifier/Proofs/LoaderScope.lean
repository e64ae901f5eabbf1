import LuaMinifier.Proofs.LoaderTree

/-!
What the names of a bundle mean. Its modules and its entry stand where the variables of the loader are visible, so a
name that is free in one of them is local in the bundle if the loader declares it.
-/

namespace LuaMinifier

/-- The walk that says of every name whether it is local; its state holds the visible names. -/
def Scope.flagging : Scoping String (String × Bool) String (List String) where
  bind name visible := ((name, true), name, visible)
  use name visible := (name, visible.contains name)
  declare name visible := name :: visible
  declareSelf visible := "self" :: visible
  enter visible := visible
  leave outer _ := outer

namespace Scope

@[simp] theorem bind_flagging (name : String) (visible : List String) :
    flagging.bind name visible = ((name, true), name, visible) := rfl

@[simp] theorem use_flagging (name : String) (visible : List String) :
    flagging.use name visible = (name, visible.contains name) := rfl

@[simp] theorem declare_flagging (name : String) (visible : List String) :
    flagging.declare name visible = name :: visible := rfl

@[simp] theorem enter_flagging (visible : List String) : flagging.enter visible = visible := rfl

@[simp] theorem leave_flagging (outer inner : List String) : flagging.leave outer inner = outer := rfl

/-- Scopes below which some more names are visible. -/
def SeesBelow (outer : List String) (scope : Scope) (visible : List String) : Prop :=
  ∀ name, visible.contains name = (scope.declares name || outer.contains name)

theorem SeesBelow.declare {outer visible : List String} {scope : Scope} (sees : scope.SeesBelow outer visible)
    (name : String) : (scope.declare name).SeesBelow outer (name :: visible) := by
  intro other
  rw [declares_declare, Bool.or_assoc, ← sees other, List.contains_cons]
  rfl

theorem follows_flagging (outer : List String) :
    resolving.Follows flagging Identifier.name
      (fun identifier => (identifier.name, identifier.isLocal || outer.contains identifier.name)) id
      (SeesBelow outer) Eq where
  bind _ _ _ sees := ⟨rfl, rfl, sees⟩
  use name _ _ sees := by simp only [resolving, flagging, id, sees name.text]
  declare := by
    rintro name _ scope visible rfl sees
    exact sees.declare name
  declareSelf sees := sees.declare "self"
  enter := by
    intro scope visible sees name
    exact (sees name).trans (congrArg (· || _) (scope.declares_enter name).symm)
  leave outer _ := outer

end Scope

namespace Block

theorem walk_flagging {tree : Block Name} {body : Block Identifier} (resolved : (tree.resolve.run .empty).1 = body)
    (outer : List String) :
    ((body.view .exact Identifier.name).walk Scope.flagging outer).1.view .exact id =
      body.view .exact fun identifier => (identifier.name, identifier.isLocal || outer.contains identifier.name) := by
  have walked : (tree.walk Scope.resolving Scope.empty).1 = body := by
    rw [← (tree.resolve_eq Scope.empty).1, ← resolved]
    rfl
  have start : Scope.empty.SeesBelow outer outer := fun name => rfl
  have followed := (tree.follow (Scope.follows_flagging outer) .exact start).1
  rw [walked] at followed
  exact followed

end Block

namespace Loader

/-- The occurrences of a loader with what they mean: only the `require` that it finds is global. -/
def Labels.flagged (names : Labels String) : Labels (String × Bool) :=
  ⟨(names.found, false), (names.host, true), (names.loaded, true), (names.name, true), (names.own, true)⟩

def Labels.visible (names : Labels String) : List String := [names.own, names.loaded, names.host]

section Walk

variable (names : Labels String)

theorem walk_slot :
    names.slot.walk Scope.flagging (names.name :: names.visible) =
      (names.flagged.slot, names.name :: names.visible) := by
  simp [Labels.slot, reference, Expr.walk, Labels.flagged, Labels.visible]

theorem walk_unset (operator : BinaryOp) :
    (names.unset operator).walk Scope.flagging (names.name :: names.visible) =
      (names.flagged.unset operator, names.name :: names.visible) := by
  simp [Labels.unset, Expr.walk, walk_slot]

theorem walk_branch (module : String) (body : Block String) :
    (names.branch module body).walk Scope.flagging (names.name :: names.visible) =
      (names.flagged.branch module (body.walk Scope.flagging (names.name :: names.visible)).1,
        names.name :: names.visible) := by
  simp [Labels.branch, reference, Stat.walk, Block.walk, Expr.walk, Expr.walkAll, Else.walk, walk_slot, walk_unset,
    Scoping.function, Scoping.inScope, Scoping.bindAll, Scoping.declareAll, Labels.flagged]

theorem walk_branches (modules : List (String × Block String)) :
    (names.branches modules).walk Scope.flagging (names.name :: names.visible) =
      (names.flagged.branches (modules.map fun module =>
          (module.1, (module.2.walk Scope.flagging (names.name :: names.visible)).1)),
        names.name :: names.visible) := by
  induction modules with
  | nil => simp [Labels.branches, reference, Block.walk, Expr.walk, Expr.walkAll, Labels.flagged, Labels.visible]
  | cons module rest ih => simp [Labels.branches, Block.walk, walk_branch, ih]

theorem walk_body (branches : Block String) :
    ((names.body branches).walk Scope.flagging (names.name :: names.visible)).1 =
      names.flagged.body (branches.walk Scope.flagging (names.name :: names.visible)).1 := by
  have start : names.loaded ∈ names.visible := by simp [Labels.visible]
  simp [Labels.body, reference, Block.walk, Stat.walk, Expr.walk, Expr.walkAll, Field.walkAll, Else.walk, walk_slot,
    walk_unset, Scoping.inScope, Labels.flagged, start]

theorem walk_bundle (modules : List (String × Block String)) (entry : Block String) :
    ((names.bundle modules entry).walk Scope.flagging []).1 =
      names.flagged.bundle
        (modules.map fun module => (module.1, (module.2.walk Scope.flagging (names.name :: names.visible)).1))
        (entry.walk Scope.flagging names.visible).1 := by
  have header : names.header.walk Scope.flagging [] = (names.flagged.header, [names.loaded, names.host]) := by
    simp [Labels.header, reference, Stat.walk, Expr.walk, Expr.walkAll, Scoping.bindAll, Scoping.declareAll,
      Labels.flagged]
  have function (branches : Block String) :
      (names.function branches).walk Scope.flagging [names.loaded, names.host] =
        (names.flagged.function (branches.walk Scope.flagging (names.name :: names.visible)).1, names.visible) := by
    simp only [Labels.function, Stat.walk, Scoping.function, Scoping.inScope, Scoping.bindAll, Scoping.declareAll]
    exact congrArg (fun body => (Stat.localFunction _ _ _ body, _)) (walk_body names branches)
  simp only [Labels.bundle, Block.walk, header, function, walk_branches]

end Walk

def Labels.Apart (names : Labels String) (body : Block Identifier) : Prop :=
  ∀ identifier ∈ body.occurrences,
    identifier.name ≠ names.host ∧ identifier.name ≠ names.loaded ∧ identifier.name ≠ names.name

end Loader

def Identifier.flagged (identifier : Identifier) : String × Bool := (identifier.name, identifier.isLocal)

/-- An occurrence and whether it is local where one more name is declared. -/
def Identifier.flaggedBelow (name : String) (identifier : Identifier) : String × Bool :=
  (identifier.name, identifier.isLocal || identifier.name = name)

def Block.IsResolved (body : Block Identifier) : Prop := ∃ tree : Block Name, (tree.resolve.run .empty).1 = body

namespace Loader

variable {names : Labels String}

theorem flagged_inside {body : Block Identifier} (resolved : body.IsResolved) (apart : names.Apart body)
    {visible : List String} (own : names.own ∈ visible)
    (known : visible ⊆ [names.own, names.host, names.loaded, names.name]) :
    ((body.view .exact Identifier.name).walk Scope.flagging visible).1.view .exact id =
      body.view .exact (Identifier.flaggedBelow names.own) := by
  obtain ⟨tree, resolved⟩ := resolved
  rw [Block.walk_flagging resolved]
  refine Block.view_congr .exact body fun identifier member => ?_
  obtain ⟨host, loaded, name⟩ := apart identifier member
  have visible : visible.contains identifier.name = decide (identifier.name = names.own) := by
    rw [Bool.eq_iff_iff, List.contains_iff_mem, decide_eq_true_iff]
    constructor
    · intro seen
      simpa [host, loaded, name] using known seen
    · intro same
      exact same ▸ own
  rw [visible]
  rfl

/-- What the names of a whole bundle mean: those of its modules and its entry mean what they meant before, except that
a global with the name of the loader means the loader. -/
theorem flagged_bundle {body : Block Identifier} (resolved : body.IsResolved)
    {modules : List (String × Block Identifier)} {entry : Block Identifier}
    (shown : body.view .exact Identifier.name =
      names.bundle (modules.map fun module => (module.1, module.2.view .exact Identifier.name))
        (entry.view .exact Identifier.name))
    (each : ∀ module ∈ modules, module.2.IsResolved ∧ names.Apart module.2) (last : entry.IsResolved)
    (apart : names.Apart entry) :
    body.view .exact Identifier.flagged =
      names.flagged.bundle
        (modules.map fun module => (module.1, module.2.view .exact (Identifier.flaggedBelow names.own)))
        (entry.view .exact (Identifier.flaggedBelow names.own)) := by
  obtain ⟨tree, resolved⟩ := resolved
  have flags := Block.walk_flagging resolved []
  have plain : (fun identifier : Identifier => (identifier.name, identifier.isLocal || [].contains identifier.name)) =
      Identifier.flagged := by
    funext identifier
    simp [Identifier.flagged]
  rw [plain, shown, walk_bundle, view_bundle] at flags
  rw [← flags, List.map_map, List.map_map]
  have inside (module : String × Block Identifier) (member : module ∈ modules) :
      (module.1, (((module.2.view .exact Identifier.name).walk Scope.flagging (names.name :: names.visible)).1.view
        .exact id)) = (module.1, module.2.view .exact (Identifier.flaggedBelow names.own)) := by
    obtain ⟨resolved, apart⟩ := each module member
    rw [flagged_inside resolved apart (by simp [Labels.visible]) (by simp [Labels.visible, List.subset_def])]
  have behind : ((entry.view .exact Identifier.name).walk Scope.flagging names.visible).1.view .exact id =
      entry.view .exact (Identifier.flaggedBelow names.own) :=
    flagged_inside last apart (by simp [Labels.visible]) (by simp [Labels.visible, List.subset_def])
  rw [behind]
  exact congrArg (Labels.bundle _ · _) (List.map_congr_left inside)

end Loader

end LuaMinifier
