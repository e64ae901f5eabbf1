import LuaMinifier.Proofs.FreshNames
import LuaMinifier.Proofs.Occurrences
import LuaMinifier.Proofs.Resolution

/-!
Which declaration a name means. The places that declare names are numbered in the order in which they stand, the
parameter of a method that is not written included, and every other occurrence of a name means the innermost visible
declaration of it. The flags of resolved identifiers say which occurrences mean one, and spellings that are different
for different names leave what every occurrence means as it is.
-/

namespace LuaMinifier

/-- The visible names, the innermost first, with the numbers of their declarations; and the next number. -/
structure Declarations where
  visible : List (String × Nat)
  next : Nat

namespace Declarations

def empty : Declarations := ⟨[], 0⟩

def find? : List (String × Nat) → String → Option Nat
  | [], _ => none
  | each :: outer, name => if each.1 = name then some each.2 else find? outer name

/-- The walk that says of every occurrence which declaration it is or means. -/
def numbering : Scoping String (String × Option Nat) (String × Nat) Declarations where
  bind name known := ((name, some known.next), (name, known.next), { known with next := known.next + 1 })
  use name known := (name, find? known.visible name)
  declare each known := { known with visible := each :: known.visible }
  declareSelf known := ⟨("self", known.next) :: known.visible, known.next + 1⟩
  enter known := known
  leave outer inner := { inner with visible := outer.visible }

end Declarations

/-- The name of an occurrence that means no declaration. -/
def freeName : String × Option Nat → Option String
  | (_, some _) => none
  | (name, none) => some name

/-- Every occurrence with its declaration, if there is one. -/
def Block.bound (body : Block String) : Block (String × Option Nat) :=
  (body.walk Declarations.numbering Declarations.empty).1

/-- The declarations that the occurrences of a block mean, in the order in which they stand; a free occurrence means
none. -/
def Block.declarations {ι : Type} (text : ι → String) (body : Block ι) : List (Option Nat) :=
  (body.view .exact text).bound.occurrences.map (·.2)

namespace Scope

theorem declares_enter (scope : Scope) (name : String) : scope.enter.declares name = scope.declares name := by
  simp [declares, enter]

theorem declares_declare (scope : Scope) (name other : String) :
    (scope.declare name).declares other = (decide (other = name) || scope.declares other) := by
  obtain ⟨frames⟩ := scope
  cases frames with
  | nil => simp [declare, declares, eq_comm]
  | cons frame outer =>
      rw [Bool.eq_iff_iff]
      simp [declare, declares, List.mem_insert_iff, or_assoc]

/-- The names that open scopes declare are those with a declaration. -/
def Sees (scope : Scope) (known : Declarations) : Prop :=
  ∀ name, scope.declares name = (Declarations.find? known.visible name).isSome

theorem Sees.declare {scope : Scope} {known : Declarations} (sees : scope.Sees known) (name : String) (site : Nat) :
    ∀ other, (scope.declare name).declares other =
      (Declarations.find? ((name, site) :: known.visible) other).isSome := by
  intro other
  rw [declares_declare, sees other, Declarations.find?]
  by_cases same : name = other
  · simp [same]
  · simp [same, Ne.symm same]

theorem follows_numbering {μ : Type} (see : String → Bool → μ) :
    resolving.Follows Declarations.numbering Identifier.name
      (fun identifier => see identifier.name identifier.isLocal) (fun bound => see bound.1 bound.2.isSome) Sees
      fun name each => each.1 = name where
  bind _ _ _ sees := ⟨rfl, rfl, sees⟩
  use name _ _ sees := by simp [resolving, Declarations.numbering, sees name.text]
  declare := by
    rintro name ⟨_, site⟩ scope known rfl sees
    exact sees.declare _ site
  declareSelf := by
    intro scope known sees
    exact sees.declare "self" known.next
  enter := by
    intro scope known sees name
    exact (scope.declares_enter name).trans (sees name)
  leave outer _ := outer

end Scope

theorem Block.bound_resolve {μ : Type} (see : String → Bool → μ) (detail : Detail) {tree : Block Name}
    {body : Block Identifier} (resolved : (tree.resolve.run .empty).1 = body) :
    (body.view detail Identifier.name).bound.view detail (fun bound => see bound.1 bound.2.isSome) =
      body.view detail fun identifier => see identifier.name identifier.isLocal := by
  have walked : (tree.walk Scope.resolving Scope.empty).1 = body := by
    rw [← (tree.resolve_eq Scope.empty).1, ← resolved]
    rfl
  have start : Scope.empty.Sees Declarations.empty := fun name => rfl
  have followed := (tree.follow (Scope.follows_numbering see) detail start).1
  rw [walked] at followed
  exact followed

theorem Block.bound_resolve_exact {μ : Type} (see : String → Bool → μ) (detail : Detail) {tree : Block Name}
    {body : Block Identifier} (resolved : (tree.resolve.run .empty).1 = body) :
    (body.view .exact Identifier.name).bound.view detail (fun bound => see bound.1 bound.2.isSome) =
      body.view detail fun identifier => see identifier.name identifier.isLocal := by
  have flags := Block.bound_resolve Prod.mk .exact resolved
  have seen := congrArg (Block.view detail fun flag => see flag.1 flag.2) flags
  rw [Block.view_exact, Block.view_exact] at seen
  exact seen

/-- The name of a global variable; the spelling of a local one does not matter. -/
def Identifier.global? (identifier : Identifier) : Option String :=
  if identifier.isLocal then none else some identifier.name

theorem freeName_eq : freeName = fun bound => if bound.2.isSome then none else some bound.1 := by
  funext ⟨_, site⟩
  cases site <;> rfl

theorem Block.view_resolve (tree : Block Name) (detail : Detail) :
    (tree.resolve.run .empty).1.view detail Identifier.name = tree.view detail Name.text := by
  have walked : (tree.resolve.run .empty).1 = (tree.walk Scope.resolving Scope.empty).1 :=
    congrArg Prod.fst (tree.resolve_eq Scope.empty).1
  have marks : Scope.resolving.Marks Identifier.name Name.text := ⟨fun _ _ => rfl, fun _ _ => rfl⟩
  rw [walked, tree.view_walk detail marks]

/-- How names are spelled anew, those of declarations and those of free occurrences apart: different names get
different spellings, and the parameter that is not written keeps its name. -/
structure Faithful (spell : String → Bool → String) : Prop where
  injective : ∀ {first second}, spell first true = spell second true → first = second
  apart : ∀ {first second}, spell first true = spell second false → first = second
  self : spell "self" true = "self"

namespace Declarations

variable {spell : String → Bool → String}

def respelled (spell : String → Bool → String) (known : Declarations) : Declarations :=
  ⟨known.visible.map fun each => (spell each.1 true, each.2), known.next⟩

theorem find_respelled (faithful : Faithful spell) (visible : List (String × Nat)) (name : String) :
    find? (visible.map fun each => (spell each.1 true, each.2)) (spell name (find? visible name).isSome) =
      find? visible name := by
  cases found : find? visible name with
  | some site =>
      rw [Option.isSome_some, ← found]
      clear found
      induction visible with
      | nil => rfl
      | cons each outer ih =>
          by_cases same : each.1 = name
          · simp [find?, same]
          · have different : spell each.1 true ≠ spell name true := fun equal => same (faithful.injective equal)
            simp [find?, same, different, ih]
  | none =>
      rw [Option.isSome_none]
      induction visible with
      | nil => rfl
      | cons each outer ih =>
          rw [find?] at found
          split at found
          next => simp at found
          next same =>
            have different : spell each.1 true ≠ spell name false := fun equal => same (faithful.apart equal)
            simp [find?, different, ih found]

theorem follows_respelled {μ : Type} (see : Option Nat → Option String → μ) (faithful : Faithful spell) :
    numbering.Follows numbering (fun bound => spell bound.1 bound.2.isSome)
      (fun bound => see bound.2 (freeName (spell bound.1 false, bound.2))) (fun bound => see bound.2 (freeName bound))
      (fun known again => again = known.respelled spell) fun each again => again = (spell each.1 true, each.2) where
  bind := by
    rintro name known _ rfl
    exact ⟨rfl, rfl, rfl⟩
  use := by
    rintro name known _ rfl
    simp only [numbering, respelled, find_respelled faithful]
    cases find? known.visible name <;> rfl
  declare := by
    rintro each _ known _ rfl rfl
    rfl
  declareSelf := by
    rintro known _ rfl
    simp [numbering, respelled, faithful.self]
  enter := by
    rintro known _ rfl
    rfl
  leave := by
    rintro outer _ inner _ rfl rfl
    rfl

end Declarations

/-- A text that is spelled anew: every occurrence means the same declaration, and the free ones show their new
spelling. -/
theorem Block.bound_respelled {μ : Type} (see : Option Nat → Option String → μ) {spell : String → Bool → String}
    (faithful : Faithful spell) (detail : Detail) (body : Block String) :
    (body.bound.view detail fun bound => spell bound.1 bound.2.isSome).bound.view detail
        (fun bound => see bound.2 (freeName bound)) =
      body.bound.view detail fun bound => see bound.2 (freeName (spell bound.1 false, bound.2)) :=
  (body.follow (Declarations.follows_respelled see faithful) detail rfl).1

end LuaMinifier
