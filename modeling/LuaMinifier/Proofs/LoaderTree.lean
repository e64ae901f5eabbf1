import LuaMinifier.Bundle.Loader
import LuaMinifier.Proofs.RoundTrip

/-!
The tree of a bundle: a loader with a branch for every bundled module, and the statements of the entry behind it.
-/

namespace LuaMinifier

open Token

variable {ι κ : Type}

namespace Loader

/-- The occurrences in a loader: the `require` that it finds, the three variables, and the `require` that it is. -/
structure Labels (ι : Type) where
  found : ι
  host : ι
  loaded : ι
  name : ι
  own : ι

def Labels.view (see : ι → κ) (labels : Labels ι) : Labels κ :=
  ⟨see labels.found, see labels.host, see labels.loaded, see labels.name, see labels.own⟩

def reference (occurrence : ι) : Expr ι := .identifier (.plain .start) occurrence

def Labels.slot (labels : Labels ι) : Expr ι :=
  .index (.plain .start) (reference labels.loaded) (reference labels.name)

def Labels.unset (labels : Labels ι) (operator : BinaryOp) : Expr ι :=
  .binary (.plain .start) operator labels.slot (.literal (.plain .start) .nil "nil")

/-- The branch of a module: its body is a function of any arguments that is called with the name asked for. -/
def Labels.branch (labels : Labels ι) (module : String) (body : Block ι) : Stat ι :=
  .cond .start
    (.binary (.plain .start) .equal (reference labels.name)
      (.literal (.plain .start) .string (quoteName module)))
    (.cons (.assign .start [labels.slot]
        [.call (.plain .start) (.function ⟨.start, true⟩ ⟨[], some .start⟩ body) [reference labels.name]])
      (.cons (.cond .start (labels.unset .equal)
          (.cons (.assign .start [labels.slot] [.literal (.plain .start) .boolean "true"]) .nil) .none)
        (.ret .start [labels.slot])))
    .none

/-- One branch for each module, and the call of the host's `require` behind them. -/
def Labels.branches (labels : Labels ι) : List (String × Block ι) → Block ι
  | [] => .ret .start [.call (.plain .start) (reference labels.host) [reference labels.name]]
  | (module, body) :: rest => .cons (labels.branch module body) (labels.branches rest)

def Labels.header (labels : Labels ι) : Stat ι :=
  .localVars .start [labels.host, labels.loaded] [reference labels.found]

/-- The body of a loader: a table of results if there is none yet, the result that it holds, and the branches. -/
def Labels.body (labels : Labels ι) (branches : Block ι) : Block ι :=
  .cons (.assign .start [reference labels.loaded]
      [.binary (.plain .start) .or (reference labels.loaded) (.table (.plain .start) [])])
    (.cons (.cond .start (labels.unset .notEqual) (.ret .start [labels.slot]) .none) branches)

def Labels.function (labels : Labels ι) (branches : Block ι) : Stat ι :=
  .localFunction .start labels.own ⟨[labels.name], none⟩ (labels.body branches)

def Labels.bundle (labels : Labels ι) (modules : List (String × Block ι)) (entry : Block ι) : Block ι :=
  .cons labels.header (.cons (labels.function (labels.branches modules)) entry)

section View

variable (see : ι → κ) (labels : Labels ι)

theorem view_branch (module : String) (body : Block ι) :
    (labels.branch module body).view .exact see = (labels.view see).branch module (body.view .exact see) := rfl

theorem view_function (branches : Block ι) :
    (labels.function branches).view .exact see = (labels.view see).function (branches.view .exact see) := rfl

theorem view_branches (modules : List (String × Block ι)) :
    (labels.branches modules).view .exact see =
      (labels.view see).branches (modules.map fun module => (module.1, module.2.view .exact see)) := by
  induction modules with
  | nil => rfl
  | cons module rest ih => simp [Labels.branches, Block.view, view_branch, ih]

theorem view_bundle (modules : List (String × Block ι)) (entry : Block ι) :
    (labels.bundle modules entry).view .exact see =
      (labels.view see).bundle (modules.map fun module => (module.1, module.2.view .exact see))
        (entry.view .exact see) := by
  simp only [Labels.bundle, Block.view, view_function, view_branches]
  rfl

end View

section Shape

variable {labels : Labels ι} {named : ι → Prop}

structure Labels.All (condition : ι → Prop) (labels : Labels ι) : Prop where
  found : condition labels.found
  host : condition labels.host
  loaded : condition labels.loaded
  name : condition labels.name
  own : condition labels.own

theorem formed_slot (all : labels.All named) (called : Bool) : labels.slot.Formed Kind.Written named called :=
  ⟨rfl, all.loaded, all.name⟩

theorem formed_unset (all : labels.All named) (operator : BinaryOp) (called : Bool) :
    (labels.unset operator).Formed Kind.Written named called :=
  ⟨formed_slot all false, trivial, rfl⟩

theorem formed_store (all : labels.All named) {value : Expr ι} (formed : value.Formed Kind.Written named false) :
    (Stat.assign .start [labels.slot] [value]).Formed Kind.Written named := by
  have assignable : labels.slot.isAssignable = true := rfl
  exact ⟨by simp, by simpa using assignable, ⟨formed_slot all false, trivial⟩, by simp, formed, trivial⟩

theorem formed_branch (all : labels.All named) {module : String} {body : Block ι}
    (quoted : (Kind.string (quoteName module)).Written) (inner : body.Formed Kind.Written named) :
    (labels.branch module body).Formed Kind.Written named := by
  have test : (Expr.binary (.plain .start) .equal (reference labels.name)
      (.literal (.plain .start) .string (quoteName module))).Formed Kind.Written named false :=
    ⟨all.name, quoted, rfl⟩
  have call : (Expr.call (.plain .start) (.function ⟨.start, true⟩ ⟨[], some .start⟩ body)
      [reference labels.name]).Formed Kind.Written named false :=
    ⟨rfl, ⟨by simp, inner⟩, all.name, trivial⟩
  have filled : (Stat.assign .start [labels.slot] [.literal (.plain .start) .boolean "true"]).Formed
      Kind.Written named := formed_store all ⟨trivial, rfl⟩
  have slot := formed_slot all false
  exact ⟨test, ⟨formed_store all call, ⟨formed_unset all .equal false, ⟨filled, trivial⟩, trivial⟩, slot, trivial⟩,
    trivial⟩

theorem formed_branches (all : labels.All named) {modules : List (String × Block ι)}
    (each : ∀ module ∈ modules, (Kind.string (quoteName module.1)).Written ∧ module.2.Formed Kind.Written named) :
    (labels.branches modules).Formed Kind.Written named := by
  induction modules with
  | nil => exact ⟨⟨rfl, all.host, all.name, trivial⟩, trivial⟩
  | cons module rest ih =>
      rw [List.forall_mem_cons] at each
      exact ⟨formed_branch all each.1.1 each.1.2, ih each.2⟩

theorem formed_bundle (all : labels.All named) {modules : List (String × Block ι)} {entry : Block ι}
    (each : ∀ module ∈ modules, (Kind.string (quoteName module.1)).Written ∧ module.2.Formed Kind.Written named)
    (last : entry.Formed Kind.Written named) : (labels.bundle modules entry).Formed Kind.Written named := by
  have header : labels.header.Formed Kind.Written named :=
    ⟨by simp, by simp [all.host, all.loaded], all.found, trivial⟩
  have start : (Stat.assign .start [reference labels.loaded] [.binary (.plain .start) .or (reference labels.loaded)
      (.table (.plain .start) [])]).Formed Kind.Written named := by
    have assignable : (reference labels.loaded).isAssignable = true := rfl
    exact ⟨by simp, by simpa using assignable, ⟨all.loaded, trivial⟩, by simp, ⟨all.loaded, trivial⟩, trivial⟩
  have known : (Stat.cond .start (labels.unset .notEqual) (.ret .start [labels.slot]) .none).Formed
      Kind.Written named :=
    ⟨formed_unset all .notEqual false, ⟨formed_slot all false, trivial⟩, trivial⟩
  exact ⟨header, ⟨all.own, by simp [all.name], start, known, formed_branches all each⟩, last⟩

theorem grouped_branches {modules : List (String × Block ι)}
    (each : ∀ module ∈ modules, module.2.All Expr.Grouped) : (labels.branches modules).All Expr.Grouped := by
  induction modules with
  | nil => simp [Labels.branches, Block.All, Expr.Every, Expr.All, Expr.Grouped, reference]
  | cons module rest ih =>
      rw [List.forall_mem_cons] at each
      simp [Labels.branches, Labels.branch, Labels.slot, Labels.unset, Block.All, Stat.All, Else.All, Expr.Every,
        Expr.All, Expr.Grouped, Expr.HoldsRight, Expr.HoldsLeft, reference, each.1, ih each.2]

theorem grouped_bundle {modules : List (String × Block ι)} {entry : Block ι}
    (each : ∀ module ∈ modules, module.2.All Expr.Grouped) (last : entry.All Expr.Grouped) :
    (labels.bundle modules entry).All Expr.Grouped := by
  simp [Labels.bundle, Labels.header, Labels.function, Labels.body, Labels.slot, Labels.unset, Block.All, Stat.All,
    Else.All, Expr.Every, Field.Every, Expr.All, Expr.Grouped, Expr.HoldsRight, Expr.HoldsLeft, reference,
    grouped_branches each, last]

end Shape

end Loader

end LuaMinifier
