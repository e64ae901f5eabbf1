import LuaMinifier.FileTree
import Mathlib.Data.Bool.Basic
import Mathlib.Data.List.TakeWhile

/-!
Files after a history of writes. Making directories and writing files leaves every directory where it is, and every
path goes on leading where it led. So what a path reads is the text that was written last into the place it leads to,
through the same path or another.
-/

namespace LuaMinifier
namespace FileTree

section Set

theorem lookup_set (tree : FileTree) (place key : Place) (node : FileNode) :
    (tree.set place node).entries.lookup key = if key = place then some node else tree.entries.lookup key := by
  have replaced (entries : List (Place × FileNode)) :
      (entries.map fun entry => if entry.1 = place then (place, node) else entry).lookup key =
        if key = place then (entries.lookup key).map fun _ => node else entries.lookup key := by
    induction entries with
    | nil => simp
    | cons entry rest ih =>
        rw [List.map_cons, List.lookup_cons, List.lookup_cons, ih]
        by_cases here : entry.1 = place <;> by_cases asked : key = place <;> grind
  unfold set
  split
  next there =>
    rw [replaced]
    split
    next asked =>
      obtain ⟨old, found⟩ := Option.isSome_iff_exists.mp there
      rw [asked, found, Option.map_some]
    next => rfl
  next missing =>
    rw [List.lookup_append, List.lookup_cons, List.lookup_nil]
    by_cases asked : key = place
    · rw [asked, Option.not_isSome_iff_eq_none.mp missing]
      simp
    · simp [asked, beq_eq_false_iff_ne.mpr asked]

theorem find?_set {place : Place} (inner : place.isOuter = false) (tree : FileTree) (key : Place) (node : FileNode) :
    (tree.set place node).find? key = if key = place then some node else tree.find? key := by
  unfold find?
  rw [lookup_set]
  by_cases same : key = place
  · simp [same, inner]
  · simp [same]

end Set

section Targets

theorem isOuter_concat {place : Place} {name : String} (slash : '/' ∉ name.toList) (up : name ≠ "..") :
    (place ++ [name]).isOuter = false := by
  have inner : place ++ [name] ≠ Place.root := by
    intro same
    have last := congrArg List.getLast? same
    rw [List.getLast?_concat] at last
    obtain rfl := Option.some.inj last
    exact slash (by decide)
  simp [Place.isOuter, inner, up]

theorem target_eq_some {tree : FileTree} {path : Path} {place : Place} {name : String}
    (found : tree.target path = .ok (place, some name)) :
    path.text ≠ "" ∧ ∃ earlier, (names path).reverse.dropWhile (· = "") = name :: earlier ∧
      earlier.reverse.foldlM tree.step (base path) = .ok place ∧ tree.isDirectoryAt place = true ∧
      name ≠ "." ∧ name ≠ ".." ∧ (place ++ [name]).isOuter = false := by
  by_cases nothing : path.text.isEmpty = true
  · simp [target, nothing, bind, Except.bind] at found
  · refine ⟨by simpa using nothing, ?_⟩
    simp only [target, nothing, Bool.false_eq_true, ↓reduceIte] at found
    cases split : (names path).reverse.dropWhile (· = "") with
    | nil => simp [split, pure, Except.pure] at found
    | cons last earlier =>
        simp only [split] at found
        cases led : earlier.reverse.foldlM tree.step (base path) with
        | error fault => simp [led, bind, Except.bind] at found
        | ok directory =>
            by_cases there : tree.isDirectoryAt directory = true
            · simp only [led, there, bind, Except.bind, pure, Except.pure] at found
              by_cases named : (decide (last = ".") || decide (last = "..")) = true
              · simp [named] at found
              · simp only [named, Bool.not_true, Bool.false_eq_true, ↓reduceIte, Except.ok.injEq, Prod.mk.injEq,
                  Option.some.injEq] at found
                obtain ⟨rfl, rfl⟩ := found
                simp only [Bool.or_eq_true, decide_eq_true_eq, not_or] at named
                have member : last ∈ names path :=
                  List.mem_reverse.mp ((List.dropWhile_sublist _).mem (split ▸ List.mem_cons_self))
                exact ⟨earlier, rfl, led, there, named.1, named.2, isOuter_concat (not_mem_of_mem_cut member) named.2⟩
            · simp [led, there, bind, Except.bind] at found

theorem names_of_target {tree : FileTree} {path : Path} {place : Place} {name : String}
    (found : tree.target path = .ok (place, some name)) (bare : path.text.toList.getLast? ≠ some '/') :
    ∃ earlier, names path = earlier ++ [name] ∧ name ≠ "" ∧ earlier.foldlM tree.step (base path) = .ok place := by
  obtain ⟨given, earlier, split, led, -⟩ := target_eq_some found
  obtain ⟨front, last, parts, behind, -⟩ := exists_last_part '/' path.text.toList
  -- Without a slash at its end a path has no empty names there that could be passed over.
  have some : last ≠ [] := by
    rintro rfl
    rcases behind with nothing | ⟨before, slash⟩
    · exact given (String.toList_eq_nil_iff.mp nothing)
    · exact bare (by simp [slash])
  have whole : names path = front.map String.ofList ++ [String.ofList last] := by
    rw [names, cut, parts, List.map_append, List.map_singleton]
  have named : String.ofList last ≠ "" := by simpa using some
  rw [whole, List.reverse_append, List.reverse_singleton, List.singleton_append,
    List.dropWhile_cons_of_neg (by simpa using named)] at split
  obtain ⟨rfl, rfl⟩ := List.cons.inj split
  rw [List.reverse_reverse] at led
  exact ⟨_, whole, named, led⟩

end Targets

/-- A later tree: directories are directories still, and what was there is there still. -/
structure Extends (tree later : FileTree) : Prop where
  directory : ∀ place, tree.isDirectoryAt place = true → later.isDirectoryAt place = true
  present : ∀ place, (tree.find? place).isSome = true → (later.find? place).isSome = true

namespace Extends

variable {tree later : FileTree} (grows : tree.Extends later)
include grows

theorem step {place next : Place} {name : String} (led : tree.step place name = .ok next) :
    later.step place name = .ok next := by
  unfold FileTree.step at led ⊢
  split at led
  next => cases led
  next inside =>
    rw [if_neg (by simpa using grows.directory place (by simpa using inside))]
    split
    next trivial => rwa [if_pos trivial] at led
    next proper =>
      rw [if_neg proper] at led
      split
      next up => rwa [if_pos up] at led
      next down =>
        rw [if_neg down] at led
        split at led
        next found => rwa [if_pos (grows.present _ found)]
        next => cases led

theorem steps {names : List String} {start place : Place} (led : names.foldlM tree.step start = .ok place) :
    names.foldlM later.step start = .ok place := by
  induction names generalizing start with
  | nil => exact led
  | cons name rest ih =>
      rw [List.foldlM_cons] at led ⊢
      cases first : tree.step start name with
      | error fault =>
          rw [first] at led
          cases led
      | ok next =>
          rw [first] at led
          rw [grows.step first]
          exact ih led

theorem trans {final : FileTree} (further : later.Extends final) : tree.Extends final :=
  ⟨fun place there => further.directory place (grows.directory place there),
    fun place there => further.present place (grows.present place there)⟩

theorem resolve {path : Path} {place : Place} (led : tree.resolve path = .ok place) :
    later.resolve path = .ok place := by
  unfold FileTree.resolve at led ⊢
  split at led
  next => cases led
  next given =>
    rw [if_neg given]
    exact grows.steps led

end Extends

theorem extends_set {tree : FileTree} {place : Place} (inner : place.isOuter = false)
    (free : tree.isDirectoryAt place = false) (node : FileNode) : tree.Extends (tree.set place node) := by
  have other {key : Place} (directory : tree.isDirectoryAt key = true) : key ≠ place := by
    rintro rfl
    rw [free] at directory
    cases directory
  refine ⟨fun key directory => ?_, fun key present => ?_⟩
  · rwa [isDirectoryAt, find?_set inner, if_neg (other directory)]
  · rw [find?_set inner]
    split <;> simp [present]

/-- What making a directory does: it comes to stand where nothing was. -/
theorem makeDirectory_eq_ok {tree next : FileTree} {path : Path} (made : tree.makeDirectory path = .ok next) :
    tree.Extends next ∧ ∃ place, tree.find? place = none ∧ ∀ key ≠ place, next.find? key = tree.find? key := by
  unfold makeDirectory at made
  cases found : tree.target path with
  | error fault => simp [found, bind, Except.bind] at made
  | ok pair =>
      obtain ⟨place, _ | name⟩ := pair
      · simp [found, bind, Except.bind] at made
      · obtain ⟨-, -, -, -, -, -, -, inner⟩ := target_eq_some found
        simp only [found, bind, Except.bind] at made
        split at made
        next => cases made
        next taken =>
          have free : tree.find? (place ++ [name]) = none := by simpa using taken
          obtain rfl := Except.ok.inj made
          exact ⟨extends_set inner (by simp [isDirectoryAt, free]) _, _, free,
            fun key other => by rw [find?_set inner, if_neg other]⟩

/-- What writing a file does: its content comes to stand where the path leads from then on, under its last name. -/
theorem write_eq_ok {tree next : FileTree} {path : Path} {content : ByteArray}
    (written : tree.write path content = .ok next) :
    tree.Extends next ∧ ∃ place : Place, next.resolve path = .ok place ∧ place.getLast? = (names path).getLast? ∧
      ∀ key, next.find? key = if key = place then some (.file content) else tree.find? key := by
  unfold write at written
  cases found : tree.target path with
  | error fault => simp [found, bind, Except.bind] at written
  | ok pair =>
      obtain ⟨place, _ | name⟩ := pair
      · simp [found, bind, Except.bind] at written
      · simp only [found, bind, Except.bind] at written
        split at written
        next => cases written
        next free =>
          simp only [Bool.or_eq_true, decide_eq_true_eq, not_or, Bool.not_eq_true] at free
          obtain ⟨given, -, -, -, directory, point, up, inner⟩ := target_eq_some found
          obtain ⟨earlier, whole, named, led⟩ := names_of_target found free.1
          have grows := extends_set inner free.2 (.file content)
          obtain rfl := (Except.ok.inj written).symm
          refine ⟨grows, _, ?_, by simp [whole], fun key => find?_set inner tree key _⟩
          rw [resolve, if_neg (by simpa using given), whole, List.foldlM_append, grows.steps led]
          change (FileTree.step _ place name >>= fun next => [].foldlM _ next) = _
          simp [FileTree.step, grows.directory place directory, Path.isTrivial, named, point, up, find?_set inner,
            bind, Except.bind, pure, Except.pure]

/-- Work on a tree: directories are made, and the files of a journal are written in their order. -/
inductive History : FileTree → List (Path × String) → FileTree → Prop
  | refl (tree : FileTree) : History tree [] tree
  | directory {tree next final : FileTree} {journal : List (Path × String)} {path : Path}
      (made : tree.makeDirectory path = .ok next) (rest : History next journal final) : History tree journal final
  | file {tree next final : FileTree} {journal : List (Path × String)} {path : Path} {text : String}
      (written : tree.writeText path text = .ok next) (rest : History next journal final) :
      History tree ((path, text) :: journal) final

/-- Whether two paths lead to the same place. -/
def sameFile (tree : FileTree) (first second : Path) : Bool :=
  match tree.resolve first, tree.resolve second with
  | .ok place, .ok other => place = other
  | _, _ => false

/-- The text that a journal writes last into the file of a path. -/
def lastText? (tree : FileTree) (path : Path) (journal : List (Path × String)) : Option String :=
  ((journal.filter fun file => tree.sameFile file.1 path).map (·.2)).getLast?

namespace History

variable {tree middle final : FileTree} {journal more : List (Path × String)}

theorem append (front : History tree journal middle) (back : History middle more final) :
    History tree (journal ++ more) final := by
  induction front with
  | refl => exact back
  | directory made _ ih => exact .directory made (ih back)
  | file written _ ih => exact .file written (ih back)

theorem grows (done : History tree journal final) : tree.Extends final := by
  induction done with
  | refl => exact ⟨fun _ directory => directory, fun _ present => present⟩
  | directory made _ ih => exact (makeDirectory_eq_ok made).1.trans ih
  | file written _ ih => exact (write_eq_ok written).1.trans ih

/-- A file that is there is read with the text that was written last into its place. -/
theorem readText (done : History tree journal final) {path : Path} {place : Place} {text : String}
    (led : tree.resolve path = .ok place) (there : tree.find? place = some (.file text.toUTF8)) :
    final.readText path = .ok ((final.lastText? path journal).getD text) := by
  -- Whatever is written, the path leads to the same place; only the text there changes from step to step.
  induction done generalizing text with
  | refl tree =>
      have decoded : String.fromUTF8? text.toUTF8 = some text := by
        simpa [String.fromUTF8?] using ⟨text.isValidUTF8, rfl⟩
      simp only [FileTree.readText, led, bind, Except.bind, there, decoded]
      rfl
  | directory made _ ih =>
      obtain ⟨grows, spot, free, kept⟩ := makeDirectory_eq_ok made
      have other : place ≠ spot := by
        rintro rfl
        rw [free] at there
        cases there
      exact ih (grows.resolve led) (by rw [kept place other, there])
  | @file _ _ final _ other _ written rest ih =>
      obtain ⟨grows, spot, leads, -, kept⟩ := write_eq_ok written
      have met : final.sameFile other path = decide (spot = place) := by
        simp only [sameFile, rest.grows.resolve leads, rest.grows.resolve (grows.resolve led)]
      by_cases same : place = spot
      · rw [ih (grows.resolve led) (by rw [kept, if_pos same])]
        simp [lastText?, met, same, List.getLast?_cons]
      · rw [ih (grows.resolve led) (by rw [kept, if_neg same, there])]
        simp [lastText?, met, Ne.symm same]

end History
end FileTree
end LuaMinifier
