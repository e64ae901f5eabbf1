import LuaMinifier.FileTree
import Mathlib.Data.List.TakeWhile

/-!
Where modules are looked for. The parts of a module's name lead from one directory to the next, so that behind a root
the path of the module stays below it. But a part that starts with a slash is an absolute path: it puts aside what stands
before it, and the root as well.
-/

namespace LuaMinifier
namespace Path

section Heads

theorem splitHead_root_iff {text : List Char} : (splitHead text).1 = .root ↔ text.head? = some '/' := by
  unfold splitHead
  split
  · simp
  · simp
  · simp
  next apart _ _ =>
    cases text with
    | nil => simp
    | cons first rest =>
        simp only [reduceCtorEq, List.head?_cons, Option.some.injEq, false_iff]
        rintro rfl
        exact apart rest rfl

theorem isAbsolute_iff {path : Path} : path.isAbsolute = true ↔ path.text.toList.head? = some '/' := by
  rw [isAbsolute, decide_eq_true_iff, head, splitHead_root_iff]

theorem splitHead_plain {text : List Char} (slash : text.head? ≠ some '/') (point : text.head? ≠ some '.') :
    splitHead text = (.none, text) := by
  unfold splitHead
  split <;> simp_all

theorem splitHead_none {text : List Char} (plain : (splitHead text).1 = .none) : (splitHead text).2 = text := by
  unfold splitHead at plain ⊢
  split at plain <;> simp_all

theorem splitHead_suffix (text : List Char) : (splitHead text).2 <:+ text := by
  unfold splitHead
  split <;> simp

theorem splitHead_append {text : List Char} (some : text ≠ []) (more : List Char) :
    splitHead (text ++ '/' :: more) = ((splitHead text).1, (splitHead text).2 ++ '/' :: more) := by
  have hidden {second : Char} {rest : List Char} (slash : second ≠ '/') :
      splitHead ('.' :: second :: rest) = (.none, '.' :: second :: rest) := by
    unfold splitHead
    split <;> simp_all
  obtain _ | ⟨first, rest⟩ := text
  · exact absurd rfl some
  · by_cases slash : first = '/'
    · simp [slash, splitHead]
    · by_cases point : first = '.'
      · subst point
        obtain _ | ⟨second, others⟩ := rest
        · rfl
        · by_cases slash : second = '/'
          · simp [slash, splitHead]
          · simp [hidden slash]
      · rw [splitHead_plain, splitHead_plain] <;> simp [slash, point]

end Heads

section Components

/-- The component that the head of a path is. -/
def Head.components : Head → List Component
  | .none => []
  | .root => [.root]
  | .current => [.current]

/-- The components that the text behind a head gives. -/
def componentsOf (text : List Char) : List Component :=
  (((cutChars '/' text).map String.ofList).filter (!isTrivial ·)).map Component.ofSegment

theorem components_eq (path : Path) :
    path.components = path.head.components ++ componentsOf (splitHead path.text.toList).2 := by
  rw [components, componentsOf, segments]
  cases path.head <;> rfl

theorem components_plain {path : Path} (plain : path.head = .none) :
    path.components = componentsOf path.text.toList := by
  rw [components_eq, plain, splitHead_none plain]
  rfl

theorem componentsOf_append (text more : List Char) :
    componentsOf (text ++ '/' :: more) = componentsOf text ++ componentsOf more := by
  simp only [componentsOf, cutChars_append, List.map_append, List.filter_append]

theorem components_behind {path : Path} (some : path.text.toList ≠ []) {longer : Path} {more : List Char}
    (same : longer.text.toList = path.text.toList ++ '/' :: more) :
    longer.components = path.components ++ componentsOf more := by
  rw [components_eq, components_eq, head, head, same, splitHead_append some, componentsOf_append, List.append_assoc]

theorem componentsOf_nil : componentsOf [] = [] := by decide

theorem components_behind_slash {path longer : Path} {front more : List Char}
    (slash : path.text.toList = front ++ ['/']) (same : longer.text.toList = path.text.toList ++ more) :
    longer.components = path.components ++ componentsOf more := by
  rw [slash, List.append_assoc, List.singleton_append] at same
  by_cases some : front = []
  · subst some
    rw [components_eq, components_eq, head, head, same, slash]
    simp [splitHead, componentsOf_nil, Head.components]
  · have known : (⟨String.ofList front⟩ : Path).text.toList ≠ [] := by simpa using some
    have whole : path.components = (⟨String.ofList front⟩ : Path).components ++ componentsOf [] :=
      components_behind known (by simpa using slash)
    have further : longer.components = (⟨String.ofList front⟩ : Path).components ++ componentsOf more :=
      components_behind known (by simpa using same)
    rw [further, whole, componentsOf_nil, List.append_nil]

theorem components_push (root : Path) {path : Path} (plain : path.head = .none) :
    (root.push path).components = root.components ++ path.components := by
  have relative : path.isAbsolute = false := by simp [isAbsolute, plain]
  rw [components_plain plain, push, if_neg (by simp [relative])]
  split
  next closed =>
    simp only [Bool.or_eq_true, String.isEmpty_iff, decide_eq_true_eq] at closed
    rcases closed with empty | slash
    · have nothing : root.components = [] := by
        rw [components_plain] <;> simp [head, empty, splitHead, componentsOf, cutChars, isTrivial]
      have same : (⟨root.text ++ path.text⟩ : Path) = path := by simp [empty]
      rw [nothing, same, components_plain plain, List.nil_append]
    · obtain ⟨front, split⟩ := List.getLast?_eq_some_iff.mp slash
      exact components_behind_slash split (by simp)
  next open' =>
    simp only [Bool.or_eq_true, String.isEmpty_iff, decide_eq_true_eq, not_or] at open'
    refine components_behind ?_ (by simp)
    simpa using open'.1

end Components

section Modules

theorem isAbsolute_push (path further : Path) :
    (path.push further).isAbsolute = (path.isAbsolute || further.isAbsolute) := by
  rw [Bool.eq_iff_iff, Bool.or_eq_true, push]
  split
  next absolute => simp [absolute]
  next relative =>
    simp only [relative, isAbsolute_iff]
    rw [isAbsolute_iff] at relative
    by_cases empty : path.text.toList = []
    · have same : path.text = "" := by simpa using empty
      simp [same, relative]
    · obtain ⟨first, rest, starts⟩ := List.exists_cons_of_ne_nil empty
      split <;> simp [starts]

theorem isAbsolute_foldl_push (parts : List String) (path : Path) :
    (parts.foldl (fun path part => path.push ⟨part⟩) path).isAbsolute =
      (path.isAbsolute || parts.any fun part => isAbsolute ⟨part⟩) := by
  induction parts generalizing path with
  | nil => simp
  | cons part parts ih => rw [List.foldl_cons, ih, isAbsolute_push, List.any_cons, Bool.or_assoc]

theorem not_mem_push {path further : Path} {symbol : Char} (slash : symbol ≠ '/')
    (before : symbol ∉ path.text.toList) (behind : symbol ∉ further.text.toList) :
    symbol ∉ (path.push further).text.toList := by
  rw [push]
  split
  · exact behind
  · split <;> simp [before, behind, slash]

theorem not_mem_foldl_push {parts : List String} {path : Path} {symbol : Char} (slash : symbol ≠ '/')
    (before : symbol ∉ path.text.toList) (behind : ∀ part ∈ parts, symbol ∉ part.toList) :
    symbol ∉ (parts.foldl (fun path part => path.push ⟨part⟩) path).text.toList := by
  induction parts generalizing path with
  | nil => exact before
  | cons part parts ih =>
      have each := List.forall_mem_cons.mp behind
      exact ih (not_mem_push slash before each.1) each.2

theorem splitName_of_not_mem {name : String} (whole : '.' ∉ name.toList) : splitName name = (name, none) := by
  have nothing : name.toList.reverse.dropWhile (fun symbol => decide (symbol ≠ '.')) = [] := by
    rw [List.dropWhile_eq_nil_iff]
    intro symbol member
    simp only [ne_eq, decide_not, Bool.not_eq_eq_eq_not, Bool.not_true, decide_eq_false_iff_not]
    rintro rfl
    exact whole (List.mem_reverse.mp member)
  rw [splitName, nothing]

theorem trimSegments_front (segments : List String) : trimSegments segments <+: segments := by
  rw [trimSegments, ← List.reverse_suffix, List.reverse_reverse]
  exact List.dropWhile_suffix _

theorem mem_of_mem_segments {path : Path} {segment : String} {symbol : Char} (member : segment ∈ path.segments)
    (inside : symbol ∈ segment.toList) : symbol ∈ path.text.toList := by
  obtain ⟨part, found, rfl⟩ := List.mem_map.mp member
  rw [String.toList_ofList] at inside
  exact (splitHead_suffix path.text.toList).subset (mem_of_mem_cutChars found inside).1

theorem text_ne_nil {path : Path} (left : trimSegments path.segments ≠ []) : path.text.toList ≠ [] := by
  intro nothing
  rw [segments, nothing] at left
  exact left rfl

theorem head?_ofSegments {path : Path} (whole : '.' ∉ path.text.toList) (left : trimSegments path.segments ≠ []) :
    (ofSegments path.head (trimSegments path.segments)).text.toList.head? = path.text.toList.head? := by
  by_cases slash : path.text.toList.head? = some '/'
  · rw [ofSegments, head, splitHead_root_iff.mpr slash, slash]
    simp [Head.text]
  · have point : path.text.toList.head? ≠ some '.' := fun first => whole (List.mem_of_head? first)
    have plain := splitHead_plain slash point
    obtain ⟨segment, others, trimmed⟩ := List.exists_cons_of_ne_nil left
    obtain ⟨dropped, split⟩ := trimSegments_front path.segments
    rw [trimmed, segments, plain] at split
    rw [ofSegments, head, plain, trimmed]
    obtain ⟨first, rest, text⟩ := List.exists_cons_of_ne_nil (text_ne_nil left)
    have different : first ≠ '/' := by
      rintro rfl
      exact slash (by rw [text]; rfl)
    obtain ⟨part, parts, found⟩ := List.exists_cons_of_ne_nil (cutChars_ne_nil '/' rest)
    rw [text, cutChars, found] at split
    simp only [different, ↓reduceIte, List.map_cons, List.cons_append, List.cons.injEq] at split
    rw [text]
    cases others <;> simp [Head.text, split.1]

theorem head?_withExtension {path : Path} (whole : '.' ∉ path.text.toList) (extension : String) :
    (path.withExtension extension).text.toList.head? = path.text.toList.head? := by
  unfold withExtension fileStem fileName
  cases last : (trimSegments path.segments).getLast? with
  | none => rfl
  | some segment =>
      obtain ⟨front, trimmed⟩ := List.getLast?_eq_some_iff.mp last
      have member : segment ∈ path.segments :=
        (trimSegments_front path.segments).subset (by simp [trimmed])
      have pointless : '.' ∉ segment.toList := fun inside => whole (mem_of_mem_segments member inside)
      have named : segment ≠ ".." := by
        rintro rfl
        exact pointless (by decide)
      have kept := head?_ofSegments whole (by simp [trimmed])
      simp only [if_neg named, Option.map_some, splitName_of_not_mem pointless]
      rw [trimmed, List.dropLast_concat, ← trimmed]
      split
      · exact kept
      · have written : path.text.toList ≠ [] := text_ne_nil (by simp [trimmed])
        obtain ⟨first, rest, text⟩ := List.exists_cons_of_ne_nil written
        rw [text] at kept ⊢
        simp [kept]

/-- The path of a module starts with a slash exactly if a part of its name does, and it never starts with a point. -/
theorem head_ofModule (name extension : String) :
    (ofModule name extension).head =
      if (cut '.' name).any fun part => isAbsolute ⟨part⟩ then .root else .none := by
  have whole : '.' ∉ ((cut '.' name).foldl (fun (path : Path) part => path.push ⟨part⟩) ⟨""⟩).text.toList :=
    not_mem_foldl_push (by decide) (by decide) fun _ => not_mem_of_mem_cut
  have first := head?_withExtension whole extension
  have absolute := isAbsolute_foldl_push (cut '.' name) ⟨""⟩
  split
  next found =>
    rw [found, Bool.or_true, isAbsolute_iff, ← first] at absolute
    exact splitHead_root_iff.mpr absolute
  next relative =>
    rw [eq_false_of_ne_true relative, Bool.or_false] at absolute
    have slash : (ofModule name extension).text.toList.head? ≠ some '/' := by
      intro starts
      rw [ofModule, first, ← isAbsolute_iff, absolute] at starts
      exact absurd starts (by decide)
    have point : (ofModule name extension).text.toList.head? ≠ some '.' := by
      intro starts
      rw [ofModule, first] at starts
      exact whole (List.mem_of_head? starts)
    rw [head, splitHead_plain slash point]

/-- A module is looked for below the root, at the path of its name, unless a part of the name is an absolute path. Then
it is looked for where the name leads without the root, which is below the root only by chance. -/
theorem module_below_root_iff (root : Path) (name extension : String) :
    (root.push (ofModule name extension)).components =
        (if (cut '.' name).any fun part => isAbsolute ⟨part⟩ then (ofModule name extension).components
          else root.components ++ (ofModule name extension).components) ∧
      ((root.push (ofModule name extension)).startsWith root = true ↔
        ((cut '.' name).any fun part => isAbsolute ⟨part⟩) = false ∨
          (ofModule name extension).startsWith root = true) := by
  have starts := head_ofModule name extension
  cases absolute : (cut '.' name).any fun part => isAbsolute ⟨part⟩ with
  | true =>
      rw [absolute, if_pos rfl] at starts
      have alone : root.push (ofModule name extension) = ofModule name extension := by
        rw [push, if_pos (by simp [isAbsolute, starts])]
      simp [alone]
  | false =>
      rw [absolute, if_neg (by decide)] at starts
      have behind := components_push root starts
      refine ⟨by simpa using behind, iff_of_true ?_ (.inl rfl)⟩
      rw [startsWith, behind, List.isPrefixOf_iff_prefix]
      exact List.prefix_append ..

/-- A name that starts with a slash leads out of the root. -/
theorem module_outside_root :
    ((⟨"src"⟩ : Path).push (ofModule "/etc/passwd" "lua")).text = "/etc/passwd.lua" ∧
      ((⟨"src"⟩ : Path).push (ofModule "/etc/passwd" "lua")).startsWith ⟨"src"⟩ = false := by
  decide +kernel

end Modules
end Path
end LuaMinifier
