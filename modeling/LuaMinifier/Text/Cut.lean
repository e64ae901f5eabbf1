/-!
Cutting a text at every place where a separator stands.
-/

namespace LuaMinifier

/-- The parts of a text between separators; a text without a separator is one part. -/
def cutChars (separator : Char) : List Char → List (List Char)
  | [] => [[]]
  | character :: rest =>
    match cutChars separator rest with
    | [] => [[character]]
    | part :: parts => if character = separator then [] :: part :: parts else (character :: part) :: parts

/-- The parts of a text between separators. -/
def cut (separator : Char) (text : String) : List String := (cutChars separator text.toList).map String.ofList

theorem cutChars_eq_splitOn (separator : Char) (text : List Char) :
    cutChars separator text = text.splitOn separator := by
  induction text with
  | nil => rfl
  | cons character rest ih =>
      rw [cutChars, ih, List.splitOn_cons_eq_if_modifyHead]
      cases parts : rest.splitOn separator with
      | nil => exact absurd parts (List.splitOn_ne_nil separator rest)
      | cons part parts => simp only [beq_iff_eq, List.modifyHead_cons]

theorem cutChars_ne_nil (separator : Char) (text : List Char) : cutChars separator text ≠ [] := by
  rw [cutChars_eq_splitOn]
  exact List.splitOn_ne_nil separator text

theorem cutChars_of_not_mem {separator : Char} {text : List Char} (whole : separator ∉ text) :
    cutChars separator text = [text] := by
  rw [cutChars_eq_splitOn]
  exact List.splitOn_eq_singleton whole

theorem cutChars_append (separator : Char) (text more : List Char) :
    cutChars separator (text ++ separator :: more) = cutChars separator text ++ cutChars separator more := by
  simp only [cutChars_eq_splitOn]
  exact List.splitOn_append_cons_self text more

theorem mem_of_mem_cutChars {separator character : Char} {text part : List Char}
    (member : part ∈ cutChars separator text) (inside : character ∈ part) :
    character ∈ text ∧ character ≠ separator := by
  induction text generalizing part with
  | nil => simp_all [cutChars]
  | cons first rest ih =>
      simp only [cutChars] at member
      cases parts : cutChars separator rest with
      | nil => exact absurd parts (cutChars_ne_nil separator rest)
      | cons next others =>
          rw [parts] at ih member
          have later {part : List Char} (member : part ∈ next :: others) (inside : character ∈ part) :
              character ∈ first :: rest ∧ character ≠ separator :=
            (ih member inside).imp_left (List.mem_cons_of_mem first)
          dsimp only at member
          split at member
          next =>
            rcases List.mem_cons.mp member with rfl | member
            · simp at inside
            · exact later member inside
          next different =>
            rcases List.mem_cons.mp member with rfl | member
            · rcases List.mem_cons.mp inside with rfl | inside
              · exact ⟨List.mem_cons_self, different⟩
              · exact later List.mem_cons_self inside
            · exact later (List.mem_cons_of_mem next member) inside

theorem not_mem_of_mem_cut {separator : Char} {text part : String} (member : part ∈ cut separator text) :
    separator ∉ part.toList := by
  obtain ⟨part, found, rfl⟩ := List.mem_map.mp member
  rw [String.toList_ofList]
  exact fun inside => (mem_of_mem_cutChars found inside).2 rfl

/-- The last part stands behind the last separator, if there is one, and further characters lengthen it. -/
theorem exists_last_part (separator : Char) (text : List Char) :
    ∃ front last, cutChars separator text = front ++ [last] ∧
      (text = last ∨ ∃ before, text = before ++ separator :: last) ∧
      ∀ more, separator ∉ more → cutChars separator (text ++ more) = front ++ [last ++ more] := by
  by_cases parted : separator ∈ text
  · obtain ⟨behind, before, split, whole⟩ := List.eq_append_cons_of_mem (List.mem_reverse.mpr parted)
    have same : text = before.reverse ++ separator :: behind.reverse := by
      simpa using congrArg List.reverse split
    have grown (more : List Char) (free : separator ∉ more) :
        cutChars separator (text ++ more) = cutChars separator before.reverse ++ [behind.reverse ++ more] := by
      have last : separator ∉ behind.reverse ++ more := by simp [whole, free]
      rw [same, List.append_assoc, List.cons_append, cutChars_append, cutChars_of_not_mem last]
    refine ⟨_, behind.reverse, ?_, .inr ⟨_, same⟩, grown⟩
    simpa using grown [] List.not_mem_nil
  · refine ⟨[], text, cutChars_of_not_mem parted, .inl rfl, fun more free => cutChars_of_not_mem ?_⟩
    simp [parted, free]

end LuaMinifier
