import LuaMinifier.Proofs.Leaves
import LuaMinifier.Proofs.Places

/-!
The slices of a text: put one behind the other, its blanks, comments and tokens are the text again, up to its end or to
the first fault. Each slice is written as it stands there, and its place is counted in the bytes in front of it.
-/

namespace LuaMinifier

open Lexeme hiding Kind

/-- The place behind a text, counted in its bytes: lines from one, columns from zero. -/
def place (before : List Char) : Position := ⟨1 + lineFeeds (utf8 before), bytesSinceLineFeed (utf8 before)⟩

theorem place_eq (before : List Char) : place before = Position.start.after before :=
  (Position.after_lineStart 1 before).symm

namespace Lexeme

def opening (level : Nat) : List Char := '[' :: (List.replicate level '=' ++ ['['])

def closing (level : Nat) : List Char := ']' :: (List.replicate level '=' ++ [']'])

/-- A long bracket around a body. It ends at the first closing bracket of its level. -/
def Bracketed (text body : List Char) : Prop :=
  ∃ level, text = opening level ++ body ++ closing level ∧
    ∀ before behind, body ++ closing level = before ++ closing level ++ behind → behind = []

end Lexeme

/-- A lexeme with the text that it takes. -/
structure Slice where
  kind : Lexeme.Kind
  text : List Char

namespace Slice

/-- The slice is written as its kind says. Only a comment on a line may keep less than its text: not the carriage return
that ends the line. -/
def Exact : Slice → Prop
  | ⟨.blank, text⟩ => text ≠ [] ∧ ∀ character ∈ text, isBlank character = true
  | ⟨.token kind, text⟩ => text ≠ [] ∧ text = kind.chars ∧ kind ≠ .eof ∧
      ∀ raw, kind = .string raw → text.head? = some '[' → ∃ body, Bracketed text body
  | ⟨.comment raw value, text⟩ =>
      (text = raw.toList ∧ ∃ bracket, text = '-' :: '-' :: bracket ∧ Bracketed bracket value.toList) ∨
        ((text = raw.toList ∨ text = raw.toList ++ ['\r']) ∧ raw.toList = '-' :: '-' :: value.toList ∧ '\n' ∉ text)

def joined (slices : List Slice) : List Char := slices.flatMap (·.text)

@[simp] theorem joined_nil : joined [] = [] := rfl

@[simp] theorem joined_cons (slice : Slice) (rest : List Slice) :
    joined (slice :: rest) = slice.text ++ joined rest := rfl

/-- Slices that follow a text, each with its place. -/
def placed (before : List Char) : List Slice → List (Slice × Position)
  | [] => []
  | slice :: rest => (slice, place before) :: placed (before ++ slice.text) rest

def token? : Slice × Position → Option Token
  | (⟨.token kind, _⟩, position) => some ⟨kind, position⟩
  | _ => none

def comment? : Slice × Position → Option Comment
  | (⟨.comment raw value, _⟩, position) => some ⟨raw, value, position⟩
  | _ => none

end Slice

namespace Lexeme

theorem longBodyLength_first {level : Nat} {text : List Char} {count total : Nat}
    (closed : longBodyLength level text count = some total) (before behind : List Char)
    (split : text = before ++ closing level ++ behind) : total ≤ count + before.length := by
  induction before generalizing text count with
  | nil =>
      have closes : closesLevel level (List.replicate level '=' ++ [']'] ++ behind) = true :=
        (closesLevel_iff level _).mpr ⟨behind, by simp⟩
      subst split
      simp only [closing, List.nil_append, List.cons_append, longBodyLength, closes] at closed
      simp at closed
      omega
  | cons character before ih =>
      subst split
      simp only [List.cons_append, longBodyLength] at closed
      split at closed
      · cases closed
        omega
      · have below := ih closed rfl
        rw [List.length_cons]
        omega

theorem exists_bracketed {level length : Nat} {rest : List Char} (opened : openingLevel rest = some level)
    (closed : longBodyLength level (rest.drop (level + 1)) 0 = some length) :
    ∃ bracket behind, '[' :: rest = bracket ++ behind ∧ bracket.length = length + 2 * (level + 2) ∧
      Bracketed bracket ((rest.drop (level + 1)).take length) := by
  obtain ⟨inner, rfl⟩ := (openingLevel_eq_some _ _).mp opened
  have dropped : (List.replicate level '=' ++ '[' :: inner).drop (level + 1) = inner := by simp [List.drop_append]
  rw [dropped] at closed ⊢
  obtain ⟨body, behind, rfl, rfl, again⟩ := longBodyLength_local closed
  refine ⟨opening level ++ body ++ closing level, behind, by simp [opening, closing], ?_, level, ?_, ?_⟩
  · simp only [opening, closing, List.length_append, List.length_cons, List.length_replicate, List.length_nil]
    omega
  · simp
  · intro before rest same
    simp only [Nat.zero_add, List.take_left] at same
    have first : 0 + body.length ≤ 0 + before.length :=
      longBodyLength_first (again [] 0) before rest (by rw [← same, closing])
    have lengths := congrArg List.length same
    simp only [List.length_append] at lengths
    exact List.eq_nil_of_length_eq_zero (by omega)

theorem eq_dropReturn (line : List Char) : line = dropReturn line ∨ line = dropReturn line ++ ['\r'] := by
  unfold dropReturn
  split
  next ends =>
    obtain ⟨front, rfl⟩ := List.getLast?_eq_some_iff.mp ends
    exact .inr (by rw [List.dropLast_concat])
  next => exact .inl rfl

theorem exact_of_readLine {body : List Char} {lexeme : Lexeme} (read : readComment.readLine body = .ok lexeme) :
    lexeme.tail ≤ body.length + 1 ∧ Slice.Exact ⟨lexeme.kind, '-' :: ('-' :: body).take lexeme.tail⟩ := by
  have front : body.takeWhile (· ≠ '\n') <+: body := List.takeWhile_prefix _
  have single : '\n' ∉ body.takeWhile (· ≠ '\n') := fun member => by
    simpa using List.all_eq_true.mp List.all_takeWhile '\n' member
  cases read
  generalize body.takeWhile (· ≠ '\n') = line at front single ⊢
  have whole : ('-' :: body).take (1 + line.length) = '-' :: line := by
    rw [Nat.add_comm, List.take_succ_cons, ← List.prefix_iff_eq_take.mp front]
  have bound : 1 + line.length ≤ body.length + 1 := by
    have := front.length_le
    omega
  refine ⟨bound, .inr ?_⟩
  simp only [whole, String.toList_ofList, List.cons_append, List.cons.injEq, true_and, List.mem_cons, not_or]
  exact ⟨eq_dropReturn line, by decide, by decide, single⟩

theorem exact_of_readComment {body : List Char} {lexeme : Lexeme} (read : readComment body = .ok lexeme) :
    lexeme.tail ≤ body.length + 1 ∧ Slice.Exact ⟨lexeme.kind, '-' :: ('-' :: body).take lexeme.tail⟩ := by
  unfold readComment at read
  split at read
  next rest =>
    split at read
    next level opened =>
      dsimp only at read
      split at read
      next length closed =>
        cases read
        obtain ⟨bracket, behind, same, count, bracketed⟩ := exists_bracketed opened closed
        rw [← count, same]
        refine ⟨by simp; omega, .inl ⟨by simp [textOf], bracket, ?_, ?_⟩⟩
        · rw [Nat.add_comm 1, List.take_succ_cons, List.take_left]
        · rw [String.toList_ofList]
          exact bracketed
      next => cases read
    next => exact exact_of_readLine read
  next => exact exact_of_readLine read

theorem bracketed_of_readBracket {rest : List Char} {raw : String} {tail : Nat}
    (read : readBracket rest = .ok ⟨.token (.string raw), tail⟩) : ∃ body, Bracketed ('[' :: rest.take tail) body := by
  unfold readBracket at read
  split at read
  next level opened =>
    split at read
    next length closed =>
      cases read
      obtain ⟨bracket, behind, same, count, bracketed⟩ := exists_bracketed opened closed
      have whole : '[' :: rest.take (length + 2 * (level + 2) - 1) = bracket := by
        rw [← List.take_succ_cons, same, Nat.sub_add_cancel (by omega), ← count, List.take_left]
      exact ⟨_, whole ▸ bracketed⟩
    next => cases read
  next =>
    unfold readSymbol at read
    split at read <;> cases read

theorem blank_of_read {first : Char} {rest : List Char} {tail : Nat}
    (read : Lexeme.read first rest = .ok ⟨.blank, tail⟩) : isBlank first = true ∧ tail = countWhile isBlank rest := by
  unfold Lexeme.read at read
  split at read
  next blank =>
    cases read
    exact ⟨blank, rfl⟩
  next =>
    unfold readComment readComment.readLine readQuoted readBracket readNumeral readWord readSymbol at read
    grind

theorem comment_of_read {first : Char} {rest : List Char} {raw value : String} {tail : Nat}
    (read : Lexeme.read first rest = .ok ⟨.comment raw value, tail⟩) :
    first = '-' ∧ ∃ body, rest = '-' :: body ∧ readComment body = .ok ⟨.comment raw value, tail⟩ := by
  unfold Lexeme.read at read
  split at read
  next => cases read
  split at read
  next hyphens =>
    obtain ⟨rfl, head⟩ : first = '-' ∧ rest.head? = some '-' := by simpa using hyphens
    obtain ⟨body, rfl⟩ := List.head?_eq_some_iff.mp head
    exact ⟨rfl, body, rfl, read⟩
  next =>
    unfold readQuoted readBracket readNumeral readWord readSymbol at read
    grind

theorem exact_of_read {first : Char} {rest : List Char} {lexeme : Lexeme}
    (read : Lexeme.read first rest = .ok lexeme) : Slice.Exact ⟨lexeme.kind, first :: rest.take lexeme.tail⟩ := by
  obtain ⟨kind, tail⟩ := lexeme
  cases kind with
  | blank =>
      obtain ⟨blank, rfl⟩ := blank_of_read read
      refine ⟨List.cons_ne_nil _ _, List.forall_mem_cons.mpr ⟨blank, ?_⟩⟩
      have front : rest.takeWhile isBlank <+: rest := List.takeWhile_prefix _
      have blanks : rest.take (countWhile isBlank rest) = rest.takeWhile isBlank :=
        (List.prefix_iff_eq_take.mp front).symm
      rw [blanks]
      exact List.all_eq_true.mp List.all_takeWhile
  | comment raw value =>
      obtain ⟨rfl, body, rfl, comment⟩ := comment_of_read read
      exact (exact_of_readComment comment).2
  | token kind =>
      refine ⟨List.cons_ne_nil _ _, (chars_of_read read).symm, ?_, ?_⟩
      · rintro rfl
        exact absurd (chars_of_read read) (List.cons_ne_nil _ _).symm
      rintro raw rfl bracket
      obtain rfl : first = '[' := by simpa using bracket
      have opened : Lexeme.read '[' rest = readBracket rest := by simp [Lexeme.read, isBlank]
      exact bracketed_of_readBracket (opened ▸ read)

end Lexeme

namespace Slice

/-- A text is cut into slices up to a rest. No cut asks for more characters than there are. -/
inductive Cuts : List Char → List Slice → List Char → Prop
  | stop (rest : List Char) : Cuts rest [] rest
  | slice {first : Char} {tail behind rest : List Char} {kind : Lexeme.Kind} {slices : List Slice} :
      Lexeme.read first (tail ++ behind) = .ok ⟨kind, tail.length⟩ → Cuts behind slices rest →
        Cuts (first :: tail ++ behind) (⟨kind, first :: tail⟩ :: slices) rest

theorem Cuts.exact {text rest : List Char} {slices : List Slice} (cuts : Cuts text slices rest) :
    ∀ slice ∈ slices, slice.Exact := by
  induction cuts with
  | stop => simp
  | slice read _ ih =>
      have first := exact_of_read read
      rw [List.take_left] at first
      exact List.forall_mem_cons.mpr ⟨first, ih⟩

/-- What comes of slices that follow a text. Without a rest it is their tokens and comments, at their places, and the
end of the text as the last token; otherwise it is the fault with which the rest begins, reported inside of it. -/
def Ends (before : List Char) (slices : List Slice) (rest : List Char) : Except SyntaxError Lexed → Prop
  | .ok lexed => rest = [] ∧ lexed.comments = (placed before slices).filterMap comment? ∧
      lexed.listing = (placed before slices).filterMap token? ++ [⟨.eof, place (before ++ joined slices)⟩]
  | .error error => ∃ first behind fault, rest = first :: behind ∧ Lexeme.read first behind = .error fault ∧
      fault.offset ≤ rest.length ∧
        error = ⟨fault.cause, place (before ++ joined slices ++ rest.take fault.offset)⟩

theorem Ends.cons {before rest : List Char} {slice : Slice} {slices : List Slice}
    {ended : Except SyntaxError Lexed} (ends : Ends (before ++ slice.text) slices rest ended) :
    Ends before (slice :: slices) rest (ended.map (·.cons slice.kind (place before))) := by
  have longer : before ++ joined (slice :: slices) = before ++ slice.text ++ joined slices := by
    rw [joined_cons, List.append_assoc]
  cases ended with
  | error error =>
      obtain ⟨first, behind, fault, split, read, inside, same⟩ := ends
      exact ⟨first, behind, fault, split, read, inside, longer ▸ same⟩
  | ok lexed =>
      obtain ⟨done, comments, listing⟩ := ends
      obtain ⟨kind, text⟩ := slice
      refine ⟨done, ?_, ?_⟩
      · cases kind with
        | blank | token => exact comments
        | comment raw value => exact congrArg (List.cons _) comments
      · rw [longer]
        cases kind with
        | blank | comment => exact listing
        | token kind => exact congrArg (List.cons _) listing

end Slice

-- The letter in quotes has two bytes, the comment lacks its carriage return, and the bracket ends before the last sign.
example : tokenize "#!lua\n'é' --c\r\n[[]]]" = .ok
    ⟨[⟨.string "'é'", 2, 0⟩, ⟨.string "[[]]", 3, 0⟩, ⟨.symbol .rightBracket, 3, 4⟩], [⟨"--c", "c", 2, 5⟩], 3, 5⟩ := by
  cbv

end LuaMinifier
