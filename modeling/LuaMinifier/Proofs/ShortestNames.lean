import LuaMinifier.Proofs.NameOrder
import Mathlib.Data.List.Induction

/-!
Sessions hand out the shortest names there are. What a session answers is compared with a log of all the calls before:
a new name is the first name, by length and then by the alphabet, that the log leaves free.
-/

namespace LuaMinifier

open Lexeme

namespace Session

open Odometer

/-- The odometer steps until it shows a name that is not taken. -/
inductive Finds (session : Session) : Odometer → Odometer → Prop
  | stop {odometer : Odometer} : session.isTaken odometer.advance.current = false →
      Finds session odometer odometer.advance
  | skip {odometer found : Odometer} : session.isTaken odometer.advance.current = true →
      Finds session odometer.advance found → Finds session odometer found

theorem finds_search {session : Session} {steps : Nat} {odometer : Odometer} (some : steps ≠ 0)
    (free : session.isTaken (session.search steps odometer).current = false) :
    session.Finds odometer (session.search steps odometer) := by
  induction steps generalizing odometer with
  | zero => exact absurd rfl some
  | succ steps ih =>
      simp only [search] at free ⊢
      split at free
      next taken =>
        rw [if_pos taken]
        cases steps with
        | zero => exact absurd (taken.symm.trans free) (by simp)
        | succ steps => exact .skip taken (ih (by simp) free)
      next untaken =>
        rw [if_neg untaken]
        exact .stop free

theorem fresh_finds (session : Session) : session.Finds session.odometer session.fresh.1.odometer :=
  finds_search (by simp [enoughSteps]) session.isTaken_fresh

section Found

variable {session : Session} {odometer found : Odometer}

/-- What is passed over is taken. -/
theorem Finds.passes (finds : session.Finds odometer found) {between : Odometer} (shows : between.Shows)
    (after : odometer.rank < between.rank) (before : between.rank < found.rank) :
    session.isTaken between.current = true := by
  induction finds with
  | stop _ => exact absurd (rank_advance_le shows after) (Nat.not_le_of_lt before)
  | skip taken _ ih =>
      rcases Nat.lt_or_eq_of_le (rank_advance_le shows after) with later | same
      · exact ih later before
      · rw [← eq_of_rank same]
        exact taken

theorem Finds.shows (finds : session.Finds odometer found) (lettered : Lettered odometer.places) : found.Shows := by
  induction finds with
  | stop _ => exact advance_lettered lettered
  | skip _ _ ih => exact ih (advance_lettered lettered).2

end Found

/-- The names up to the one that the odometer shows are all taken. -/
structure Spent (session : Session) : Prop where
  lettered : Lettered session.odometer.places
  taken : ∀ {earlier : Odometer}, earlier.Shows → earlier.rank ≤ session.odometer.rank →
    session.isTaken earlier.current = true

theorem isTaken_fresh_iff {session : Session} {name : String} :
    session.fresh.1.isTaken name = true ↔ session.isTaken name = true ∨ name = session.fresh.2 := by
  simp only [isTaken_iff, fresh, Std.HashSet.mem_insert, beq_iff_eq]
  grind

theorem isTaken_reserve_iff {session : Session} {names : List String} {name : String} :
    (session.reserve names).isTaken name = true ↔ name ∈ names ∨ session.isTaken name = true := by
  simp only [isTaken_iff, mem_reserve, show (session.reserve names).assigned = session.assigned from rfl]
  grind

theorem empty_spent : empty.Spent where
  lettered := by simp [empty, start, Lettered]
  taken := by
    intro earlier shows before
    have positive : rankOf [] < earlier.rank := rankOf_lt_of_longer (List.length_pos_of_ne_nil shows.1)
    exact absurd before (Nat.not_le_of_lt positive)

theorem Spent.reserve {session : Session} (spent : session.Spent) (names : List String) :
    (session.reserve names).Spent :=
  ⟨spent.lettered, fun shows before => isTaken_reserve_iff.mpr (.inr (spent.taken shows before))⟩

theorem Spent.fresh {session : Session} (spent : session.Spent) : session.fresh.1.Spent where
  lettered := (session.fresh_finds.shows spent.lettered).2
  taken := by
    intro earlier shows before
    rw [isTaken_fresh_iff]
    rcases Nat.lt_or_eq_of_le before with less | same
    · rcases Nat.lt_or_ge session.odometer.rank earlier.rank with after | old
      · exact .inl (session.fresh_finds.passes shows after less)
      · exact .inl (spent.taken shows old)
    · exact .inr (congrArg current (eq_of_rank same))

theorem Spent.fresh_precedes {session : Session} (spent : session.Spent) {name : String}
    (isName : Lexeme.isName name.toList = true) (free : session.isTaken name = false)
    (different : name ≠ session.fresh.2) : Precedes session.fresh.2 name := by
  obtain ⟨odometer, shows, rfl⟩ := exists_shows isName
  refine precedes_of_rank_lt (Nat.lt_of_not_le fun before => ?_)
  have taken : session.fresh.1.isTaken odometer.current = true := spent.fresh.taken shows before
  rw [isTaken_fresh_iff, free] at taken
  exact taken.elim (by simp) different

theorem Spent.fresh_length_le {session : Session} (spent : session.Spent) {name : String}
    (isName : Lexeme.isName name.toList = true) (free : session.isTaken name = false) :
    session.fresh.2.toList.length ≤ name.toList.length := by
  by_cases same : name = session.fresh.2
  · rw [same]
  · rcases List.shortlex_def.mp (spent.fresh_precedes isName free same) with shorter | ⟨equal, _⟩
    · exact Nat.le_of_lt shorter
    · exact Nat.le_of_eq equal

theorem Spent.fresh_eq {session other : Session} (spent : session.Spent) (spent' : other.Spent)
    (same : ∀ name, session.isTaken name = other.isTaken name) : session.fresh.2 = other.fresh.2 := by
  by_contra different
  have isName {session : Session} (spent : session.Spent) : Lexeme.isName session.fresh.2.toList = true :=
    isName_current (session.fresh_finds.shows spent.lettered)
  have before := spent.fresh_precedes (isName spent') ((same _).trans other.isTaken_fresh) (Ne.symm different)
  have after := spent'.fresh_precedes (isName spent) ((same _).symm.trans session.isTaken_fresh) different
  exact before.asymm after

/-- The short names of a session are names of the language. -/
structure Names (session : Session) : Prop where
  lettered : Lettered session.odometer.places
  written : ∀ {name short}, session.binding? name = some short → (Token.Kind.name short).Written

theorem Names.rename {session : Session} (names : session.Names) (name : String) : (session.rename name).1.Names := by
  rcases session.rename_cases name with ⟨_, same⟩ | ⟨_, ⟨short, _, same⟩ | ⟨_, same⟩⟩ <;> rw [same]
  · exact names
  · exact names
  · have shows := session.fresh_finds.shows names.lettered
    refine ⟨shows.2, fun {other short} bound => ?_⟩
    rw [binding_bind] at bound
    split at bound
    next =>
      obtain rfl := Option.some.inj bound
      have free := session.isTaken_fresh
      simp only [isTaken, isReserved, isKeyword, Bool.or_eq_false_iff] at free
      exact ⟨isName_current shows, by simpa using free.1.1.1⟩
    next => exact names.written bound

theorem Names.shortName_written {session : Session} (names : session.Names) (name : String) :
    (Token.Kind.name (session.shortName name)).Written := by
  have preserved : (Token.Kind.name preservedName).Written := ⟨by decide, by decide⟩
  unfold shortName
  split
  · exact preserved
  · cases bound : session.binding? name with
    | none => exact preserved
    | some short => exact names.written bound

/-- What a session can be asked to do. -/
inductive Call where
  | reserve (names : List String)
  | rename (name : String)
  | fresh
deriving DecidableEq, Repr

/-- What a call leaves behind and what it answers. -/
def call (session : Session) : Call → Session × Option String
  | .reserve names => (session.reserve names, none)
  | .rename name => ((session.rename name).1, some (session.rename name).2)
  | .fresh => (session.fresh.1, some session.fresh.2)

/-- The calls so far with their answers, the last one first. -/
abbrev Log := List (Call × Option String)

namespace Log

def reserved : Log → List String
  | [] => []
  | (.reserve names, _) :: earlier => names ++ reserved earlier
  | _ :: earlier => reserved earlier

/-- The first answer to a name. -/
def short? (name : String) : Log → Option String
  | [] => none
  | (call, answer) :: earlier => (short? name earlier).or (if call = .rename name then answer else none)

/-- Whether a call is answered by a new name. -/
def asksNew (earlier : Log) : Call → Bool
  | .reserve _ => false
  | .rename name => name ≠ "self" ∧ short? name earlier = none
  | .fresh => true

def given : Log → List String
  | [] => []
  | (call, answer) :: earlier => if asksNew earlier call then answer.toList ++ given earlier else given earlier

/-- A name that can still be handed out. -/
structure Free (log : Log) (name : String) : Prop where
  isName : Lexeme.isName name.toList = true
  noKeyword : isKeyword name = false
  different : name ≠ "self"
  unreserved : name ∉ log.reserved
  unused : name ∉ log.given

/-- The first name that can still be handed out. -/
structure Shortest (log : Log) (name : String) : Prop where
  free : log.Free name
  precedes : ∀ {other}, log.Free other → other ≠ name → Precedes name other

/-- What a call has to answer after the calls of a log. -/
def Due (earlier : Log) : Call → Option String → Prop
  | .reserve _, answer => answer = none
  | .rename name, answer =>
    if name = "self" then answer = some "self"
    else
      match earlier.short? name with
      | some short => answer = some short
      | none => ∃ short, answer = some short ∧ earlier.Shortest short
  | .fresh, answer => ∃ short, answer = some short ∧ earlier.Shortest short

/-- Every call was answered as it had to be. -/
def Kept : Log → Prop
  | [] => True
  | (call, answer) :: earlier => Due earlier call answer ∧ Kept earlier

/-- New names are names of the language and different from each other. -/
theorem Kept.given {log : Log} (kept : log.Kept) : log.given.Nodup ∧ ∀ name ∈ log.given,
    Lexeme.isName name.toList = true ∧ isKeyword name = false ∧ name ≠ "self" := by
  induction log with
  | nil => simp [Log.given]
  | cons entry earlier ih =>
      obtain ⟨call, answer⟩ := entry
      obtain ⟨due, before⟩ := kept
      obtain ⟨nodup, valid⟩ := ih before
      have new : asksNew earlier call = true → ∃ short, answer = some short ∧ Shortest earlier short := by
        intro asks
        cases call with
        | reserve names => simp [asksNew] at asks
        | rename name =>
            simp only [asksNew, decide_eq_true_eq] at asks
            simpa [Due, asks.1, asks.2] using due
        | fresh => exact due
      rw [Log.given]
      split
      next asks =>
        obtain ⟨short, rfl, shortest⟩ := new asks
        have free := shortest.free
        refine ⟨List.nodup_cons.mpr ⟨free.unused, nodup⟩, List.forall_mem_cons.mpr ⟨?_, valid⟩⟩
        exact ⟨free.isName, free.noKeyword, free.different⟩
      next => exact ⟨nodup, valid⟩

end Log

/-- A session that was called and the log of the calls. -/
structure Recalls (session : Session) (log : Log) : Prop where
  spent : session.Spent
  reserved : ∀ name, name ∈ session.reserved ↔ name ∈ log.reserved
  given : ∀ name, name ∈ session.assigned ↔ name ∈ log.given
  short : ∀ {name}, name ≠ preservedName → session.binding? name = log.short? name

section Logged

variable {session : Session} {log : Log}

theorem Recalls.free_iff (recalls : session.Recalls log) {name : String} :
    log.Free name ↔ Lexeme.isName name.toList = true ∧ session.isTaken name = false := by
  rw [← Bool.not_eq_true, isTaken_iff, recalls.reserved, recalls.given]
  constructor
  · intro free
    have keyword := free.noKeyword
    exact ⟨free.isName, by simp [keyword, free.unreserved, free.unused, show name ≠ preservedName from free.different]⟩
  · rintro ⟨isName, untaken⟩
    simp only [not_or, Bool.not_eq_true] at untaken
    exact ⟨isName, untaken.1, untaken.2.2.2, untaken.2.1, untaken.2.2.1⟩

theorem Recalls.shortest (recalls : session.Recalls log) : log.Shortest session.fresh.2 where
  free := recalls.free_iff.mpr
    ⟨isName_current (session.fresh_finds.shows recalls.spent.lettered), session.isTaken_fresh⟩
  precedes := fun free different =>
    recalls.spent.fresh_precedes (recalls.free_iff.mp free).1 (recalls.free_iff.mp free).2 different

theorem Recalls.empty : Session.empty.Recalls [] :=
  ⟨empty_spent, by simp [Session.empty, Log.reserved], by simp [Session.empty, Log.given],
    by simp [Session.empty, binding?, Log.short?]⟩

theorem Recalls.reserve (recalls : session.Recalls log) (names : List String) :
    (session.reserve names).Recalls ((.reserve names, none) :: log) where
  spent := recalls.spent.reserve names
  reserved := by
    intro name
    rw [mem_reserve, recalls.reserved, Log.reserved, List.mem_append]
  given := recalls.given
  short := by
    intro name different
    exact (recalls.short different).trans (by simp [Log.short?])

theorem Recalls.fresh (recalls : session.Recalls log) :
    session.fresh.1.Recalls ((.fresh, some session.fresh.2) :: log) where
  spent := recalls.spent.fresh
  reserved := recalls.reserved
  given := by
    intro name
    simp only [Session.fresh, Std.HashSet.mem_insert, beq_iff_eq, recalls.given, Log.given, Log.asksNew]
    simp [eq_comm]
  short := by
    intro name different
    exact (recalls.short different).trans (by simp [Log.short?])

theorem Recalls.rename (recalls : session.Recalls log) (name : String) :
    (session.rename name).1.Recalls ((.rename name, some (session.rename name).2) :: log) := by
  rcases session.rename_cases name with ⟨rfl, same⟩ | ⟨different, ⟨short, bound, same⟩ | ⟨unbound, same⟩⟩ <;> rw [same]
  · refine ⟨recalls.spent, recalls.reserved, ?_, fun {other} different => ?_⟩
    · simpa [Log.given, Log.asksNew, preservedName] using recalls.given
    · simp [Log.short?, recalls.short different, Ne.symm different]
  · have logged := recalls.short different
    rw [bound] at logged
    refine ⟨recalls.spent, recalls.reserved, ?_, fun {other} different => ?_⟩
    · simpa [Log.given, Log.asksNew, ← logged] using recalls.given
    · rw [recalls.short different, Log.short?]
      split
      next same =>
        obtain rfl := Call.rename.inj same
        simp [← logged]
      next => simp
  · have logged := recalls.short different
    rw [unbound] at logged
    have fresh := recalls.fresh
    refine ⟨⟨fresh.spent.lettered, fresh.spent.taken⟩, recalls.reserved, fun other => ?_, fun {other} different => ?_⟩
    · have asks : Log.asksNew log (.rename name) = true := by
        simp [Log.asksNew, ← logged, show name ≠ "self" from different]
      rw [Log.given, if_pos asks]
      exact fresh.given other
    · rw [binding_bind, Log.short?, recalls.short different]
      by_cases same : name = other
      · subst same
        simp [← logged]
      · simp [same]

/-- One call answers as it has to and is logged. -/
theorem Recalls.call (recalls : session.Recalls log) (call : Call) :
    (session.call call).1.Recalls ((call, (session.call call).2) :: log) ∧ log.Due call (session.call call).2 := by
  cases call with
  | reserve names => exact ⟨recalls.reserve names, rfl⟩
  | fresh => exact ⟨recalls.fresh, _, rfl, recalls.shortest⟩
  | rename name =>
      refine ⟨recalls.rename name, ?_⟩
      simp only [Session.call, Log.Due]
      rcases session.rename_cases name with ⟨rfl, same⟩ | ⟨different, ⟨short, bound, same⟩ | ⟨unbound, same⟩⟩ <;>
        rw [same]
      · rw [if_pos (show preservedName = "self" from rfl)]
        rfl
      · have logged := recalls.short different
        rw [if_neg (show name ≠ "self" from different), ← logged, bound]
      · have logged := recalls.short different
        rw [if_neg (show name ≠ "self" from different), ← logged, unbound]
        exact ⟨_, rfl, recalls.shortest⟩

end Logged

/-- A session after some calls, with the log of the calls. -/
def history (calls : List Call) : Session × Log :=
  calls.foldl (fun state call => ((state.1.call call).1, (call, (state.1.call call).2) :: state.2)) (empty, [])

theorem history_concat (calls : List Call) (call : Call) : history (calls ++ [call]) =
    (((history calls).1.call call).1, (call, ((history calls).1.call call).2) :: (history calls).2) := by
  simp [history]

theorem history_recalls (calls : List Call) : (history calls).1.Recalls (history calls).2 ∧ (history calls).2.Kept := by
  induction calls using List.reverseRecOn with
  | nil => exact ⟨.empty, trivial⟩
  | append_singleton calls call ih =>
      obtain ⟨recalls, due⟩ := ih.1.call call
      rw [history_concat]
      exact ⟨recalls, due, ih.2⟩

theorem history_names (calls : List Call) : (history calls).1.Names := by
  induction calls using List.reverseRecOn with
  | nil => exact ⟨empty_spent.lettered, by simp [history, empty, binding?]⟩
  | append_singleton calls call ih =>
      rw [history_concat]
      cases call with
      | reserve names => exact ⟨ih.lettered, ih.written⟩
      | rename name => exact ih.rename name
      | fresh => exact ⟨((history calls).1.fresh_finds.shows ih.lettered).2, ih.written⟩

theorem history_calls (calls : List Call) : (history calls).2.reverse.map Prod.fst = calls := by
  induction calls using List.reverseRecOn with
  | nil => rfl
  | append_singleton calls call ih => rw [history_concat, List.reverse_cons, List.map_append, ih]; rfl

/-- After any calls a session has answered each of them, and as it had to: the preserved name by itself, a name that was
renamed before by its first short name, and all else by the first name that was still free. The odometer can always
go on to a further name. So the names handed out are names of the language, all of them different. -/
theorem history_shortest (calls : List Call) :
    (history calls).2.reverse.map Prod.fst = calls ∧ (history calls).2.Kept ∧
      (history calls).1.Finds (history calls).1.odometer (history calls).1.fresh.1.odometer ∧
      (history calls).2.given.Nodup ∧
      ∀ name ∈ (history calls).2.given,
        Lexeme.isName name.toList = true ∧ isKeyword name = false ∧ name ≠ "self" := by
  obtain ⟨recalls, kept⟩ := history_recalls calls
  exact ⟨history_calls calls, kept, fresh_finds _, kept.given⟩

end Session
end LuaMinifier
