import LuaMinifier.Name.Session
import LuaMinifier.Proofs.TokenText
import LuaMinifier.Proofs.View

/-!
The names that a session hands out. The odometer shows a different name after every step, each of them a name of the
language; so among as many names as a session looks at, one is not taken.
-/

namespace LuaMinifier

open Lexeme Token

/-- The place of a symbol in the alphabet of short names. -/
def symbolPlace (symbol : Char) : Nat :=
  if symbol.isDigit then symbol.toNat - 48
  else if symbol.isLower then symbol.toNat - 87
  else if symbol.isUpper then symbol.toNat - 29
  else 62

theorem symbolPlace_nameSymbol : ∀ place, symbolPlace (nameSymbol place) = place.val := by decide

theorem nameSymbol_injective {first second : Fin 63} (same : nameSymbol first = nameSymbol second) :
    first = second := by
  have places := congrArg symbolPlace same
  rw [symbolPlace_nameSymbol, symbolPlace_nameSymbol] at places
  exact Fin.ext places

theorem nameSymbol_continuesName : ∀ place, continuesName (nameSymbol place) = true := by decide

theorem nameSymbol_startsName : ∀ place : Fin 63, 10 ≤ place.val → startsName (nameSymbol place) = true := by decide

namespace Odometer

/-- The place of a name among all words of the alphabet, the shorter words first. -/
def rankOf : List (Fin 63) → Nat
  | [] => 0
  | place :: rest => place.val + 1 + 63 * rankOf rest

/-- Longer names come later, and names of one length in the order of their numbers. -/
def rank (odometer : Odometer) : Nat := rankOf odometer.places

theorem rankOf_increment {places next : List (Fin 63)} (stepped : increment places = some next) :
    rankOf next = rankOf places + 1 := by
  induction places generalizing next with
  | nil => simp [increment] at stepped
  | cons place rest ih =>
      simp only [increment] at stepped
      split at stepped
      next room =>
        obtain rfl := Option.some.inj stepped
        simp only [rankOf]
        omega
      next full =>
        obtain ⟨further, found, rfl⟩ := Option.map_eq_some_iff.mp stepped
        have bound := place.isLt
        simp only [rankOf, ih found, Fin.val_zero]
        omega

theorem rankOf_lt_of_longer {places more : List (Fin 63)} (longer : places.length < more.length) :
    rankOf places < rankOf more := by
  induction places generalizing more with
  | nil =>
      cases more with
      | nil => simp at longer
      | cons place rest =>
          simp only [rankOf]
          omega
  | cons place rest ih =>
      cases more with
      | nil => simp at longer
      | cons other others =>
          have later := ih (Nat.lt_of_succ_lt_succ longer)
          have bound := place.isLt
          simp only [rankOf]
          omega

theorem rank_advance (odometer : Odometer) : odometer.rank < odometer.advance.rank := by
  unfold advance rank
  split
  next next stepped =>
    have more := rankOf_increment stepped
    simp only [more]
    omega
  next =>
    refine rankOf_lt_of_longer ?_
    simp

theorem current_injective {first second : Odometer} (same : first.current = second.current) : first = second := by
  obtain ⟨places⟩ := first
  obtain ⟨others⟩ := second
  have symbols : places.reverse.map nameSymbol = others.reverse.map nameSymbol := by
    simpa [current] using congrArg String.toList same
  have reversed := List.map_inj_right (fun _ _ equal => nameSymbol_injective equal) |>.mp symbols
  rw [List.reverse_inj.mp reversed]

def upcoming : Nat → Odometer → List String
  | 0, _ => []
  | steps + 1, odometer => odometer.advance.current :: upcoming steps odometer.advance

theorem length_upcoming (steps : Nat) (odometer : Odometer) : (upcoming steps odometer).length = steps := by
  induction steps generalizing odometer with
  | zero => rfl
  | succ steps ih => simp [upcoming, ih]

theorem rank_of_upcoming {name : String} {steps : Nat} {odometer : Odometer}
    (member : name ∈ upcoming steps odometer) : ∃ later, name = current later ∧ odometer.rank < later.rank := by
  induction steps generalizing odometer with
  | zero => simp [upcoming] at member
  | succ steps ih =>
      rcases List.mem_cons.mp member with rfl | further
      · exact ⟨odometer.advance, rfl, odometer.rank_advance⟩
      · obtain ⟨later, rfl, after⟩ := ih further
        exact ⟨later, rfl, Nat.lt_trans odometer.rank_advance after⟩

theorem nodup_upcoming (steps : Nat) (odometer : Odometer) : (upcoming steps odometer).Nodup := by
  induction steps generalizing odometer with
  | zero => simp [upcoming]
  | succ steps ih =>
      refine List.nodup_cons.mpr ⟨?_, ih odometer.advance⟩
      intro again
      obtain ⟨later, same, after⟩ := rank_of_upcoming again
      rw [current_injective same] at after
      exact Nat.lt_irrefl _ after

/-- The first symbol of a name is no digit. -/
def Lettered (places : List (Fin 63)) : Prop := ∀ place ∈ places.getLast?, 10 ≤ place.val

theorem increment_lettered {places next : List (Fin 63)} (lettered : Lettered places)
    (stepped : increment places = some next) : Lettered next := by
  induction places generalizing next with
  | nil => simp [increment] at stepped
  | cons place rest ih =>
      simp only [increment] at stepped
      split at stepped
      next room =>
        obtain rfl := Option.some.inj stepped
        cases rest with
        | nil =>
            have letter : 10 ≤ place.val := lettered place rfl
            intro last same
            obtain rfl := Option.some.inj same
            exact Nat.le_succ_of_le letter
        | cons second rest => simpa [Lettered] using lettered
      next full =>
        obtain ⟨further, found, rfl⟩ := Option.map_eq_some_iff.mp stepped
        cases rest with
        | nil => simp [increment] at found
        | cons second rest =>
            have inner : Lettered further := ih (by simpa [Lettered] using lettered) found
            have later := rankOf_increment found
            cases further with
            | nil => simp [rankOf] at later
            | cons first further => simpa [Lettered] using inner

/-- Every name shown is a letter or underscore with letters, digits and underscores behind it. -/
def Shows (odometer : Odometer) : Prop := odometer.places ≠ [] ∧ Lettered odometer.places

theorem advance_lettered {odometer : Odometer} (lettered : Lettered odometer.places) : odometer.advance.Shows := by
  unfold advance
  split
  next next stepped =>
    refine ⟨?_, increment_lettered lettered stepped⟩
    rintro rfl
    have later := rankOf_increment stepped
    simp [rankOf] at later
  next =>
    refine ⟨by simp, ?_⟩
    simp only [Lettered, List.getLast?_concat, Option.mem_some_iff, forall_eq']
    decide

theorem isName_current {odometer : Odometer} (shows : odometer.Shows) : isName odometer.current.toList = true := by
  obtain ⟨some, lettered⟩ := shows
  obtain ⟨last, front, split⟩ : ∃ last front, odometer.places.reverse = last :: front :=
    List.exists_cons_of_ne_nil (by simpa using some)
  have letter : 10 ≤ last.val := by
    refine lettered last ?_
    rw [← List.head?_reverse, split]
    rfl
  simp only [current, String.toList_ofList, split, List.map_cons, isName, Bool.and_eq_true, List.all_map]
  exact ⟨nameSymbol_startsName last letter, List.all_eq_true.mpr fun place _ => nameSymbol_continuesName place⟩

end Odometer

namespace Session

open Odometer

theorem search_spec (session : Session) (steps : Nat) (odometer : Odometer) :
    session.isTaken (session.search steps odometer).current = false ∨
      ∀ name ∈ upcoming steps odometer, session.isTaken name = true := by
  induction steps generalizing odometer with
  | zero => exact .inr (by simp [upcoming])
  | succ steps ih =>
      simp only [search]
      split
      next taken =>
        exact (ih odometer.advance).imp_right fun others => List.forall_mem_cons.mpr ⟨taken, others⟩
      next free => exact .inl (by simpa using free)

theorem search_shows (session : Session) {steps : Nat} (some : steps ≠ 0) {odometer : Odometer}
    (lettered : Lettered odometer.places) : (session.search steps odometer).Shows := by
  induction steps generalizing odometer with
  | zero => exact absurd rfl some
  | succ steps ih =>
      simp only [search]
      have next := advance_lettered lettered
      split
      · cases steps with
        | zero => exact next
        | succ steps => exact ih (by simp) next.2
      · exact next

theorem isTaken_iff {session : Session} {name : String} : session.isTaken name = true ↔
    isKeyword name = true ∨ name ∈ session.reserved ∨ name ∈ session.assigned ∨ name = preservedName := by
  simp [isTaken, isReserved, or_assoc]

def takenNames (session : Session) : List String :=
  Keyword.all.map (·.text) ++ session.reserved.toList ++ session.assigned.toList ++ [preservedName]

theorem mem_takenNames {session : Session} {name : String} (taken : session.isTaken name = true) :
    name ∈ session.takenNames := by
  simp only [isTaken, isReserved, Bool.or_eq_true, beq_iff_eq] at taken
  simp only [takenNames, List.mem_append, Std.HashSet.mem_toList, List.mem_singleton]
  rcases taken with ((keyword | reserved) | assigned) | preserved
  · obtain ⟨reserved, found⟩ := Option.isSome_iff_exists.mp keyword
    have same := List.find?_some (p := fun keyword : Keyword => keyword.text == name) found
    exact .inl (.inl (.inl (List.mem_map.mpr ⟨reserved, List.mem_of_find?_eq_some found, by simpa using same⟩)))
  · exact .inl (.inl (.inr reserved))
  · exact .inl (.inr assigned)
  · exact .inr preserved

theorem isTaken_fresh (session : Session) : session.isTaken session.fresh.2 = false := by
  rcases session.search_spec session.enoughSteps session.odometer with free | taken
  · exact free
  · have count := (nodup_upcoming session.enoughSteps session.odometer).length_le_of_subset
      fun name member => mem_takenNames (taken name member)
    rw [length_upcoming] at count
    simp only [takenNames, enoughSteps, List.length_append, List.length_map, Std.HashSet.length_toList,
      List.length_cons, List.length_nil] at count
    omega

/-- What holds of every session that started empty: the names it gave are names of the language, none is a keyword,
reserved or preserved, and different variables have different ones. -/
structure Sound (session : Session) : Prop where
  lettered : Lettered session.odometer.places
  assigned : ∀ {name short}, session.binding? name = some short → short ∈ session.assigned
  free : ∀ {name short}, session.binding? name = some short →
    session.isReserved short = false ∧ short ≠ preservedName ∧ isName short.toList = true
  injective : ∀ {first second short}, session.binding? first = some short →
    session.binding? second = some short → first = second

/-- A session at two times: it keeps what it reserved and every name it gave. -/
structure Grows (earlier later : Session) : Prop where
  reserved : later.reserved = earlier.reserved
  bindings : ∀ {name short}, earlier.binding? name = some short → later.binding? name = some short
  assigned : ∀ {name}, name ∈ earlier.assigned → name ∈ later.assigned
  sound : earlier.Sound → later.Sound

theorem Grows.refl (session : Session) : session.Grows session := ⟨rfl, id, id, id⟩

theorem Grows.trans {first second third : Session} (early : first.Grows second) (late : second.Grows third) :
    first.Grows third :=
  ⟨late.reserved.trans early.reserved, fun given => late.bindings (early.bindings given),
    fun member => late.assigned (early.assigned member), fun sound => late.sound (early.sound sound)⟩

/-- A session that has not given any name. -/
structure Unused (session : Session) : Prop where
  odometer : session.odometer = .start
  bindings : session.bindings = ∅

theorem empty_unused : Unused empty := ⟨rfl, rfl⟩

theorem Unused.reserve {session : Session} (unused : session.Unused) (names : List String) :
    (session.reserve names).Unused :=
  ⟨unused.odometer, unused.bindings⟩

theorem Unused.sound {session : Session} (unused : session.Unused) : session.Sound := by
  refine ⟨by simp [unused.odometer, start, Lettered], ?_, ?_, ?_⟩ <;> simp [binding?, unused.bindings]

theorem mem_reserve {session : Session} {names : List String} {name : String} :
    name ∈ (session.reserve names).reserved ↔ name ∈ names ∨ name ∈ session.reserved := by
  obtain ⟨odometer, reserved, assigned, bindings⟩ := session
  simp only [reserve]
  induction names generalizing reserved with
  | nil => simp
  | cons first rest ih =>
      rw [List.foldl_cons, ih, Std.HashSet.mem_insert, beq_iff_eq, eq_comm, List.mem_cons, or_assoc]
      exact or_left_comm

theorem fresh_grows (session : Session) : session.Grows session.fresh.1 := by
  refine ⟨rfl, id, fun member => ?_, fun sound => ?_⟩
  · simp [fresh, member]
  · refine ⟨?_, fun given => ?_, sound.free, sound.injective⟩
    · exact (session.search_shows (by simp [enoughSteps]) sound.lettered).2
    · have before : _ ∈ session.assigned := sound.assigned given
      simp [fresh, before]

theorem fresh_assigned (session : Session) : session.fresh.2 ∈ session.fresh.1.assigned := by simp [fresh]

theorem fresh_free {session : Session} (sound : session.Sound) :
    session.isReserved session.fresh.2 = false ∧ session.fresh.2 ∉ session.assigned ∧
      session.fresh.2 ≠ preservedName ∧ isName session.fresh.2.toList = true := by
  have free := session.isTaken_fresh
  simp only [isTaken, Bool.or_eq_false_iff, beq_eq_false_iff_ne] at free
  obtain ⟨⟨unreserved, unassigned⟩, different⟩ := free
  refine ⟨unreserved, by simpa using unassigned, different, ?_⟩
  exact isName_current (session.search_shows (by simp [enoughSteps]) sound.lettered)

def bind (session : Session) (name : String) : Session :=
  { session.fresh.1 with bindings := session.bindings.insert name session.fresh.2 }

theorem binding_bind (session : Session) (name other : String) :
    (session.bind name).binding? other = if name = other then some session.fresh.2 else session.binding? other := by
  simp [bind, binding?, Std.HashMap.getElem?_insert]

theorem bind_grows {session : Session} {name : String} (unbound : session.binding? name = none) :
    session.Grows (session.bind name) := by
  have grown := session.fresh_grows
  refine ⟨grown.reserved, fun {other short} given => ?_, grown.assigned, fun sound => ?_⟩
  · rw [binding_bind, if_neg]
    · exact given
    · rintro rfl
      simp [unbound] at given
  · obtain ⟨unreserved, unassigned, different, isName⟩ := fresh_free sound
    -- A name given before was assigned, so it is not the new one.
    have other : ∀ {old : String}, session.binding? old ≠ some session.fresh.2 :=
      fun given => unassigned (sound.assigned given)
    refine ⟨(grown.sound sound).lettered, fun given => ?_, fun given => ?_, fun first second => ?_⟩
    · rw [binding_bind] at given
      split at given
      next =>
        obtain rfl := Option.some.inj given
        exact session.fresh_assigned
      next => exact grown.assigned (sound.assigned given)
    · rw [binding_bind] at given
      split at given
      next =>
        obtain rfl := Option.some.inj given
        exact ⟨unreserved, different, isName⟩
      next => exact sound.free given
    · rw [binding_bind] at first second
      split at first <;> split at second
      next same again => rw [← same, ← again]
      next =>
        obtain rfl := Option.some.inj first
        exact absurd second other
      next =>
        obtain rfl := Option.some.inj second
        exact absurd first other
      next => exact sound.injective first second

def shortName (session : Session) (name : String) : String :=
  if name = preservedName then preservedName else (session.binding? name).getD preservedName

theorem rename_cases (session : Session) (name : String) :
    name = preservedName ∧ session.rename name = (session, preservedName) ∨
      name ≠ preservedName ∧ ((∃ short, session.binding? name = some short ∧ session.rename name = (session, short)) ∨
        session.binding? name = none ∧ session.rename name = (session.bind name, session.fresh.2)) := by
  by_cases preserved : name = preservedName
  · exact .inl ⟨preserved, by simp [rename, preserved]⟩
  · refine .inr ⟨preserved, ?_⟩
    cases found : session.binding? name with
    | some short =>
        have bound : session.bindings[name]? = some short := found
        exact .inl ⟨short, rfl, by simp [rename, preserved, bound]⟩
    | none =>
        have unbound : session.bindings[name]? = none := found
        refine .inr ⟨rfl, ?_⟩
        simp only [rename, preserved, unbound, ↓reduceIte]
        rfl

theorem rename_grows (session : Session) (name : String) : session.Grows (session.rename name).1 := by
  rcases session.rename_cases name with ⟨_, same⟩ | ⟨_, ⟨short, _, same⟩ | ⟨unbound, same⟩⟩ <;> rw [same]
  · exact .refl session
  · exact .refl session
  · exact bind_grows unbound

/-- Whether a variable has its short name. -/
def Knows (session : Session) (name : String) : Prop := name ≠ preservedName → (session.binding? name).isSome = true

theorem Knows.grow {earlier later : Session} {name : String} (known : earlier.Knows name)
    (grown : earlier.Grows later) : later.Knows name := by
  intro different
  obtain ⟨short, given⟩ := Option.isSome_iff_exists.mp (known different)
  rw [grown.bindings given]
  rfl

theorem rename_knows (session : Session) (name : String) : (session.rename name).1.Knows name := by
  intro different
  rcases session.rename_cases name with ⟨same, _⟩ | ⟨_, ⟨short, given, same⟩ | ⟨_, same⟩⟩
  · exact absurd same different
  · rw [same, given]
    rfl
  · simp [same, binding_bind]

theorem rename_shortName {session later : Session} {name : String} (grown : (session.rename name).1.Grows later) :
    (session.rename name).2 = later.shortName name := by
  unfold shortName
  rcases session.rename_cases name with ⟨rfl, same⟩ | ⟨different, ⟨short, given, same⟩ | ⟨_, same⟩⟩
  · simp [same]
  · rw [same] at grown ⊢
    simp [different, grown.bindings given]
  · rw [same] at grown ⊢
    have given : (session.bind name).binding? name = some session.fresh.2 := by simp [binding_bind]
    simp [different, grown.bindings given]

/-- How an occurrence is printed once its variable has its name. -/
def spelling (session : Session) (identifier : Identifier) : Spelling :=
  ⟨if identifier.isLocal then session.shortName identifier.name else identifier.name, identifier.name,
    identifier.position⟩

theorem spell_grows (identifier : Identifier) (session : Session) :
    session.Grows (identifier.spell session).2 := by
  unfold Identifier.spell
  split
  · exact session.rename_grows identifier.name
  · exact .refl session

theorem keeps_spelling : Keeps Identifier.spell spelling Grows where
  refl := .refl
  trans := .trans
  grow := spell_grows
  find := by
    intro identifier session later grown
    unfold Identifier.spell at grown ⊢
    unfold spelling
    split at grown
    next isLocal => simp [isLocal, rename_shortName grown]
    next isGlobal => simp [isGlobal]

theorem shortName_written {session : Session} (sound : session.Sound) (name : String) :
    (Kind.name (session.shortName name)).Written := by
  have preserved : (Kind.name preservedName).Written := ⟨by decide, by decide⟩
  unfold shortName
  split
  next => exact preserved
  next =>
    cases given : session.binding? name with
    | none => exact preserved
    | some short =>
        obtain ⟨unreserved, _, isName⟩ := sound.free given
        simp only [isReserved, isKeyword, Bool.or_eq_false_iff] at unreserved
        exact ⟨isName, by simpa using unreserved.1⟩

theorem shortName_injective {session : Session} (sound : session.Sound) {first second : String}
    (known : session.Knows first) (known' : session.Knows second)
    (same : session.shortName first = session.shortName second) : first = second := by
  unfold shortName at same
  split at same <;> split at same
  next preserved preserved' => rw [preserved, preserved']
  next _ different =>
    obtain ⟨short, given⟩ := Option.isSome_iff_exists.mp (known' different)
    rw [given] at same
    exact absurd same.symm (sound.free given).2.1
  next different _ =>
    obtain ⟨short, given⟩ := Option.isSome_iff_exists.mp (known different)
    rw [given] at same
    exact absurd same (sound.free given).2.1
  next different different' =>
    obtain ⟨short, given⟩ := Option.isSome_iff_exists.mp (known different)
    obtain ⟨other, given'⟩ := Option.isSome_iff_exists.mp (known' different')
    rw [given, given'] at same
    obtain rfl : short = other := same
    exact sound.injective given given'

theorem eq_of_shortName_reserved {session : Session} (sound : session.Sound) {name : String}
    (known : session.Knows name) (reserved : session.shortName name ∈ session.reserved) :
    session.shortName name = name := by
  unfold shortName at reserved ⊢
  split at reserved
  next same => simp [same]
  next different =>
    obtain ⟨short, given⟩ := Option.isSome_iff_exists.mp (known different)
    have unreserved := (sound.free given).1
    rw [given] at reserved
    simp [isReserved, show short ∈ session.reserved from reserved] at unreserved

end Session
end LuaMinifier
