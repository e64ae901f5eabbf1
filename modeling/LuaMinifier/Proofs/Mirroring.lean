import LuaMinifier.Proofs.Respelling
import LuaMinifier.Proofs.ShortestNames

/-!
Sessions that spell the occurrences of a text one after another. Two sessions that reserve the same names give the same
short names to two texts whose local variables only have other names.
-/

namespace LuaMinifier
namespace Session

def after (session : Session) : List Identifier → Session
  | [] => session
  | identifier :: rest => (identifier.spell session).2.after rest

theorem mapM_spell_snd (identifiers : List Identifier) (session : Session) :
    (identifiers.mapM Identifier.spell session).2 = session.after identifiers := by
  induction identifiers generalizing session with
  | nil => rfl
  | cons identifier rest ih =>
      rw [List.mapM_cons]
      exact ih (identifier.spell session).2

theorem spell_after (body : Block Identifier) (session : Session) :
    (body.spell session).2 = session.after body.occurrences := by
  rw [← mapM_spell_snd]
  exact congrArg Prod.snd (congrFun (body.occurrences_mapM Identifier.spell) session)

theorem Names.after {session : Session} (names : session.Names) (identifiers : List Identifier) :
    (session.after identifiers).Names := by
  induction identifiers generalizing session with
  | nil => exact names
  | cons identifier rest ih =>
      refine ih ?_
      unfold Identifier.spell
      split
      · exact names.rename identifier.name
      · exact names

end Session

/-- Other names for some local variables: different ones stay different, and only the preserved name is preserved. -/
structure Renaming (respell : String → String) (known : String → Prop) : Prop where
  injective : ∀ {first second}, known first → known second → respell first = respell second → first = second
  preserved : ∀ {name}, known name → (respell name = preservedName ↔ name = preservedName)

/-- What an occurrence is called when local variables get other names. -/
def Identifier.respelled (respell : String → String) (identifier : Identifier) : Bool × String :=
  (identifier.isLocal, if identifier.isLocal then respell identifier.name else identifier.name)

namespace Session

variable {respell : String → String} {known : String → Prop} {first second : Session}

/-- Two sessions that gave the same names to variables and to what they are respelled to. -/
structure Mirrors (respell : String → String) (known : String → Prop) (first second : Session) : Prop where
  spent : first.Spent
  spentSecond : second.Spent
  taken : ∀ name, first.isTaken name = second.isTaken name
  bindings : ∀ {name}, known name → name ≠ preservedName → first.binding? name = second.binding? (respell name)

theorem Mirrors.withReserved {names others : List String} (same : ∀ name, name ∈ names ↔ name ∈ others) :
    Mirrors respell known (withReserved names) (withReserved others) where
  spent := empty_spent.reserve names
  spentSecond := empty_spent.reserve others
  taken := by
    intro name
    rw [Bool.eq_iff_iff, Session.withReserved, Session.withReserved, isTaken_reserve_iff, isTaken_reserve_iff, same]
  bindings := by simp [Session.withReserved, reserve, empty, binding?]

theorem Mirrors.bind (mirrors : Mirrors respell known first second) (renames : Renaming respell known) {name : String}
    (isKnown : known name) : Mirrors respell known (first.bind name) (second.bind (respell name)) := by
  have fresh : first.fresh.2 = second.fresh.2 := mirrors.spent.fresh_eq mirrors.spentSecond mirrors.taken
  have spent := mirrors.spent.fresh
  have spentSecond := mirrors.spentSecond.fresh
  refine ⟨⟨spent.lettered, spent.taken⟩, ⟨spentSecond.lettered, spentSecond.taken⟩, fun other => ?_, ?_⟩
  · change first.fresh.1.isTaken other = second.fresh.1.isTaken other
    rw [Bool.eq_iff_iff, isTaken_fresh_iff, isTaken_fresh_iff, mirrors.taken, fresh]
  · intro other otherKnown different
    rw [binding_bind, binding_bind, fresh, mirrors.bindings otherKnown different]
    by_cases same : name = other
    · simp [same]
    · have apart : respell name ≠ respell other := mt (renames.injective isKnown otherKnown) same
      simp [same, apart]

theorem Mirrors.rename (mirrors : Mirrors respell known first second) (renames : Renaming respell known)
    {name : String} (isKnown : known name) :
    Mirrors respell known (first.rename name).1 (second.rename (respell name)).1 := by
  rcases first.rename_cases name with ⟨preserved, same⟩ | ⟨different, found⟩
  · rcases second.rename_cases (respell name) with ⟨_, same'⟩ | ⟨different, _⟩
    · rw [same, same']
      exact mirrors
    · exact absurd ((renames.preserved isKnown).mpr preserved) different
  · rcases second.rename_cases (respell name) with ⟨preserved, _⟩ | ⟨_, found'⟩
    · exact absurd ((renames.preserved isKnown).mp preserved) different
    · have bindings := mirrors.bindings isKnown different
      rcases found with ⟨short, bound, same⟩ | ⟨unbound, same⟩ <;>
        rcases found' with ⟨short', bound', same'⟩ | ⟨unbound', same'⟩
      · rw [same, same']
        exact mirrors
      · simp [bound, unbound'] at bindings
      · simp [unbound, bound'] at bindings
      · rw [same, same']
        exact mirrors.bind renames isKnown

/-- Two texts whose local variables only have other names get the same short names. -/
theorem Mirrors.after (mirrors : Mirrors respell known first second) (renames : Renaming respell known)
    {identifiers others : List Identifier}
    (areKnown : ∀ identifier ∈ identifiers, identifier.isLocal = true → known identifier.name)
    (same : identifiers.map (·.respelled respell) = others.map (·.respelled id)) :
    Mirrors respell known (first.after identifiers) (second.after others) := by
  induction identifiers generalizing others first second with
  | nil =>
      rw [List.map_nil, eq_comm, List.map_eq_nil_iff] at same
      rw [same]
      exact mirrors
  | cons identifier rest ih =>
      obtain ⟨other, more, rfl, alike, behind⟩ := List.map_eq_cons_iff.mp same.symm
      rw [List.forall_mem_cons] at areKnown
      change Mirrors respell known ((identifier.spell first).2.after rest) ((other.spell second).2.after more)
      refine ih ?_ areKnown.2 behind.symm
      obtain ⟨flags, names⟩ := Prod.mk.inj alike
      cases isLocal : identifier.isLocal with
      | true =>
          have isLocal' : other.isLocal = true := flags.trans isLocal
          simp only [isLocal, isLocal', ↓reduceIte, id] at names
          simpa [Identifier.spell, isLocal, isLocal', names] using mirrors.rename renames (areKnown.1 isLocal)
      | false =>
          have isGlobal : other.isLocal = false := flags.trans isLocal
          simpa [Identifier.spell, isLocal, isGlobal] using mirrors

theorem Mirrors.shortName_eq (mirrors : Mirrors respell known first second) (renames : Renaming respell known)
    {name : String} (isKnown : known name) : first.shortName name = second.shortName (respell name) := by
  unfold shortName
  by_cases preserved : name = preservedName
  · rw [if_pos preserved, if_pos ((renames.preserved isKnown).mpr preserved)]
  · rw [if_neg preserved, if_neg (mt (renames.preserved isKnown).mp preserved), mirrors.bindings isKnown preserved]

end Session
end LuaMinifier
