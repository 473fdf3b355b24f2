import Mathlib.Logic.Function.Basic

/-! # Locks and ownership

A spin lock is held by the one thread whose token says so, and a resource by the
one owner who has it. Both are kept under updates of single tokens. -/

namespace Foundation

open Function

/-! ## Locks -/

/-- The lock is held when some token has it, and by one thread only. -/
structure Exclusive (held : Bool) (locks : Token → Bool) (ts : Thread → Token) :
    Prop where
  held : ∀ t, locks (ts t) = true → held = true
  alone : ∀ t other, locks (ts t) = true → locks (ts other) = true →
    t = other

namespace Exclusive

variable {Thread Token : Type} {locks : Token → Bool} {ts : Thread → Token}
  {held : Bool} {t : Thread} {tok : Token}

/-- Another thread than the holder does not have the lock. -/
theorem other (exclusive : Exclusive held locks ts)
    (h : locks (ts t) = true) {o : Thread} (ne : o ≠ t) : locks (ts o) = false := by
  rw [Bool.eq_false_iff]
  intro both
  exact ne (exclusive.alone o t both h)

theorem unheld (none : ∀ t, locks (ts t) = false) : Exclusive held locks ts where
  held := by
    intro t h
    rw [none t] at h
    cases h
  alone := by
    intro t o h
    rw [none t] at h
    cases h

theorem none_of_free (exclusive : Exclusive false locks ts) (t : Thread) :
    locks (ts t) = false := by
  rw [Bool.eq_false_iff]
  intro h
  cases exclusive.held t h

variable [DecidableEq Thread]

theorem keep (exclusive : Exclusive held locks ts) (same : locks tok = locks (ts t)) :
    Exclusive held locks (update ts t tok) := by
  have unchanged : ∀ o, locks (update ts t tok o) = locks (ts o) := by
    intro o
    by_cases here : o = t
    · rw [here, update_self, same]
    · rw [update_of_ne here]
  constructor
  · intro o h
    rw [unchanged] at h
    exact exclusive.held o h
  · intro first snd fstHolds sndHolds
    rw [unchanged] at fstHolds sndHolds
    exact exclusive.alone first snd fstHolds sndHolds

/-- A lock that nobody has comes to one thread. -/
theorem take (none : ∀ o, locks (ts o) = false) : Exclusive true locks (update ts t tok) := by
  have only : ∀ o, locks (update ts t tok o) = true → o = t := by
    intro o h
    by_contra ne
    rw [update_of_ne ne, none] at h
    cases h
  constructor
  · intro o _
    rfl
  · intro first snd fstHolds sndHolds
    exact (only first fstHolds).trans (only snd sndHolds).symm

theorem acquire (exclusive : Exclusive false locks ts) : Exclusive true locks (update ts t tok) :=
  take exclusive.none_of_free

theorem release (exclusive : Exclusive held locks ts) (h : locks (ts t) = true)
    (gone : locks tok = false) : Exclusive false locks (update ts t tok) := by
  have none : ∀ o, ¬locks (update ts t tok o) = true := by
    intro o
    by_cases here : o = t
    · rw [here, update_self, gone]
      exact Bool.false_ne_true
    · rw [update_of_ne here, exclusive.other h here]
      exact Bool.false_ne_true
  constructor
  · intro o ho
    exact absurd ho (none o)
  · intro first snd fstHolds _
    exact absurd fstHolds (none first)

end Exclusive

/-! ## Resources with one owner -/

/-- What somebody has is live, and nobody else has it. -/
structure Owned (Has : Owner → Resource → Prop) (Live : Resource → Prop) : Prop where
  live : ∀ owner res, Has owner res → Live res
  unique : ∀ owner other res, Has owner res → Has other res →
    owner = other

namespace Owned

variable {Owner Resource : Type} {Has After : Owner → Resource → Prop}
  {Live LiveAfter : Resource → Prop}

theorem lose (owned : Owned Has Live) (fewer : ∀ owner res, After owner res → Has owner res)
    (kept : ∀ owner res, After owner res → Live res → LiveAfter res) : Owned After LiveAfter where
  live := by
    intro owner res after
    exact kept owner res after (owned.live owner res (fewer owner res after))
  unique := by
    intro owner o res after oAfter
    exact owned.unique owner o res (fewer owner res after) (fewer o res oAfter)

/-- A resource that nobody had comes to one owner. -/
theorem gain (owned : Owned Has Live) {receiver : Owner} {fresh : Resource} (dead : ¬Live fresh)
    (more : ∀ owner res, After owner res → Has owner res ∨ owner = receiver ∧ res = fresh)
    (kept : ∀ res, Live res ∨ res = fresh → LiveAfter res) : Owned After LiveAfter where
  live := by
    intro owner res after
    rcases more owner res after with old | ⟨_, new⟩
    · exact kept res (Or.inl (owned.live owner res old))
    · exact kept res (Or.inr new)
  unique := by
    intro owner o res after oAfter
    rcases more owner res after with old | ⟨here, new⟩
    · rcases more o res oAfter with oBefore | ⟨_, oNew⟩
      · exact owned.unique owner o res old oBefore
      · rw [oNew] at old
        exact absurd (owned.live owner fresh old) dead
    · rcases more o res oAfter with oBefore | ⟨oHere, _⟩
      · rw [new] at oBefore
        exact absurd (owned.live o fresh oBefore) dead
      · rw [here, oHere]

theorem move (owned : Owned Has Live) {giver receiver : Owner}
    (moved : ∀ owner res, After owner res →
      owner ≠ giver ∧ Has owner res ∨ owner = receiver ∧ Has giver res)
    (kept : ∀ res, Live res → LiveAfter res) : Owned After LiveAfter where
  live := by
    intro owner res after
    rcases moved owner res after with ⟨_, old⟩ | ⟨_, old⟩
    · exact kept res (owned.live owner res old)
    · exact kept res (owned.live giver res old)
  unique := by
    intro owner o res after oAfter
    rcases moved owner res after with ⟨ne, old⟩ | ⟨here, old⟩
    · rcases moved o res oAfter with ⟨_, oBefore⟩ | ⟨_, oBefore⟩
      · exact owned.unique owner o res old oBefore
      · exact absurd (owned.unique owner giver res old oBefore) ne
    rcases moved o res oAfter with ⟨ne, oBefore⟩ | ⟨oHere, _⟩
    · exact absurd (owned.unique o giver res oBefore old) ne
    · rw [here, oHere]

end Owned

end Foundation
