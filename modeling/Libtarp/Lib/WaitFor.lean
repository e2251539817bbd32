import Mathlib.Logic.Relation
import Mathlib.Order.Nat

/-!
# Locks that are not always taken in their order

A thread that waits for a lock holds locks that come before it, or it waits `down`, with locks that
come after it.

`Ranked.acyclic`: no cycle of threads wait for each other, where who holds a lock that a thread
waits `down` for waits `down` too, if it waits.
-/

namespace Libtarp.Lib

open Relation

variable {τ ℓ : Type*}

/-- The thread `t` waits for a lock that `u` holds. -/
def WaitsFor (waits holds : τ → ℓ → Prop) (t u : τ) : Prop := ∃ l, waits t l ∧ holds u l

structure Ranked (rank : ℓ → ℕ) (waits holds : τ → ℓ → Prop) (down : τ → Prop) : Prop where
  one : ∀ t l l', waits t l → waits t l' → l = l'
  up : ∀ t l l', ¬down t → waits t l → holds t l' → rank l' < rank l
  down : ∀ t u l l', down t → waits t l → holds u l → waits u l' → down u ∧ rank l' < rank l

variable {rank : ℓ → ℕ} {waits holds : τ → ℓ → Prop} {down : τ → Prop}

/-- From a thread that waits `down` on, all do, and the locks descend. -/
theorem Ranked.descends (h : Ranked rank waits holds down) {t u : τ} (hd : down t)
    (hp : TransGen (WaitsFor waits holds) t u) {l l' : ℓ} (hl : waits t l) (hl' : waits u l') :
    down u ∧ rank l' < rank l := by
  induction hp generalizing l' with
  | single hw =>
    obtain ⟨m, hm, hu⟩ := hw
    rw [h.one _ _ _ hl hm]
    exact h.down _ _ _ _ hd hm hu hl'
  | tail _ hw ih =>
    obtain ⟨m, hm, hu⟩ := hw
    obtain ⟨hb, hlt⟩ := ih hm
    obtain ⟨hu', hlt'⟩ := h.down _ _ _ _ hb hm hu hl'
    exact ⟨hu', hlt'.trans hlt⟩

/-- Up to a thread that does not wait `down`, the locks ascend. -/
theorem Ranked.ascends (h : Ranked rank waits holds down) {t u : τ} (hu : ¬down u)
    (hp : TransGen (WaitsFor waits holds) t u) {l l' : ℓ} (hl : waits t l) (hl' : waits u l') : rank l < rank l' := by
  induction hp using TransGen.head_induction_on generalizing l with
  | single hw =>
    obtain ⟨m, hm, hh⟩ := hw
    rw [h.one _ _ _ hl hm]
    exact h.up _ _ _ hu hl' hh
  | head hw hp ih =>
    obtain ⟨m, hm, hh⟩ := hw
    rw [h.one _ _ _ hl hm]
    -- the thread in between waits as well, and not `down`
    obtain ⟨_, ⟨m', hm', _⟩, _⟩ := TransGen.head'_iff.1 hp
    have hb : ¬down _ := fun hb => hu (h.descends hb hp hm' hl').1
    exact (h.up _ _ _ hb hm' hh).trans (ih hm')

/-- **No cycle.** -/
theorem Ranked.acyclic (h : Ranked rank waits holds down) (t : τ) : ¬TransGen (WaitsFor waits holds) t t := by
  intro hp
  obtain ⟨_, ⟨l, hl, _⟩, _⟩ := TransGen.head'_iff.1 hp
  by_cases hd : down t
  · exact lt_irrefl _ (h.descends hd hp hl hl).2
  · exact lt_irrefl _ (h.ascends hd hp hl hl)

end Libtarp.Lib
