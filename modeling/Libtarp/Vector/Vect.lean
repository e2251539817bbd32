import Libtarp.Common
import Mathlib.Algebra.Group.Nat.Defs
import Mathlib.Logic.Function.Basic

/-!
# The vector (`vector.c`, `impl/vector_impl.h`)

The buffer is a function from positions, meaningful below `occupied`. Allocations succeed;
what can fail is a request for more than the maximal capacity.
-/

namespace Libtarp.Vec

open Function

variable {α : Type}

/-- `struct vector`. -/
structure Vect (α : Type) where
  capacity : ℕ
  occupied : ℕ
  itemsz : ℕ
  bytes : ℕ → α

/-- `TARP_VECTOR_MAX_MEM`. -/
def maxMem : ℕ := (2 ^ 64 - 1) >>> 8

/-- `TARP_VECTOR_MIN_CAPACITY`. -/
def minCapacity : ℕ := 16

def vectMaxcap (itemsz : ℕ) : ℕ := maxMem / itemsz

/-- `allocate_vector__` for an existing vector. -/
def allocateVector (v : Vect α) (capacity itemsz : ℕ) : Option (Vect α) :=
  let capacity := if capacity < minCapacity then minCapacity else capacity
  if capacity > vectMaxcap itemsz then none else some { v with capacity, itemsz }

def mustGrow (v : Vect α) : Bool := v.occupied == v.capacity

def mustShrink (v : Vect α) : Bool := v.occupied < v.capacity >>> 2

def grow (v : Vect α) : Option (Vect α) :=
  if v.capacity > vectMaxcap v.itemsz >>> 1 then none else allocateVector v (v.capacity <<< 1) v.itemsz

def shrink (v : Vect α) : Option (Vect α) := allocateVector v (v.capacity >>> 1) v.itemsz

/-- `Vect_pushb`; the code is `none` for `ERRORCODE_SUCCESS`. -/
def vectPushb (v : Vect α) (value : α) : Vect α × Option ErrorCode :=
  match if mustGrow v then grow v else some v with
  | none => (v, some .outOfBounds)
  | some v => ({ v with bytes := update v.bytes v.occupied value, occupied := v.occupied + 1 }, none)

def vectPopb (v : Vect α) : Except Fault (Vect α × α) :=
  if v.occupied = 0 then .error (.thrown .empty)
  else
    let v := if mustShrink v then (shrink v).getD v else v
    .ok ({ v with occupied := v.occupied - 1 }, v.bytes (v.occupied - 1))

def vectGet (v : Vect α) (pos : ℕ) : Except Fault α :=
  if pos ≥ v.occupied then .error (.thrown .outOfBounds) else .ok (v.bytes pos)

def vectSet (v : Vect α) (pos : ℕ) (value : α) : Except Fault (Vect α) :=
  if pos ≥ v.occupied then .error (.thrown .outOfBounds)
  else .ok { v with bytes := update v.bytes pos value }

def vectFront (v : Vect α) : Except Fault α :=
  if v.occupied = 0 then .error (.thrown .empty) else .ok (v.bytes 0)

def vectBack (v : Vect α) : Except Fault α :=
  if v.occupied = 0 then .error (.thrown .empty) else .ok (v.bytes (v.occupied - 1))

/-- What holds of every vector: the items are in the buffer, which is not larger than allowed. -/
structure Valid (v : Vect α) : Prop where
  occupied : v.occupied ≤ v.capacity
  capacity : v.capacity ≤ vectMaxcap v.itemsz
  room : minCapacity ≤ v.capacity

theorem vectGet_ok {v : Vect α} {pos : ℕ} (h : pos < v.occupied) : vectGet v pos = .ok (v.bytes pos) :=
  if_neg (by omega)

theorem vectSet_ok {v : Vect α} {pos : ℕ} (h : pos < v.occupied) (value : α) :
    vectSet v pos value = .ok { v with bytes := update v.bytes pos value } := if_neg (by omega)

theorem allocateVector_spec {v w : Vect α} {capacity : ℕ} (h : allocateVector v capacity v.itemsz = some w) :
    w.occupied = v.occupied ∧ w.itemsz = v.itemsz ∧ w.bytes = v.bytes ∧ capacity ≤ w.capacity ∧
      minCapacity ≤ w.capacity ∧ w.capacity ≤ vectMaxcap v.itemsz := by
  have hc : capacity ≤ if capacity < minCapacity then minCapacity else capacity := by split <;> omega
  have hm : minCapacity ≤ if capacity < minCapacity then minCapacity else capacity := by split <;> omega
  simp only [allocateVector] at h
  set c := if capacity < minCapacity then minCapacity else capacity
  by_cases hx : c > vectMaxcap v.itemsz
  · rw [if_pos hx] at h; cases h
  · rw [if_neg hx] at h
    cases h
    exact ⟨rfl, rfl, rfl, hc, hm, by simp only; omega⟩

/-- **Appending** either fails and changes nothing, or adds the item. -/
theorem vectPushb_spec {v : Vect α} (hv : Valid v) (value : α) :
    vectPushb v value = (v, some .outOfBounds) ∨
      ∃ w, vectPushb v value = (w, none) ∧ Valid w ∧ w.occupied = v.occupied + 1 ∧
        w.itemsz = v.itemsz ∧ w.bytes = update v.bytes v.occupied value := by
  unfold vectPushb
  by_cases hg : mustGrow v
  · rw [if_pos hg]
    cases hgrow : grow v with
    | none => exact .inl rfl
    | some w =>
      refine .inr ⟨_, rfl, ?_⟩
      unfold grow at hgrow
      split_ifs at hgrow
      obtain ⟨ho, hi, hb, hc, hm, hx⟩ := allocateVector_spec hgrow
      have h₁ := hv.room
      have h₂ := hv.occupied
      simp only [Nat.shiftLeft_eq, minCapacity] at hc h₁ hm
      refine ⟨⟨?_, by rw [hi]; exact hx, hm⟩, by simp only [ho], hi, by simp only [hb, ho]⟩
      simp only [ho]; omega
  · rw [if_neg hg]
    have hne : v.occupied ≠ v.capacity := by simpa [mustGrow] using hg
    have := hv.occupied
    exact .inr ⟨_, rfl, ⟨by simp only; omega, hv.capacity, hv.room⟩, rfl, rfl, rfl⟩

/-- **Taking the last item off.** -/
theorem vectPopb_spec {v : Vect α} (hv : Valid v) (hne : 0 < v.occupied) :
    ∃ w, vectPopb v = .ok (w, v.bytes (v.occupied - 1)) ∧ Valid w ∧ w.occupied = v.occupied - 1 ∧
      w.itemsz = v.itemsz ∧ w.bytes = v.bytes := by
  unfold vectPopb
  rw [if_neg (by omega)]
  by_cases hs : mustShrink v
  · simp only [if_pos hs]
    cases hshrink : shrink v with
    | none =>
      simp only [Option.getD_none]
      exact ⟨_, rfl, ⟨by have := hv.occupied; simp only; omega, hv.capacity, hv.room⟩, rfl, rfl, rfl⟩
    | some w =>
      simp only [Option.getD_some]
      obtain ⟨ho, hi, hb, hc, hm, hx⟩ := allocateVector_spec hshrink
      have hlt : v.occupied < v.capacity >>> 2 := by simpa [mustShrink] using hs
      simp only [Nat.shiftRight_eq_div_pow] at hlt hc
      refine ⟨{ w with occupied := w.occupied - 1 }, by rw [hb, ho], ⟨?_, by simp only [hi]; exact hx, hm⟩,
        by simp only [ho], hi, hb⟩
      simp only [ho]; omega
  · simp only [if_neg hs]
    exact ⟨_, rfl, ⟨by have := hv.occupied; simp only; omega, hv.capacity, hv.room⟩, rfl, rfl, rfl⟩

end Libtarp.Vec
