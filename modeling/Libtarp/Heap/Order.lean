import Libtarp.Lib.BinHeap
import Mathlib.Algebra.Group.Nat.Defs
import Mathlib.Logic.Function.Basic
import Mathlib.Order.Compare

/-!
# What outranks what, and where (`heap.h`, `impl/heap_impl.h`)

A heap is a min heap or a max heap, and its comparator compares the priorities of two
containers. In an array its nodes are in level order, and the macros for the positions are of
type `size_t`.
-/

namespace Libtarp

open Lib

variable {ν κ : Type} {cmp : κ → κ → Ordering} {prio : ν → κ}

/-- `enum heapOrder`. -/
inductive HeapOrder
  | min
  | max
  deriving DecidableEq, Repr

/-- `lt` for a min heap and `gt` for a max heap, on the containers of two nodes. -/
def outranks (type : HeapOrder) (cmp : κ → κ → Ordering) (prio : ν → κ) (a b : ν) : Bool :=
  match type with
  | .min => cmp (prio a) (prio b) == .lt
  | .max => cmp (prio a) (prio b) == .gt

theorem ranking_outranks (cmp : κ → κ → Ordering) [Std.TransCmp cmp] (type : HeapOrder) (prio : ν → κ) :
    Ranking (outranks type cmp prio) := by
  have hlt : ∀ x y, cmp x y = .lt ↔ cmp y x = .gt := fun x y => Std.OrientedCmp.gt_iff_lt.symm
  -- not smaller is transitive
  have hge : ∀ x y z, cmp x y ≠ .lt → cmp y z ≠ .lt → cmp x z ≠ .lt := by
    intro x y z hxy hyz hxz
    cases hy : cmp x y with
    | lt => exact hxy hy
    | eq => exact hyz (by rw [← Std.TransCmp.congr_left hy]; exact hxz)
    | gt => exact hyz (Std.TransCmp.lt_trans ((hlt y x).2 hy) hxz)
  cases type with
  | min =>
    constructor
    · intro a b h h'
      simp only [outranks, beq_iff_eq] at h h'
      rw [hlt, h] at h'; cases h'
    · intro a b c h h'
      simp only [outranks, beq_iff_eq] at h h' ⊢
      exact hge _ _ _ h h'
  | max =>
    constructor
    · intro a b h h'
      simp only [outranks, beq_iff_eq] at h h'
      rw [← hlt, h] at h'; cases h'
    · intro a b c h h'
      simp only [outranks, beq_iff_eq, ← hlt] at h h' ⊢
      exact hge _ _ _ h' h

/-- Where neither outranks the other the priorities compare equal. -/
theorem eq_of_not_outranks [Std.OrientedCmp cmp] {type : HeapOrder} {a b : ν} (h : ¬outranks type cmp prio a b)
    (h' : ¬outranks type cmp prio b a) : cmp (prio a) (prio b) = .eq := by
  unfold outranks at h h'
  cases hc : cmp (prio a) (prio b) with
  | eq => rfl
  | lt =>
    have hc' := Std.OrientedCmp.gt_iff_lt.2 hc
    cases type with
    | min => exact absurd (by simp [hc]) h
    | max => exact absurd (by simp [hc']) h'
  | gt =>
    have hc' := Std.OrientedCmp.gt_iff_lt.1 hc
    cases type with
    | min => exact absurd (by simp [hc']) h'
    | max => exact absurd (by simp [hc]) h

/-- A comparison with another node only depends on the priorities of the two. -/
theorem outranks_update [DecidableEq ν] {type : HeapOrder} {node a b : ν} (k : κ) (ha : a ≠ node)
    (hb : b ≠ node) :
    outranks type cmp (Function.update prio node k) a b = outranks type cmp prio a b := by
  simp [outranks, ha, hb]

/-! ## Positions -/

namespace Position

def parent (i : ℕ) : ℕ := ((i + 2 ^ 64 - 1) % 2 ^ 64) >>> 1

def left (i : ℕ) : ℕ := (i <<< 1 + 1) % 2 ^ 64

def right (i : ℕ) : ℕ := (i <<< 1 + 2) % 2 ^ 64

def hasParent (i : ℕ) : Bool := i > 0

def hasLeft (i heaplen : ℕ) : Bool := left i < heaplen

def hasRight (i heaplen : ℕ) : Bool := right i < heaplen

theorem parent_eq {i : ℕ} (h : 0 < i) (hi : i < 2 ^ 64) : parent i = BinHeap.up i := by
  unfold parent BinHeap.up
  rw [Nat.shiftRight_eq_div_pow]
  omega

theorem left_eq {i : ℕ} (h : 2 * i + 1 < 2 ^ 64) : left i = 2 * i + 1 := by
  unfold left
  rw [Nat.shiftLeft_eq]
  omega

theorem right_eq {i : ℕ} (h : 2 * i + 2 < 2 ^ 64) : right i = 2 * i + 2 := by
  unfold right
  rw [Nat.shiftLeft_eq]
  omega

end Position

end Libtarp
