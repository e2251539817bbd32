import Libtarp.Heap.ImplicitBubble
import Libtarp.Heap.Order

/-!
# Heapsort (`impl/heap_impl.h`)

The macros `max_heapify_down__`, `max_heapify` and `gen_heapsort_routine`, on an array of `n` elements that is read and
written with a check of the bounds. The macros are given the length of what is still a heap, `len`.

* `maxHeapifyDown_spec`: the loop moves a value down as `siftDown` does.
* `maxHeapify_spec`: by induction on the positions, the array is a heap.
* `sortDown_spec`: by induction on the length of the heap, what is behind it is in order and not below it.
* `heapsort_sorts`: the array has the same values, in ascending order.
-/

namespace Libtarp.Heapsort

open Function Lib BinHeap

variable {α : Type}

/-- How a run ends that does not finish. -/
inductive Stop
  | outside
  | assertion
  | rounds
  deriving DecidableEq, Repr

/-- `arr[i]` of an array with `n` elements. -/
def read (n : ℕ) (arr : ℕ → α) (i : ℕ) : Except Stop α := if i < n then .ok (arr i) else .error .outside

/-- `arr[i] = x`. -/
def write (n : ℕ) (arr : ℕ → α) (i : ℕ) (x : α) : Except Stop (ℕ → α) :=
  if i < n then .ok (update arr i x) else .error .outside

/-! ## The macros -/

/-- The greater of `m` and of the child at `ci`, if there is one. -/
def greaterChild (cmp : α → α → Ordering) (n : ℕ) (arr : ℕ → α) (has : Bool) (ci : ℕ) (m : α × ℕ) :
    Except Stop (α × ℕ) :=
  if has then do
    let tmp ← read n arr ci
    pure (if cmp m.1 tmp = .lt then (tmp, ci) else m)
  else pure m

/-- The loop of `max_heapify_down__`; `last` is the parent of the last leaf. -/
def maxHeapifyDown (cmp : α → α → Ordering) (n len last : ℕ) : ℕ → ℕ → (ℕ → α) → Except Stop (ℕ → α)
  | 0, idx, arr => if idx ≤ last then .error .rounds else .ok arr
  | rounds + 1, idx, arr =>
    if idx ≤ last then do
      let cur ← read n arr idx
      let m ← greaterChild cmp n arr (Position.hasLeft idx len) (Position.left idx) (cur, idx)
      let (max, maxidx) ← greaterChild cmp n arr (Position.hasRight idx len) (Position.right idx) m
      if cmp max cur = .eq then
        if maxidx = idx then pure arr else .error .assertion
      else if maxidx = idx then .error .assertion
      else do
        let arr ← write n arr idx max
        let arr ← write n arr maxidx cur
        maxHeapifyDown cmp n len last rounds maxidx arr
    else pure arr

/-- The first rounds of the loop of `max_heapify`, from the parent `j` of the last leaf towards the root. -/
def heapifyRounds (cmp : α → α → Ordering) (n len rounds j : ℕ) : ℕ → (ℕ → α) → Except Stop (ℕ → α)
  | 0, arr => .ok arr
  | i + 1, arr => do
    let arr ← heapifyRounds cmp n len rounds j i arr
    maxHeapifyDown cmp n len (Position.parent (len - 1)) rounds (j - i) arr

/-- `max_heapify`. -/
def maxHeapify (cmp : α → α → Ordering) (n len rounds : ℕ) (arr : ℕ → α) : Except Stop (ℕ → α) :=
  if len < 2 then .ok arr
  else heapifyRounds cmp n len rounds (Position.parent (len - 1)) (Position.parent (len - 1) + 1) arr

/-- The loop that moves the root behind the heap, for `i` down to 1. -/
def sortDown (cmp : α → α → Ordering) (n rounds : ℕ) : ℕ → ℕ → (ℕ → α) → Except Stop (ℕ → α)
  | 0, _, arr => .ok arr
  | i + 1, len, arr => do
    let tmp ← read n arr (i + 1)
    let len := len - 1
    let root ← read n arr 0
    let arr ← write n arr (i + 1) root
    let arr ← write n arr 0 tmp
    let arr ← maxHeapifyDown cmp n len (Position.parent (len - 1)) rounds 0 arr
    sortDown cmp n rounds i len arr

/-- What `gen_heapsort_routine` generates, for an array of `n` elements of which `len` are to be sorted. -/
def heapsort (cmp : α → α → Ordering) (n rounds : ℕ) (arr : ℕ → α) (len : ℕ) : Except Stop (ℕ → α) :=
  if len < 2 then .ok arr
  else do
    let arr ← maxHeapify cmp n len rounds arr
    sortDown cmp n rounds (len - 1) len arr

/-! ## Moving down -/

/-- What belongs further up in a max heap. -/
def above (cmp : α → α → Ordering) (a b : α) : Bool := cmp b a == .lt

variable {cmp : α → α → Ordering} {n len rounds k : ℕ} {arr : ℕ → α}

theorem ranking_above (cmp : α → α → Ordering) [Std.TransCmp cmp] : Ranking (above cmp) := by
  have heq : above cmp = outranks .max cmp id := by
    funext a b
    exact Bool.eq_iff_iff.2 (by simp only [above, outranks, beq_iff_eq, id]; exact Std.OrientedCmp.gt_iff_lt.symm)
  rw [heq]
  exact ranking_outranks cmp .max id

theorem read_ok {i : ℕ} (h : i < n) : read n arr i = .ok (arr i) := if_pos h

theorem write_ok {i : ℕ} (h : i < n) (x : α) : write n arr i x = .ok (update arr i x) := if_pos h

theorem greaterChild_eq (ci mi : ℕ) (hn : len ≤ n) :
    greaterChild cmp n arr (decide (ci < len)) ci (arr mi, mi) =
      .ok (arr (if ci < len ∧ above cmp (arr ci) (arr mi) then ci else mi),
        if ci < len ∧ above cmp (arr ci) (arr mi) then ci else mi) := by
  unfold greaterChild
  by_cases hc : ci < len
  · simp only [hc, decide_true, if_true, read_ok (show ci < n by omega), bind, Except.bind, pure, Except.pure,
      true_and, above, beq_iff_eq]
    split <;> rfl
  · simp only [hc, decide_false, Bool.false_eq_true, if_false, false_and]
    rfl

/-- What comes out of the two comparisons is the greatest of three, and the test for equality tells whether it has
moved. -/
theorem greatest_eq [Std.TransCmp cmp] (arr : ℕ → α) (len k : ℕ) :
    cmp (arr (best (above cmp) arr len k)) (arr k) = .eq ↔ best (above cmp) arr len k = k := by
  constructor
  · intro heq
    rcases best_spec (ranking_above cmp) arr len k with ⟨hb, -⟩ | ⟨-, -, -, hout, -⟩
    · exact hb
    · have hlt : cmp (arr k) (arr (best (above cmp) arr len k)) = .lt := by simpa [above] using hout
      rw [Std.OrientedCmp.eq_symm heq] at hlt
      cases hlt
  · intro hb
    rw [hb]
    exact Std.ReflCmp.compare_self

/-- **The loop of `max_heapify_down__`** moves the value at `k` down. Where one value is left the loop has the greatest
bound there is, but stops at once. -/
theorem maxHeapifyDown_spec [Std.TransCmp cmp] (hn : len ≤ n) (hlen : len < 2 ^ 64) (hstart : 2 ≤ len ∨ k < len)
    (hr : len ≤ rounds + k) : maxHeapifyDown cmp n len (Position.parent (len - 1)) rounds k arr =
      .ok (siftDown (above cmp) len rounds k arr) := by
  induction rounds generalizing k arr with
  | zero =>
    have hlast : ¬k ≤ Position.parent (len - 1) := by
      rw [Position.parent_eq (by omega) (by omega)]
      have := up_lt (show 0 < len - 1 by omega); omega
    rw [maxHeapifyDown, if_neg hlast]; rfl
  | succ rounds ih =>
    by_cases hlast : k ≤ Position.parent (len - 1)
    · -- the children have no more than the greatest number of a child
      have hbound : k < len ∧ 2 * k + 2 < 2 ^ 64 := by
        rcases Nat.lt_or_ge len 2 with h1 | h2
        · omega
        · rw [Position.parent_eq (by omega) (by omega)] at hlast
          unfold up at hlast
          omega
      obtain ⟨hk, hright⟩ := hbound
      rw [maxHeapifyDown, if_pos hlast, read_ok (by omega)]
      simp only [bind, Except.bind, Position.hasLeft, Position.hasRight]
      rw [Position.left_eq (by omega), Position.right_eq hright, greaterChild_eq _ k hn]
      simp only
      rw [greaterChild_eq _ _ hn]
      simp only
      rw [show (if 2 * k + 2 < len ∧ above cmp (arr (2 * k + 2)) (arr (if 2 * k + 1 < len ∧
        above cmp (arr (2 * k + 1)) (arr k) then 2 * k + 1 else k)) then 2 * k + 2 else
        if 2 * k + 1 < len ∧ above cmp (arr (2 * k + 1)) (arr k) then 2 * k + 1 else k) =
          best (above cmp) arr len k from rfl]
      rcases best_cases (above cmp) arr len k with ⟨hb, -⟩ | ⟨hpos, hlt, hup⟩
      · rw [if_pos ((greatest_eq arr len k).2 hb), if_pos hb, siftDown, if_pos hb]; rfl
      · have hkm := up_lt hpos
        have hne : best (above cmp) arr len k ≠ k := by omega
        rw [if_neg (fun he => hne ((greatest_eq arr len k).1 he)), if_neg hne, siftDown, if_neg hne]
        set m := best (above cmp) arr len k
        rw [write_ok (by omega)]
        simp only
        rw [write_ok (by omega)]
        simp only
        rw [← Implicit.exchange_eq_update arr (Ne.symm hne)]
        exact ih (.inr hlt) (by omega)
    · have hb : best (above cmp) arr len k = k := by
        rcases best_cases (above cmp) arr len k with ⟨hb, -⟩ | ⟨hpos, hlt, hup⟩
        · exact hb
        · rw [Position.parent_eq (by omega) (by omega)] at hlast
          unfold up at hlast hup
          omega
      rw [maxHeapifyDown, if_neg hlast, siftDown, if_pos hb]; rfl

/-! ## The heap -/

/-- **`max_heapify`** makes a heap of the values, from the last node above another to the root. -/
theorem heapifyRounds_spec (cmp : α → α → Ordering) [Std.TransCmp cmp] (arr : ℕ → α) (hn : len ≤ n)
    (hlen : len < 2 ^ 64) (h2 : 2 ≤ len) (hr : len ≤ rounds) {i : ℕ} (hi : i ≤ up (len - 1) + 1) :
    ∃ out, heapifyRounds cmp n len rounds (up (len - 1)) i arr = .ok out ∧
      OrderedFrom (above cmp) out len (up (len - 1) + 1 - i) ∧ contents out n = contents arr n ∧
      ∀ j, n ≤ j → out j = arr j := by
  induction i with
  | zero => exact ⟨arr, rfl, orderedFrom_last _ _ _, rfl, fun _ _ => rfl⟩
  | succ i ih =>
    obtain ⟨out, he, hord, hcon, hframe⟩ := ih (by omega)
    rw [heapifyRounds, he]
    simp only [bind, Except.bind]
    rw [maxHeapifyDown_spec hn hlen (.inl h2) (by omega)]
    refine ⟨_, rfl, ?_, ?_, ?_⟩
    · rw [show up (len - 1) + 1 - (i + 1) = up (len - 1) - i by omega]
      rw [show up (len - 1) + 1 - i = up (len - 1) - i + 1 by omega] at hord
      exact siftDown_orderedFrom (ranking_above cmp) hord.downOrderFrom (by omega)
    · rw [siftDown_contents hn, hcon]
    · intro j hj
      rw [siftDown_frame (by omega), hframe j hj]

theorem maxHeapify_spec (cmp : α → α → Ordering) [Std.TransCmp cmp] (arr : ℕ → α) (hn : len ≤ n) (hlen : len < 2 ^ 64)
    (h2 : 2 ≤ len) (hr : len ≤ rounds) :
    ∃ out, maxHeapify cmp n len rounds arr = .ok out ∧ Ordered (above cmp) out len ∧
      contents out n = contents arr n ∧ ∀ j, n ≤ j → out j = arr j := by
  obtain ⟨out, he, hord, hcon, hframe⟩ := heapifyRounds_spec cmp arr hn hlen h2 hr le_rfl
  refine ⟨out, ?_, orderedFrom_zero.1 (by simpa using hord), hcon, hframe⟩
  unfold maxHeapify
  rw [if_neg (by omega), Position.parent_eq (by omega) (by omega), he]

/-! ## Taking the root out -/

/-- The first `len` values are a heap, those behind it are in ascending order, and none of the heap is greater than one
behind it. -/
structure Drained (cmp : α → α → Ordering) (arr : ℕ → α) (n len : ℕ) : Prop where
  heap : Ordered (above cmp) arr len
  sorted : ∀ i j, len ≤ i → i < j → j < n → ¬above cmp (arr i) (arr j)
  below : ∀ i j, i < len → len ≤ j → j < n → ¬above cmp (arr i) (arr j)

/-- **One round**: the root goes behind the heap, the last leaf takes its place and moves down. -/
theorem Drained.step [Std.TransCmp cmp] (h : Drained cmp arr n (len + 1)) (hr : len ≤ rounds) :
    Drained cmp (siftDown (above cmp) len rounds 0 (exchange arr 0 len)) n len := by
  have R := ranking_above cmp
  set g := exchange arr 0 len with hg
  -- the root behind the heap, and what was there before
  have hlast : siftDown (above cmp) len rounds 0 g len = arr 0 := by
    rw [siftDown_frame le_rfl, hg, exchange_right]
  have hbehind : ∀ j, len < j → siftDown (above cmp) len rounds 0 g j = arr j := by
    intro j hj
    rw [siftDown_frame hj.le, hg, exchange_of_ne arr (by omega) (by omega)]
  -- what is left in the heap was there before
  have hin : ∀ i < len, ∃ x < len + 1, siftDown (above cmp) len rounds 0 g i = arr x := by
    intro i hi
    have hsame : SameValues g (siftDown (above cmp) len rounds 0 g) len := siftDown_same
    obtain ⟨y, hy, hgy⟩ := (hsame _).1 ⟨i, hi, rfl⟩
    exact ⟨_, swap_lt (by omega) (by omega) (show y < len + 1 by omega), hgy.symm⟩
  refine ⟨?_, ?_, ?_⟩
  · refine siftDown_ordered R (h.heap.downOrder R (by omega) ?_ fun h0 => absurd h0 (lt_irrefl 0)) (by omega)
    intro a ha b hb ha0 hb0
    rw [hg, exchange_of_ne arr ha0 (by omega), exchange_of_ne arr hb0 (by omega)]
  · intro i j hi hij hj
    rw [hbehind j (by omega)]
    rcases Nat.eq_or_lt_of_le hi with rfl | hlt
    · rw [hlast]
      exact h.below 0 j (by omega) (by omega) hj
    · rw [hbehind i hlt]
      exact h.sorted i j hlt hij hj
  · intro i j hi hj hjn
    obtain ⟨x, hx, he⟩ := hin i hi
    rw [he]
    rcases Nat.eq_or_lt_of_le hj with rfl | hlt
    · rw [hlast]
      exact h.heap.root R hx
    · rw [hbehind j hlt]
      exact h.below x j hx hlt hjn

theorem sortDown_spec [Std.TransCmp cmp] (hn : n < 2 ^ 64) (hr : n ≤ rounds) {i : ℕ} (hi : i + 1 ≤ n)
    (h : Drained cmp arr n (i + 1)) : ∃ out, sortDown cmp n rounds i (i + 1) arr = .ok out ∧ Drained cmp out n 1 ∧
      contents out n = contents arr n ∧ ∀ j, n ≤ j → out j = arr j := by
  induction i generalizing arr with
  | zero => exact ⟨arr, rfl, h, rfl, fun _ _ => rfl⟩
  | succ i ih =>
    have hswap : update (update arr (i + 1) (arr 0)) 0 (arr (i + 1)) = exchange arr 0 (i + 1) := by
      rw [← Implicit.exchange_eq_update arr (show i + 1 ≠ 0 by omega), exchange, exchange, Equiv.swap_comm]
    obtain ⟨out, he, hd, hcon, hframe⟩ := ih (by omega) (h.step (show i + 1 ≤ rounds by omega))
    refine ⟨out, ?_, hd, ?_, ?_⟩
    · rw [sortDown, read_ok (by omega), read_ok (by omega)]
      simp only [bind, Except.bind]
      rw [write_ok (by omega)]
      simp only
      rw [write_ok (by omega)]
      simp only
      rw [hswap, show i + 1 + 1 - 1 = i + 1 by omega,
        maxHeapifyDown_spec (by omega) (by omega) (.inr (by omega)) (by omega)]
      exact he
    · rw [hcon, siftDown_contents (by omega), contents_exchange (by omega) (by omega)]
    · intro j hj
      rw [hframe j hj, siftDown_frame (by omega), exchange_of_ne arr (by omega) (by omega)]

/-- **The generated routine sorts**: no access is outside the array, no assertion fails, the values are those that were
there, each as often, and they are in ascending order. -/
theorem heapsort_sorts (cmp : α → α → Ordering) [Std.TransCmp cmp] (n rounds : ℕ) (arr : ℕ → α) (hn : n < 2 ^ 64)
    (hr : n ≤ rounds) : ∃ out, heapsort cmp n rounds arr n = .ok out ∧ contents out n = contents arr n ∧
      (∀ i j, i < j → j < n → cmp (out i) (out j) ≠ .gt) ∧ ∀ i, n ≤ i → out i = arr i := by
  unfold heapsort
  by_cases h2 : n < 2
  · rw [if_pos h2]
    refine ⟨arr, rfl, rfl, ?_, fun _ _ => rfl⟩
    intro i j hij hj
    omega
  rw [if_neg h2]
  obtain ⟨heap, he, hord, hcon, hframe⟩ := maxHeapify_spec cmp arr (le_refl n) hn (by omega) hr
  have hdrained : Drained cmp heap n (n - 1 + 1) := by
    rw [show n - 1 + 1 = n by omega]
    exact ⟨hord, fun i j hi hij hj => absurd hj (by omega), fun i j _ hj hjn => absurd hjn (by omega)⟩
  obtain ⟨out, hs, hd, hcon', hframe'⟩ := sortDown_spec hn hr (by omega) hdrained
  rw [show n - 1 + 1 = n by omega] at hs
  refine ⟨out, ?_, hcon'.trans hcon, ?_, fun i hi => (hframe' i hi).trans (hframe i hi)⟩
  · rw [he]
    exact hs
  · intro i j hij hj hgt
    have hlt : above cmp (out i) (out j) := by
      simpa [above] using Std.OrientedCmp.gt_iff_lt.1 hgt
    rcases Nat.eq_zero_or_pos i with rfl | hi
    · exact hd.below 0 j (by omega) (by omega) hj hlt
    · exact hd.sorted i j hi hij hj hlt

theorem heapsort_sorts_three : ∃ out, heapsort compare 3 3 (fun i => [2, 3, 1].getD i 0) 3 = .ok out ∧
    contents out 3 = contents (fun i => [2, 3, 1].getD i 0) 3 ∧
    (∀ i j, i < j → j < 3 → compare (out i) (out j) ≠ .gt) ∧ ∀ i, 3 ≤ i → out i = [2, 3, 1].getD i 0 :=
  heapsort_sorts (compare : ℕ → ℕ → Ordering) 3 3 _ (by decide) le_rfl

end Libtarp.Heapsort
