import Mathlib.Data.Multiset.Range
import Mathlib.Logic.Equiv.Basic
import Mathlib.Tactic.Common

/-!
# Binary heaps in level order

The nodes of a complete binary tree are numbered level by level, from 0 on; `f` gives what
is at each number and `n` is how many there are. `out a b` says that `a` belongs strictly
above `b`.

* `UpOrder`, `DownOrder`: the order but for one position, whose value may have to move up,
  or down.
* `UpOrder.step`, `DownOrderFrom.step`: one exchange moves the exception by a level.
* `siftUp_ordered`, `siftDown_ordered`: with rounds enough the exception is gone.
* `OrderedFrom`: the order from one number on, which `siftDown_orderedFrom` brings forward by one.
* `Ordered.root`: no value belongs above the one at the root.
* `SameValues`: moving values about neither adds nor loses any.
* `contents`: the values as a multiset. Where none is there twice, `With` and `Without` say what it becomes.
-/

namespace Libtarp.Lib

variable {α : Type*} {out : α → α → Bool} {f : ℕ → α} {n k : ℕ}

/-- A strict order with ties: being not above is transitive. -/
structure Ranking (out : α → α → Bool) : Prop where
  asymm : ∀ {a b}, out a b → ¬out b a
  negTrans : ∀ {a b c}, ¬out a b → ¬out b c → ¬out a c

theorem Ranking.trans (R : Ranking out) {a b c : α} (hab : out a b) (hbc : out b c) : out a c := by
  by_contra h
  exact R.negTrans h (R.asymm hbc) hab

theorem Ranking.irrefl (R : Ranking out) (a : α) : ¬out a a := fun h => R.asymm h h

namespace BinHeap

/-- The number of the node above. -/
def up (i : ℕ) : ℕ := (i - 1) / 2

theorem up_lt {i : ℕ} (h : 0 < i) : up i < i := by unfold up; omega

theorem up_eq_iff {i k : ℕ} (h : 0 < i) : up i = k ↔ i = 2 * k + 1 ∨ i = 2 * k + 2 := by
  unfold up; omega

/-- No value belongs strictly above the one at the node above. -/
def Ordered (out : α → α → Bool) (f : ℕ → α) (n : ℕ) : Prop :=
  ∀ i, 0 < i → i < n → ¬out (f i) (f (up i))

/-- The order, but what is at `k` may belong further up. -/
structure UpOrder (out : α → α → Bool) (f : ℕ → α) (n k : ℕ) : Prop where
  except : ∀ i, 0 < i → i < n → i ≠ k → ¬out (f i) (f (up i))
  grand : ∀ i, 0 < i → i < n → up i = k → 0 < k → ¬out (f i) (f (up k))

/-- The order, but what is at `k` may belong further down. -/
structure DownOrder (out : α → α → Bool) (f : ℕ → α) (n k : ℕ) : Prop where
  except : ∀ i, 0 < i → i < n → up i ≠ k → ¬out (f i) (f (up i))
  grand : ∀ i, 0 < i → i < n → up i = k → 0 < k → ¬out (f i) (f (up k))

/-- The order at the nodes above which there is one numbered `lo` or later. -/
def OrderedFrom (out : α → α → Bool) (f : ℕ → α) (n lo : ℕ) : Prop :=
  ∀ i, 0 < i → i < n → lo ≤ up i → ¬out (f i) (f (up i))

/-- The same, but what is at `k` may belong further down. -/
structure DownOrderFrom (out : α → α → Bool) (f : ℕ → α) (n lo k : ℕ) : Prop where
  except : ∀ i, 0 < i → i < n → lo ≤ up i → up i ≠ k → ¬out (f i) (f (up i))
  grand : ∀ i, 0 < i → i < n → up i = k → 0 < k → lo ≤ up k → ¬out (f i) (f (up k))

theorem orderedFrom_zero : OrderedFrom out f n 0 ↔ Ordered out f n :=
  ⟨fun h i hi hin => h i hi hin (Nat.zero_le _), fun h i hi hin _ => h i hi hin⟩

theorem downOrderFrom_zero : DownOrderFrom out f n 0 k ↔ DownOrder out f n k :=
  ⟨fun h => ⟨fun i hi hin => h.except i hi hin (Nat.zero_le _), fun i hi hin hup h0 => h.grand i hi hin hup h0 (Nat.zero_le _)⟩,
    fun h => ⟨fun i hi hin _ => h.except i hi hin, fun i hi hin hup h0 _ => h.grand i hi hin hup h0⟩⟩

/-- Below the last node above another there is nothing to order. -/
theorem orderedFrom_last (out : α → α → Bool) (f : ℕ → α) (n : ℕ) : OrderedFrom out f n (up (n - 1) + 1) := by
  intro i hi hin hlo
  unfold up at hlo
  omega

/-- One node earlier, what is there may have to move down. -/
theorem OrderedFrom.downOrderFrom (h : OrderedFrom out f n (k + 1)) : DownOrderFrom out f n k k := by
  constructor
  · intro i hi hin hlo hne
    exact h i hi hin (by omega)
  · intro i hi hin hup h0 hlo
    have := up_lt h0
    omega

/-- The values at `i` and `j` exchanged. -/
def exchange (f : ℕ → α) (i j : ℕ) : ℕ → α := f ∘ Equiv.swap i j

@[simp] theorem exchange_left (f : ℕ → α) (i j : ℕ) : exchange f i j i = f j := by simp [exchange]

@[simp] theorem exchange_right (f : ℕ → α) (i j : ℕ) : exchange f i j j = f i := by simp [exchange]

theorem exchange_of_ne (f : ℕ → α) {i j k : ℕ} (hi : k ≠ i) (hj : k ≠ j) : exchange f i j k = f k := by
  simp [exchange, Equiv.swap_apply_of_ne_of_ne hi hj]

theorem swap_lt {i j x : ℕ} (hi : i < n) (hj : j < n) (hx : x < n) : Equiv.swap i j x < n := by
  rw [Equiv.swap_apply_def]
  split_ifs <;> assumption

/-- Where what is at `k` has to go next: to the child that belongs above the other and above
it, or nowhere. -/
def best (out : α → α → Bool) (f : ℕ → α) (n k : ℕ) : ℕ :=
  let m := if 2 * k + 1 < n ∧ out (f (2 * k + 1)) (f k) then 2 * k + 1 else k
  if 2 * k + 2 < n ∧ out (f (2 * k + 2)) (f m) then 2 * k + 2 else m

/-- What is at `k` moved up until it is in order, for at most so many rounds. -/
def siftUp (out : α → α → Bool) : ℕ → ℕ → (ℕ → α) → ℕ → α
  | 0, _, f => f
  | rounds + 1, k, f =>
    if 0 < k ∧ out (f k) (f (up k)) then siftUp out rounds (up k) (exchange f k (up k)) else f

/-- What is at `k` moved down until it is in order, for at most so many rounds. -/
def siftDown (out : α → α → Bool) (n : ℕ) : ℕ → ℕ → (ℕ → α) → ℕ → α
  | 0, _, f => f
  | rounds + 1, k, f =>
    if best out f n k = k then f
    else siftDown out n rounds (best out f n k) (exchange f k (best out f n k))

/-- `best` names `k`, above which no child of `k` belongs, or one of the children. -/
theorem best_cases (out : α → α → Bool) (f : ℕ → α) (n k : ℕ) :
    best out f n k = k ∧ (∀ i, 0 < i → i < n → up i = k → ¬out (f i) (f k)) ∨
      0 < best out f n k ∧ best out f n k < n ∧ up (best out f n k) = k := by
  unfold best
  by_cases hl : 2 * k + 1 < n ∧ out (f (2 * k + 1)) (f k)
  · rw [if_pos hl]
    by_cases hr : 2 * k + 2 < n ∧ out (f (2 * k + 2)) (f (2 * k + 1))
    · rw [if_pos hr]
      exact .inr ⟨by omega, hr.1, by unfold up; omega⟩
    · rw [if_neg hr]
      exact .inr ⟨by omega, hl.1, by unfold up; omega⟩
  · rw [if_neg hl]
    by_cases hr : 2 * k + 2 < n ∧ out (f (2 * k + 2)) (f k)
    · rw [if_pos hr]
      exact .inr ⟨by omega, hr.1, by unfold up; omega⟩
    · rw [if_neg hr]
      refine .inl ⟨rfl, ?_⟩
      intro i hi hin hup
      rcases (up_eq_iff hi).1 hup with rfl | rfl
      · exact fun h => hl ⟨hin, h⟩
      · exact fun h => hr ⟨hin, h⟩

/-- The child `best` names belongs above `k`, and no child of `k` above it. -/
theorem best_spec (R : Ranking out) (f : ℕ → α) (n k : ℕ) :
    best out f n k = k ∧ (∀ i, 0 < i → i < n → up i = k → ¬out (f i) (f k)) ∨
      0 < best out f n k ∧ best out f n k < n ∧ up (best out f n k) = k ∧
        out (f (best out f n k)) (f k) ∧
        ∀ i, 0 < i → i < n → up i = k → ¬out (f i) (f (best out f n k)) := by
  rcases best_cases out f n k with hstay | ⟨hpos, hlt, hup⟩
  · exact .inl hstay
  refine .inr ⟨hpos, hlt, hup, ?_⟩
  have hk : best out f n k ≠ k := by
    have := up_lt hpos
    omega
  unfold best at hk ⊢
  -- the left child takes the place of its parent first, and the right one the place of either
  by_cases hl : 2 * k + 1 < n ∧ out (f (2 * k + 1)) (f k)
  · rw [if_pos hl]
    by_cases hr : 2 * k + 2 < n ∧ out (f (2 * k + 2)) (f (2 * k + 1))
    · rw [if_pos hr]
      refine ⟨R.trans hr.2 hl.2, ?_⟩
      intro i hi _ hup
      rcases (up_eq_iff hi).1 hup with rfl | rfl
      · exact R.asymm hr.2
      · exact R.irrefl _
    · rw [if_neg hr]
      refine ⟨hl.2, ?_⟩
      intro i hi hin hup
      rcases (up_eq_iff hi).1 hup with rfl | rfl
      · exact R.irrefl _
      · exact fun h => hr ⟨hin, h⟩
  · rw [if_neg hl] at hk ⊢
    by_cases hr : 2 * k + 2 < n ∧ out (f (2 * k + 2)) (f k)
    · rw [if_pos hr]
      refine ⟨hr.2, ?_⟩
      intro i hi hin hup
      rcases (up_eq_iff hi).1 hup with rfl | rfl
      · exact fun h => hl ⟨hin, R.trans h hr.2⟩
      · exact R.irrefl _
    · rw [if_neg hr] at hk
      exact absurd rfl hk

theorem UpOrder.ordered (h : UpOrder out f n k) (hk : 0 < k → ¬out (f k) (f (up k))) :
    Ordered out f n := by
  intro i hi hin
  by_cases hik : i = k
  · subst hik; exact hk hi
  · exact h.except i hi hin hik

theorem DownOrderFrom.ordered {lo : ℕ} (h : DownOrderFrom out f n lo k)
    (hk : ∀ i, 0 < i → i < n → up i = k → ¬out (f i) (f k)) : OrderedFrom out f n lo := by
  intro i hi hin hlo
  by_cases hup : up i = k
  · rw [hup]; exact hk i hi hin hup
  · exact h.except i hi hin hlo hup

/-- The order survives but for one position `k`, where what is there now belongs no further up.
Neither the other values nor how they compare have changed. -/
theorem Ordered.downOrder {out' : α → α → Bool} {g : ℕ → α} {m : ℕ} (R : Ranking out)
    (h : Ordered out f n) (hm : m ≤ n)
    (hag : ∀ a < m, ∀ b < m, a ≠ k → b ≠ k → out' (g a) (g b) = out (f a) (f b))
    (hk : 0 < k → k < m → ¬out' (g k) (g (up k))) : DownOrder out' g m k := by
  constructor
  · intro i hi him hup
    by_cases hik : i = k
    · subst hik; exact hk hi him
    · rw [hag i him (up i) (by have := up_lt hi; omega) hik hup]
      exact h i hi (by omega)
  · intro i hi him hup h0
    have h₁ := up_lt hi
    have h₂ := up_lt h0
    rw [hag i him (up k) (by omega) (by omega) (by omega)]
    have h₃ := h i hi (by omega)
    rw [hup] at h₃
    exact R.negTrans h₃ (h k h0 (by omega))

/-- The same, where it belongs no further down. -/
theorem Ordered.upOrder {out' : α → α → Bool} {g : ℕ → α} (R : Ranking out) (R' : Ranking out')
    (h : Ordered out f n) (h0 : 0 < k)
    (hag : ∀ a < n, ∀ b < n, a ≠ k → b ≠ k → out' (g a) (g b) = out (f a) (f b))
    (hk : ¬out' (g (up k)) (g k)) : UpOrder out' g n k := by
  have hgrand : ∀ i, 0 < i → i < n → up i = k → ¬out' (g i) (g (up k)) := by
    intro i hi hin hup
    have h₁ := up_lt hi
    have h₂ := up_lt h0
    rw [hag i hin (up k) (by omega) (by omega) (by omega)]
    have h₃ := h i hi hin
    rw [hup] at h₃
    exact R.negTrans h₃ (h k h0 (by omega))
  constructor
  · intro i hi hin hik
    by_cases hup : up i = k
    · rw [hup]; exact R'.negTrans (hgrand i hi hin hup) hk
    · rw [hag i hin (up i) (by have := up_lt hi; omega) hik hup]
      exact h i hi hin
  · intro i hi hin hup _
    exact hgrand i hi hin hup

/-- One more value, at the end. -/
theorem Ordered.append {out' : α → α → Bool} {g : ℕ → α} (h : Ordered out f n)
    (hag : ∀ a < n, ∀ b < n, out' (g a) (g b) = out (f a) (f b)) : UpOrder out' g (n + 1) n := by
  constructor
  · intro i hi hin hne
    rw [hag i (by omega) (up i) (by have := up_lt hi; omega)]
    exact h i hi (by omega)
  · intro i hi hin hup
    have := up_lt hi; omega

/-- **One step up.** -/
theorem UpOrder.step (R : Ranking out) (h : UpOrder out f n k) (hk : 0 < k)
    (hout : out (f k) (f (up k))) : UpOrder out (exchange f k (up k)) n (up k) := by
  have hlt := up_lt hk
  constructor
  · intro i hi hin hne
    by_cases hik : i = k
    · subst hik
      rw [exchange_left, exchange_right]; exact R.asymm hout
    rw [exchange_of_ne f hik hne]
    by_cases hup : up i = up k
    · -- a sibling is not above the old parent, nor is that above the new one
      rw [hup, exchange_right]
      exact R.negTrans (hup ▸ h.except i hi hin hik) (R.asymm hout)
    by_cases hupk : up i = k
    · rw [hupk, exchange_left]; exact h.grand i hi hin hupk hk
    · rw [exchange_of_ne f hupk hup]; exact h.except i hi hin hik
  · intro i hi hin hup hpos
    have hlt' := up_lt hpos
    rw [exchange_of_ne f (show up (up k) ≠ k by omega) (by omega)]
    by_cases hik : i = k
    · subst hik
      rw [exchange_left]; exact h.except (up i) hpos (by omega) (by omega)
    · have hne : i ≠ up k := by
        rintro rfl
        have := up_lt hi; omega
      rw [exchange_of_ne f hik hne]
      have h₁ := h.except i hi hin hik
      rw [hup] at h₁
      exact R.negTrans h₁ (h.except (up k) hpos (by have := up_lt hi; omega) (by omega))

/-- **One step down**, to the child `m`. -/
theorem DownOrderFrom.step {lo m : ℕ} (R : Ranking out) (h : DownOrderFrom out f n lo k) (hm : 0 < m)
    (hmn : m < n) (hup : up m = k) (hout : out (f m) (f k))
    (hbest : ∀ i, 0 < i → i < n → up i = k → ¬out (f i) (f m)) :
    DownOrderFrom out (exchange f k m) n lo m := by
  have hlt : k < m := hup ▸ up_lt hm
  constructor
  · intro i hi hin hlo hne
    by_cases him : i = m
    · subst him
      rw [exchange_right, hup, exchange_left]; exact R.asymm hout
    by_cases hik : i = k
    · subst hik
      have := up_lt hi
      rw [exchange_left, exchange_of_ne f (by omega) hne]
      exact h.grand m hm hmn hup hi hlo
    rw [exchange_of_ne f hik him]
    by_cases hupk : up i = k
    · rw [hupk, exchange_left]; exact hbest i hi hin hupk
    · rw [exchange_of_ne f hupk hne]; exact h.except i hi hin hlo hupk
  · intro i hi hin hupi _ hlo
    have := up_lt hi
    rw [hup, exchange_left, exchange_of_ne f (by omega) (by omega)]
    have h₁ := h.except i hi hin (by omega) (by omega)
    rwa [hupi] at h₁

/-- **Moving up restores the order.** -/
theorem siftUp_ordered (R : Ranking out) {rounds : ℕ} (h : UpOrder out f n k) (hr : k ≤ rounds) :
    Ordered out (siftUp out rounds k f) n := by
  induction rounds generalizing f k with
  | zero =>
    obtain rfl : k = 0 := by omega
    exact h.ordered fun h0 => absurd h0 (by omega)
  | succ rounds ih =>
    unfold siftUp
    by_cases hc : 0 < k ∧ out (f k) (f (up k))
    · rw [if_pos hc]
      exact ih (h.step R hc.1 hc.2) (by have := up_lt hc.1; omega)
    · rw [if_neg hc]
      exact h.ordered fun h0 h1 => hc ⟨h0, h1⟩

/-- **Moving down restores the order**, as far as there was one. -/
theorem siftDown_orderedFrom (R : Ranking out) {lo rounds : ℕ} (h : DownOrderFrom out f n lo k)
    (hr : n ≤ rounds + k) : OrderedFrom out (siftDown out n rounds k f) n lo := by
  induction rounds generalizing f k with
  | zero =>
    refine h.ordered fun i hi hin hup => ?_
    have := up_lt hi; omega
  | succ rounds ih =>
    unfold siftDown
    rcases best_spec R f n k with ⟨hb, hk⟩ | ⟨hpos, hlt, hup, hout, hbest⟩
    · rw [if_pos hb]; exact h.ordered hk
    · have hkm : k < best out f n k := by
        have := up_lt hpos; omega
      rw [if_neg (by omega)]
      exact ih (h.step R hpos hlt hup hout hbest) (by omega)

theorem siftDown_ordered (R : Ranking out) {rounds : ℕ} (h : DownOrder out f n k)
    (hr : n ≤ rounds + k) : Ordered out (siftDown out n rounds k f) n :=
  orderedFrom_zero.1 (siftDown_orderedFrom R (downOrderFrom_zero.2 h) hr)

/-- **No value belongs above the one at the root.** -/
theorem Ordered.root (R : Ranking out) (h : Ordered out f n) {i : ℕ} (hi : i < n) : ¬out (f i) (f 0) := by
  induction i using Nat.strongRecOn with
  | ind i ih =>
    rcases Nat.eq_zero_or_pos i with rfl | hpos
    · exact R.irrefl _
    · have hlt := up_lt hpos
      exact R.negTrans (h i hpos hi) (ih (up i) hlt (by omega))

/-- The values at the first `n` numbers. -/
def Among (f : ℕ → α) (n : ℕ) (x : α) : Prop := ∃ i < n, f i = x

/-- Two arrangements of the same values. -/
def SameValues (f g : ℕ → α) (n : ℕ) : Prop := ∀ x, Among g n x ↔ Among f n x

theorem SameValues.refl (f : ℕ → α) (n : ℕ) : SameValues f f n := fun _ => Iff.rfl

theorem SameValues.trans {g h : ℕ → α} (hfg : SameValues f g n) (hgh : SameValues g h n) : SameValues f h n :=
  fun x => (hgh x).trans (hfg x)

theorem SameValues.exchange {i j : ℕ} (hi : i < n) (hj : j < n) : SameValues f (exchange f i j) n := by
  intro x
  constructor
  · rintro ⟨k, hk, rfl⟩
    exact ⟨_, swap_lt hi hj hk, rfl⟩
  · rintro ⟨k, hk, rfl⟩
    exact ⟨_, swap_lt hi hj hk, congrArg f (Equiv.swap_apply_self i j k)⟩

theorem siftUp_same {rounds : ℕ} (hk : k < n) : SameValues f (siftUp out rounds k f) n := by
  induction rounds generalizing f k with
  | zero => exact .refl f n
  | succ rounds ih =>
    unfold siftUp
    split_ifs with hc
    · have hlt := up_lt hc.1
      exact (SameValues.exchange hk (by omega)).trans (ih (by omega))
    · exact .refl f n

/-- Past the end nothing moves. -/
theorem siftDown_frame {rounds i : ℕ} (hi : n ≤ i) : siftDown out n rounds k f i = f i := by
  induction rounds generalizing f k with
  | zero => rfl
  | succ rounds ih =>
    unfold siftDown
    split_ifs with hb
    · rfl
    · rcases best_cases out f n k with ⟨hbest, -⟩ | ⟨hpos, hlt, hup⟩
      · exact absurd hbest hb
      · have hkm := up_lt hpos
        rw [ih, exchange_of_ne f (by omega) (by omega)]

theorem siftDown_same {rounds : ℕ} : SameValues f (siftDown out n rounds k f) n := by
  induction rounds generalizing f k with
  | zero => exact .refl f n
  | succ rounds ih =>
    unfold siftDown
    split_ifs with hb
    · exact .refl f n
    · rcases best_cases out f n k with ⟨hbest, -⟩ | ⟨hpos, hlt, hup⟩
      · exact absurd hbest hb
      · have hkm := up_lt hpos
        exact (SameValues.exchange (by omega) hlt).trans ih

/-- One value more. -/
structure With (x : α) (f : ℕ → α) (n : ℕ) (g : ℕ → α) (m : ℕ) : Prop where
  count : m = n + 1
  values : ∀ y, Among g m y ↔ Among f n y ∨ y = x

/-- One value less. -/
structure Without (x : α) (f : ℕ → α) (n : ℕ) (g : ℕ → α) (m : ℕ) : Prop where
  count : m + 1 = n
  values : ∀ y, Among g m y ↔ Among f n y ∧ y ≠ x

theorem with_last {g : ℕ → α} (h : ∀ j < n, g j = f j) : With (g n) f n g (n + 1) := by
  refine ⟨rfl, fun y => ⟨?_, ?_⟩⟩
  · rintro ⟨j, hj, rfl⟩
    rcases Nat.lt_succ_iff_lt_or_eq.1 hj with hlt | rfl
    · exact .inl ⟨j, hlt, (h j hlt).symm⟩
    · exact .inr rfl
  · rintro (⟨j, hj, rfl⟩ | rfl)
    · exact ⟨j, by omega, h j hj⟩
    · exact ⟨n, by omega, rfl⟩

theorem With.same {g g' : ℕ → α} {x : α} {m : ℕ} (h : With x f n g m) (hs : SameValues g g' m) : With x f n g' m :=
  ⟨h.count, fun y => (hs y).trans (h.values y)⟩

theorem Without.same {g g' : ℕ → α} {x : α} {m : ℕ} (h : Without x f n g m) (hs : SameValues g g' m) :
    Without x f n g' m :=
  ⟨h.count, fun y => (hs y).trans (h.values y)⟩

/-- Of one value none is left. -/
theorem without_only (f g : ℕ → α) : Without (f 0) f 1 g 0 := by
  refine ⟨rfl, fun y => ⟨?_, ?_⟩⟩
  · rintro ⟨j, hj, -⟩
    exact absurd hj (Nat.not_lt_zero j)
  · rintro ⟨⟨j, hj, rfl⟩, hne⟩
    obtain rfl : j = 0 := Nat.lt_one_iff.1 hj
    exact absurd rfl hne

/-- No value is at two numbers. -/
def Distinct (f : ℕ → α) (n : ℕ) : Prop := ∀ i < n, ∀ j < n, f i = f j → i = j

theorem Distinct.exchange {i j : ℕ} (h : Distinct f n) (hi : i < n) (hj : j < n) :
    Distinct (exchange f i j) n := by
  intro x hx y hy hxy
  exact (Equiv.swap i j).injective (h _ (swap_lt hi hj hx) _ (swap_lt hi hj hy) hxy)

/-- The last value takes the place of the one at `i`, which is gone. -/
theorem Distinct.without_last {g : ℕ → α} {i : ℕ} (h : Distinct f (n + 1)) (hi : i ≤ n)
    (hoff : ∀ j < n, j ≠ i → g j = f j) (hat : i < n → g i = f n) : Without (f i) f (n + 1) g n := by
  refine ⟨rfl, fun x => ⟨?_, ?_⟩⟩
  · rintro ⟨j, hj, rfl⟩
    by_cases hji : j = i
    · subst hji
      rw [hat hj]
      refine ⟨⟨n, by omega, rfl⟩, fun he => ?_⟩
      have := h n (by omega) j (by omega) he
      omega
    · rw [hoff j hj hji]
      exact ⟨⟨j, by omega, rfl⟩, fun he => hji (h j (by omega) i (by omega) he)⟩
  · rintro ⟨⟨j, hj, rfl⟩, hne⟩
    have hji : j ≠ i := fun he => hne (congrArg f he)
    rcases Nat.lt_succ_iff_lt_or_eq.1 hj with hlt | rfl
    · exact ⟨j, hlt, hoff j hlt hji⟩
    · exact ⟨i, by omega, hat (by omega)⟩

theorem Distinct.of_last {g : ℕ → α} {i : ℕ} (h : Distinct f (n + 1)) (hi : i ≤ n)
    (hoff : ∀ j < n, j ≠ i → g j = f j) (hat : i < n → g i = f n) : Distinct g n := by
  -- where the value at `j` comes from
  have hval : ∀ j < n, ∃ x < n + 1, g j = f x ∧ (j ≠ i → x = j) ∧ (j = i → x = n) := by
    intro j hj
    by_cases hji : j = i
    · subst hji
      exact ⟨n, by omega, hat hj, fun hne => absurd rfl hne, fun _ => rfl⟩
    · exact ⟨j, by omega, hoff j hj hji, fun _ => rfl, fun he => absurd he hji⟩
  intro a ha b hb hab
  obtain ⟨x, hx, hax, hx₁, hx₂⟩ := hval a ha
  obtain ⟨y, hy, hby, hy₁, hy₂⟩ := hval b hb
  have hxy := h x hx y hy (by rw [← hax, ← hby, hab])
  by_cases hai : a = i <;> by_cases hbi : b = i
  · omega
  · have := hx₂ hai
    have := hy₁ hbi
    omega
  · have := hx₁ hai
    have := hy₂ hbi
    omega
  · have := hx₁ hai
    have := hy₁ hbi
    omega

theorem siftUp_distinct {rounds : ℕ} (h : Distinct f n) (hk : k < n) : Distinct (siftUp out rounds k f) n := by
  induction rounds generalizing f k with
  | zero => exact h
  | succ rounds ih =>
    unfold siftUp
    split_ifs with hc
    · have hlt := up_lt hc.1
      exact ih (h.exchange hk (by omega)) (by omega)
    · exact h

theorem siftDown_distinct {rounds : ℕ} (h : Distinct f n) : Distinct (siftDown out n rounds k f) n := by
  induction rounds generalizing f k with
  | zero => exact h
  | succ rounds ih =>
    unfold siftDown
    split_ifs with hb
    · exact h
    · rcases best_cases out f n k with ⟨hbest, -⟩ | ⟨hpos, hlt, hup⟩
      · exact absurd hbest hb
      · have hkm := up_lt hpos
        exact ih (h.exchange (by omega) hlt)

/-! ## The values as a multiset -/

/-- The values at the first `n` numbers, each as often as it is there. -/
def contents (f : ℕ → α) (n : ℕ) : Multiset α := (Multiset.range n).map f

theorem mem_contents {x : α} : x ∈ contents f n ↔ Among f n x := by
  simp only [contents, Multiset.mem_map, Multiset.mem_range, Among]

theorem contents_exchange {i j : ℕ} (hi : i < n) (hj : j < n) : contents (exchange f i j) n = contents f n := by
  have hrange : (Multiset.range n).map (Equiv.swap i j) = Multiset.range n := by
    refine (Multiset.Nodup.ext ((Multiset.nodup_range n).map (Equiv.swap i j).injective) (Multiset.nodup_range n)).2 ?_
    intro x
    rw [Multiset.mem_map, Multiset.mem_range]
    constructor
    · rintro ⟨y, hy, rfl⟩
      exact swap_lt hi hj (Multiset.mem_range.1 hy)
    · intro hx
      exact ⟨Equiv.swap i j x, Multiset.mem_range.2 (swap_lt hi hj hx), Equiv.swap_apply_self i j x⟩
  unfold contents exchange
  rw [← Multiset.map_map, hrange]

theorem siftDown_contents {m rounds : ℕ} (hm : n ≤ m) : contents (siftDown out n rounds k f) m = contents f m := by
  induction rounds generalizing f k with
  | zero => rfl
  | succ rounds ih =>
    unfold siftDown
    split_ifs with hb
    · rfl
    · rcases best_cases out f n k with ⟨hbest, -⟩ | ⟨hpos, hlt, hup⟩
      · exact absurd hbest hb
      · have hkm := up_lt hpos
        rw [ih, contents_exchange (by omega) (by omega)]

theorem Distinct.nodup (h : Distinct f n) : (contents f n).Nodup := by
  refine (Multiset.nodup_range n).map_on ?_
  intro i hi j hj hij
  exact h i (Multiset.mem_range.1 hi) j (Multiset.mem_range.1 hj) hij

/-- Without two values that it has once each, a multiset is not the same. -/
theorem eq_of_erase_eq [DecidableEq α] {s : Multiset α} {a b : α} (hs : s.Nodup) (ha : a ∈ s)
    (h : s.erase a = s.erase b) : a = b := by
  by_contra hne
  have hin : a ∈ s.erase b := hs.mem_erase_iff.2 ⟨hne, ha⟩
  rw [← h] at hin
  exact hs.notMem_erase hin

theorem SameValues.contents_eq {g : ℕ → α} (h : SameValues f g n) (hf : Distinct f n) (hg : Distinct g n) :
    contents g n = contents f n := by
  refine (Multiset.Nodup.ext hg.nodup hf.nodup).2 fun x => ?_
  rw [mem_contents, mem_contents]
  exact h x

theorem With.contents_cons {g : ℕ → α} {x : α} {m : ℕ} (h : With x f n g m) (hf : Distinct f n) (hg : Distinct g m)
    (hx : ¬Among f n x) : contents g m = x ::ₘ contents f n := by
  have hnodup : (x ::ₘ contents f n).Nodup := Multiset.nodup_cons.2 ⟨fun hm => hx (mem_contents.1 hm), hf.nodup⟩
  refine (Multiset.Nodup.ext hg.nodup hnodup).2 fun y => ?_
  rw [mem_contents, h.values, Multiset.mem_cons, mem_contents]
  exact or_comm

theorem Without.contents_erase [DecidableEq α] {g : ℕ → α} {x : α} {m : ℕ} (h : Without x f n g m) (hf : Distinct f n)
    (hg : Distinct g m) : contents g m = (contents f n).erase x := by
  refine (Multiset.Nodup.ext hg.nodup (hf.nodup.erase x)).2 fun y => ?_
  rw [mem_contents, h.values, hf.nodup.mem_erase_iff, mem_contents]
  exact and_comm

end BinHeap

end Libtarp.Lib
