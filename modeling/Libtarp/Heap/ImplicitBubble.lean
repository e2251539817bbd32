import Libtarp.Heap.Implicit

/-!
# The bubbling loops of the implicit heap

Both loops move values exactly as `siftDown` and `siftUp` do. Every exchange writes the
`idx` fields of the two nodes it moves, so a field that was wrong at the start is put right
if its node moves at all, and only then.

* `swapDownWhileUnordered_spec`, `swapUpWhileUnordered_spec`: by induction on the rounds.
-/

namespace Libtarp.Implicit

open Function Vec Lib BinHeap

variable {ν κ : Type} [DecidableEq ν] {out : ν → ν → Bool} {f : ℕ → ν} {idx : ν → ℕ} {n k : ℕ} {v : Vect ν}

/-- Every node up to `n`, but perhaps the one at `k`, knows its position. -/
def PlacedBut (idx : ν → ℕ) (f : ℕ → ν) (n k : ℕ) : Prop := ∀ i < n, i ≠ k → idx (f i) = i

def Placed (idx : ν → ℕ) (f : ℕ → ν) (n : ℕ) : Prop := ∀ i < n, idx (f i) = i

omit [DecidableEq ν] in
theorem Placed.distinct (h : Placed idx f n) : Distinct f n := by
  intro i hi j hj hij
  rw [← h i hi, ← h j hj, hij]

omit [DecidableEq ν] in
theorem exchange_eq_update (f : ℕ → ν) {i j : ℕ} (h : i ≠ j) :
    exchange f i j = update (update f i (f j)) j (f i) := by
  funext x
  by_cases hj : x = j
  · subst hj; simp
  · by_cases hi : x = i
    · subst hi; simp [h]
    · rw [exchange_of_ne f hi hj, update_of_ne hj, update_of_ne hi]

/-- Two nodes change places, and both are told where they are. -/
theorem PlacedBut.exchange {m : ℕ} (h : PlacedBut idx f n k) (hd : Distinct f n) (hk : k < n)
    (hm : m < n) (hkm : k ≠ m) :
    Placed (update (update idx (f k) m) (f m) k) (exchange f k m) n := by
  have hne : f k ≠ f m := fun he => hkm (hd k hk m hm he)
  intro i hi
  by_cases hik : i = k
  · subst hik; simp
  by_cases him : i = m
  · subst him; simp [hne]
  rw [exchange_of_ne f hik him, update_of_ne fun he => him (hd i hi m hm he),
    update_of_ne fun he => hik (hd i hi k hk he)]
  exact h i hi hik

omit [DecidableEq ν] in
theorem betterChild_eq (has : Bool) (ci mi : ℕ) (hhas : has = decide (ci < v.occupied)) :
    betterChild out v has ci (v.bytes mi, mi) =
      .ok (v.bytes (if ci < v.occupied ∧ out (v.bytes ci) (v.bytes mi) then ci else mi),
        if ci < v.occupied ∧ out (v.bytes ci) (v.bytes mi) then ci else mi) := by
  subst hhas
  unfold betterChild
  by_cases hc : ci < v.occupied
  · simp only [hc, decide_true, if_true, vectGet_ok hc, bind, Except.bind, pure, Except.pure, true_and]
    split <;> rfl
  · simp only [hc, decide_false, Bool.false_eq_true, if_false, false_and]; rfl

/-- **The loop of `bubble_down`.** It starts at `k`, which may be past the end when the heap
has two nodes or more. -/
theorem swapDownWhileUnordered_spec (out : ν → ν → Bool) {rounds : ℕ} (hn : v.occupied < 2 ^ 62)
    (hstart : 2 ≤ v.occupied ∨ k < v.occupied) (hd : Distinct v.bytes v.occupied)
    (hr : v.occupied ≤ rounds + k) :
    ∃ idx', swapDownWhileUnordered out v.occupied (Position.parent (v.occupied - 1)) rounds k v idx =
        .ok ({ v with bytes := siftDown out v.occupied rounds k v.bytes }, idx') ∧
      (best out v.bytes v.occupied k = k → idx' = idx) ∧
      (PlacedBut idx v.bytes v.occupied k → best out v.bytes v.occupied k ≠ k ∨ Placed idx v.bytes v.occupied →
        Placed idx' (siftDown out v.occupied rounds k v.bytes) v.occupied) := by
  induction rounds generalizing v idx k with
  | zero =>
    -- past the end of two nodes or more
    have hlast : ¬k ≤ Position.parent (v.occupied - 1) := by
      rw [Position.parent_eq (by omega) (by omega)]
      have := up_lt (show 0 < v.occupied - 1 by omega); omega
    have hb : best out v.bytes v.occupied k = k := by
      unfold best
      rw [if_neg (fun h => absurd h.1 (by omega))]
      exact if_neg fun h => absurd h.1 (by omega)
    refine ⟨idx, by rw [swapDownWhileUnordered, if_neg hlast]; rfl, fun _ => rfl, ?_⟩
    rintro - (h | h)
    · exact absurd hb h
    · exact h
  | succ rounds ih =>
    by_cases hlast : k ≤ Position.parent (v.occupied - 1)
    · have hk : k < v.occupied := by
        rcases hstart with h2 | h1
        · rw [Position.parent_eq (by omega) (by omega)] at hlast
          have := up_lt (show 0 < v.occupied - 1 by omega); omega
        · exact h1
      rw [swapDownWhileUnordered, if_pos hlast, vectGet_ok hk]
      simp only [bind, Except.bind]
      rw [betterChild_eq (Position.hasLeft k v.occupied) (Position.left k) k rfl]
      simp only
      rw [betterChild_eq (Position.hasRight k v.occupied) (Position.right k) _ rfl]
      simp only
      rw [Position.left_eq (by omega), Position.right_eq (by omega)]
      rw [show (if 2 * k + 2 < v.occupied ∧ out (v.bytes (2 * k + 2)) (v.bytes (if 2 * k + 1 < v.occupied ∧
        out (v.bytes (2 * k + 1)) (v.bytes k) then 2 * k + 1 else k)) then 2 * k + 2 else
        if 2 * k + 1 < v.occupied ∧ out (v.bytes (2 * k + 1)) (v.bytes k) then 2 * k + 1 else k) =
          best out v.bytes v.occupied k from rfl]
      rcases best_cases out v.bytes v.occupied k with ⟨hb, -⟩ | ⟨hpos, hlt, hup⟩
      · rw [hb, if_pos rfl, if_pos rfl, siftDown, if_pos hb]
        refine ⟨idx, rfl, fun _ => rfl, ?_⟩
        rintro - (h | h)
        · exact absurd rfl h
        · exact h
      · set m := best out v.bytes v.occupied k with hm
        have hkm : k ≠ m := by have := up_lt hpos; omega
        rw [if_neg fun he => hkm (hd k hk m hlt he), if_neg hkm, siftDown, if_neg (by omega), vectSet_ok hk]
        simp only
        rw [vectSet_ok (by exact hlt)]
        simp only
        rw [← exchange_eq_update v.bytes hkm]
        obtain ⟨idx', he, -, hpl⟩ := @ih (update (update idx (v.bytes k) m) (v.bytes m) k) m
          { v with bytes := exchange v.bytes k m } hn (.inr hlt) (hd.exchange hk hlt) (by have := up_lt hpos; simp only; omega)
        simp only at he hpl
        refine ⟨idx', he, fun h => absurd h (Ne.symm hkm), fun hp _ => ?_⟩
        have hplaced := hp.exchange hd hk hlt hkm
        exact hpl (fun i hi _ => hplaced i hi) (.inr hplaced)
    · have hb : best out v.bytes v.occupied k = k := by
        have h2 : v.occupied ≤ 2 * k + 1 := by
          rcases Nat.eq_zero_or_pos (v.occupied - 1) with h0 | h0
          · omega
          · rw [Position.parent_eq h0 (by omega)] at hlast
            unfold up at hlast; omega
        unfold best
        rw [if_neg (fun h => absurd h.1 (by omega))]
        exact if_neg fun h => absurd h.1 (by omega)
      rw [swapDownWhileUnordered, if_neg hlast, siftDown, if_pos hb]
      refine ⟨idx, rfl, fun _ => rfl, ?_⟩
      rintro - (h | h)
      · exact absurd hb h
      · exact h

/-- **The loop of `bubble_up`.** -/
theorem swapUpWhileUnordered_spec (out : ν → ν → Bool) {rounds : ℕ} (hn : v.occupied < 2 ^ 62) (hk : k < v.occupied)
    (hr : k ≤ rounds) :
    ∃ idx', swapUpWhileUnordered out rounds k v idx =
        .ok ({ v with bytes := siftUp out rounds k v.bytes }, idx') ∧
      (Placed idx v.bytes v.occupied → Placed idx' (siftUp out rounds k v.bytes) v.occupied) := by
  induction rounds generalizing v idx k with
  | zero =>
    obtain rfl : k = 0 := by omega
    exact ⟨idx, rfl, fun hp => hp⟩
  | succ rounds ih =>
    unfold swapUpWhileUnordered siftUp
    by_cases h0 : 0 < k
    · have hlt := up_lt h0
      have hupn : up k < v.occupied := by omega
      rw [if_pos (by simpa [Position.hasParent] using h0), Position.parent_eq h0 (by omega)]
      simp only [bind, Except.bind, vectGet_ok hk, vectGet_ok hupn]
      by_cases hout : out (v.bytes k) (v.bytes (up k))
      · rw [if_pos hout, if_pos ⟨h0, hout⟩, vectSet_ok hupn]
        simp only
        rw [vectSet_ok (by exact hk)]
        simp only
        have hex : update (update v.bytes (up k) (v.bytes k)) k (v.bytes (up k)) =
            exchange v.bytes k (up k) := by
          rw [exchange_eq_update v.bytes (by omega), update_comm (by omega)]
        rw [hex]
        obtain ⟨idx', he, hpl⟩ := @ih (update (update idx (v.bytes k) (up k)) (v.bytes (up k)) k) (up k)
          { v with bytes := exchange v.bytes k (up k) } hn hupn (by omega)
        exact ⟨idx', he, fun hp =>
          hpl (PlacedBut.exchange (fun i hi _ => hp i hi) hp.distinct hk hupn (by omega))⟩
      · rw [if_neg hout, if_neg fun h => hout h.2]
        exact ⟨idx, rfl, fun hp => hp⟩
    · rw [if_neg (by simpa [Position.hasParent] using h0), if_neg fun h => h0 h.1]
      exact ⟨idx, rfl, fun hp => hp⟩

end Libtarp.Implicit
