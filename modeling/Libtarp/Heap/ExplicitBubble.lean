import Libtarp.Heap.ExplicitComplete

/-!
# The bubbling loops of the explicit heap

The loops exchange nodes exactly as `siftDown` and `siftUp` do, and keep the pointer to the
root right.
-/

namespace Libtarp.Explicit

open Lib BinHeap

variable {ν : Type} [DecidableEq ν] {out : ν → ν → Bool} {mem : Mem ν} {f : ℕ → ν} {n k rounds : ℕ}

omit [DecidableEq ν] in
theorem childless_linksAt : childless (linksAt f n k) = decide (n ≤ 2 * k + 1) := by
  unfold childless linksAt slot
  by_cases h : 2 * k + 1 < n
  · simp [h]
  · have h2 : ¬2 * k + 2 < n := by omega
    simp only [if_neg h, if_neg h2]
    simp only [Option.isNone_none, Bool.and_self, Bool.true_eq, decide_eq_true_eq]; omega

omit [DecidableEq ν] in
theorem betterChild_slot (c m : ℕ) :
    betterChild out (slot f n c) (f m) = f (if c < n ∧ out (f c) (f m) then c else m) := by
  unfold betterChild
  by_cases hc : c < n
  · rw [slot_lt hc]
    by_cases ho : out (f c) (f m) <;> simp [hc, ho]
  · rw [slot_ge (by omega), if_neg fun h => hc h.1]

omit [DecidableEq ν] in
theorem betterChild_best : betterChild out (linksAt f n k).r (betterChild out (linksAt f n k).l (f k)) =
    f (best out f n k) := by
  simp only [linksAt, betterChild_slot]
  rfl

/-- **The loop of `bubble_down`** starting at the node of number `k`. -/
theorem swapDownWhileUnordered_spec (out : ν → ν → Bool) (h : Complete mem f n) (hk : k < n)
    (hr : n ≤ rounds + k) :
    ∃ mem', swapDownWhileUnordered out (f k) rounds mem (some (f 0)) =
        .ok (mem', some (siftDown out n rounds k f 0)) ∧
      Complete mem' (siftDown out n rounds k f) n := by
  induction rounds generalizing mem f k with
  | zero => omega
  | succ rounds ih =>
    have hlink := h.links k hk
    have hleaf := childless_linksAt (f := f) (n := n) (k := k)
    obtain ⟨-, hnl, hnr⟩ := h.fits.no_loop ⟨k, hk, rfl⟩
    unfold swapDownWhileUnordered
    rcases best_cases out f n k with ⟨hb, -⟩ | ⟨hpos, hlt, hup⟩
    · rw [siftDown, if_pos hb]
      refine ⟨mem, ?_, h⟩
      by_cases hc : n ≤ 2 * k + 1
      · rw [if_pos (by rw [hlink, hleaf]; simpa using hc)]
      · rw [if_neg (by rw [hlink, hleaf]; simpa using hc), if_neg (by rintro (h | h) <;> contradiction)]
        simp only [hlink, betterChild_best]
        rw [if_pos (by rw [hb])]
    · set m := best out f n k with hm
      have hkm : k ≠ m := by have := up_lt hpos; omega
      have hne : f k ≠ f m := fun he => hkm (h.distinct k hk m hlt he)
      have hside := (up_eq_iff hpos).1 hup
      obtain ⟨mem₁, hswap, hc₁⟩ := h.swapNodes hk hlt hkm (by omega)
      rw [siftDown, if_neg (Ne.symm hkm), if_neg (by rw [hlink, hleaf]; simp; omega),
        if_neg (by rintro (h | h) <;> contradiction)]
      simp only [hlink, betterChild_best, ← hm]
      rw [if_neg hne, if_neg (by
        rintro ⟨h₁, h₂⟩
        rcases hside with hs | hs
        · exact h₁ (by simp only [linksAt, ← hs]; exact slot_lt hlt)
        · exact h₂ (by simp only [linksAt, ← hs]; exact slot_lt hlt))]
      -- the child is the root now, if the node was
      have hmem := hc₁.links k hk
      rw [exchange_left] at hmem
      have hroot : (if (mem₁ (f m)).p.isNone then some (f m) else some (f 0)) = some (exchange f k m 0) := by
        rw [hmem]
        by_cases h0 : k = 0
        · subst h0; simp [linksAt]
        · rw [exchange_of_ne f (by omega) (by omega)]; simp [linksAt, h0]
      have hrec := ih (k := m) hc₁ hlt (by have := up_lt hpos; omega)
      rw [exchange_right] at hrec
      simp only [hswap, bind, Except.bind, hroot]
      exact hrec

omit [DecidableEq ν] in
theorem siftUp_zero : siftUp out rounds 0 f = f := by
  cases rounds with
  | zero => rfl
  | succ rounds => rw [siftUp, if_neg (by omega)]

/-- The loop of `bubble_up`, starting at the node of number `k`. The root is another one
afterwards only where that node is. -/
theorem swapUpLoop_spec (out : ν → ν → Bool) (h : Complete mem f n) (hk : k < n) (hr : k ≤ rounds) :
    ∃ mem', swapUpLoop out (f k) rounds mem = .ok mem' ∧ Complete mem' (siftUp out rounds k f) n ∧
      (if (mem' (f k)).p.isNone then some (f k) else some (f 0)) = some (siftUp out rounds k f 0) := by
  induction rounds generalizing mem f k with
  | zero =>
    obtain rfl : k = 0 := by omega
    refine ⟨mem, ?_, h, ?_⟩
    · rw [swapUpLoop, h.links 0 hk]; rfl
    · simp [siftUp]
  | succ rounds ih =>
    by_cases h0 : k = 0
    · subst h0
      rw [siftUp_zero]
      refine ⟨mem, ?_, h, by simp⟩
      rw [swapUpLoop, h.links 0 hk]; rfl
    · have hlt := up_lt (show 0 < k by omega)
      have hp : (mem (f k)).p = some (f (up k)) := by
        rw [h.links k hk]
        simp only [linksAt]
        rw [if_neg h0]
      rw [swapUpLoop, siftUp]
      simp only [hp]
      by_cases hout : out (f k) (f (up k))
      · obtain ⟨mem₁, hswap, hc₁⟩ := h.swapNodes (i := up k) (j := k) (by omega) hk (by omega) (by
          intro t ht hu
          unfold up at hu; omega)
        have hcomm : exchange f (up k) k = exchange f k (up k) := by
          unfold exchange; rw [Equiv.swap_comm]
        rw [hcomm] at hc₁
        obtain ⟨mem', he, hc', hroot⟩ := ih (k := up k) hc₁ (by omega) (by omega)
        rw [exchange_right] at he hroot
        rw [if_pos hout, if_pos ⟨by omega, hout⟩]
        simp only [hswap, bind, Except.bind]
        refine ⟨mem', he, hc', ?_⟩
        by_cases hu : up k = 0
        · -- the node itself is the root now
          rw [hu, siftUp_zero] at hc' hroot ⊢
          have hk' := hc'.links 0 (by omega)
          rw [exchange_right] at hk'
          rw [hk', exchange_right]
          simp [linksAt]
        · rw [exchange_of_ne f (by omega) (by omega)] at hroot
          exact hroot
      · rw [if_neg hout, if_neg fun h => hout h.2]
        refine ⟨mem, rfl, h, ?_⟩
        rw [hp]; rfl

end Libtarp.Explicit
