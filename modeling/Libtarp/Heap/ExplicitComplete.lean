import Libtarp.Heap.ExplicitSwap

/-!
# The complete tree of an explicit heap

The nodes are numbered level by level; `Complete` says that their links are those of the
complete tree of `n` nodes.

* `Complete.swapNodes`, `Complete.cutLeaf`, `Complete.append`: what the writes of the source
  do to such a tree.
* `findNthNode_spec`: the bits of a number lead to the node of that number.
-/

namespace Libtarp.Explicit

open Function Lib BinHeap Bits

variable {ν : Type} {mem : Mem ν} {f : ℕ → ν} {n i j : ℕ}

/-- The node of number `i`, if there is one. -/
def slot (f : ℕ → ν) (n i : ℕ) : Option ν := if i < n then some (f i) else none

theorem slot_lt (h : i < n) : slot f n i = some (f i) := if_pos h

theorem slot_ge (h : n ≤ i) : slot f n i = none := if_neg (by omega)

theorem slot_eq_some {x : ν} (h : slot f n i = some x) : i < n ∧ f i = x := by
  unfold slot at h
  split_ifs at h with hi
  exact ⟨hi, Option.some.inj h⟩

/-- The node of number `i` in the complete tree of `n` nodes. -/
def linksAt (f : ℕ → ν) (n i : ℕ) : XHeapNode ν :=
  ⟨slot f n (2 * i + 1), slot f n (2 * i + 2), if i = 0 then none else some (f (up i))⟩

/-- The nodes `f 0`, …, `f (n - 1)` are linked as a complete tree, level by level. -/
structure Complete (mem : Mem ν) (f : ℕ → ν) (n : ℕ) : Prop where
  links : ∀ i < n, mem (f i) = linksAt f n i
  distinct : Distinct f n

theorem complete_zero (mem : Mem ν) (f : ℕ → ν) : Complete mem f 0 :=
  ⟨fun i hi => absurd hi (by omega), fun i hi => absurd hi (by omega)⟩

theorem Complete.fits (h : Complete mem f n) : Fits mem fun x => ∃ i < n, f i = x := by
  -- the number of a child determines that of its parent
  have key : ∀ i k, i < n → (k = 2 * i + 1 ∨ k = 2 * i + 2) → ∀ c, slot f n k = some c →
      (∃ j < n, f j = c) ∧ (mem c).p = some (f i) := by
    intro i k hi hk c hc
    obtain ⟨hkn, rfl⟩ := slot_eq_some hc
    have hup : up k = i := (up_eq_iff (by omega)).2 hk
    refine ⟨⟨k, hkn, rfl⟩, ?_⟩
    rw [h.links k hkn]
    simp only [linksAt]
    rw [if_neg (by omega), hup]
  constructor
  · rintro _ c ⟨i, hi, rfl⟩ hc
    rw [h.links i hi] at hc
    exact key i _ hi (.inl rfl) c hc
  · rintro _ c ⟨i, hi, rfl⟩ hc
    rw [h.links i hi] at hc
    exact key i _ hi (.inr rfl) c hc
  · rintro _ x ⟨i, hi, rfl⟩ hx
    rw [h.links i hi] at hx
    simp only [linksAt] at hx
    split_ifs at hx with h0
    obtain rfl := Option.some.inj hx
    have hlt := up_lt (show 0 < i by omega)
    refine ⟨⟨up i, by omega, rfl⟩, ?_⟩
    rw [h.links (up i) (by omega)]
    simp only [linksAt]
    rcases (up_eq_iff (show 0 < i by omega)).1 rfl with hc | hc
    · left; rw [← hc]; exact slot_lt hi
    · right; rw [← hc]; exact slot_lt hi
  · rintro _ c ⟨i, hi, rfl⟩ hl hr
    rw [h.links i hi] at hl hr
    obtain ⟨h₁, hc₁⟩ := slot_eq_some hl
    obtain ⟨h₂, hc₂⟩ := slot_eq_some hr
    have := h.distinct _ h₁ _ h₂ (hc₁.trans hc₂.symm)
    omega
  · rintro _ y ⟨i, hi, rfl⟩ hx hy
    rw [h.links i hi] at hx
    simp only [linksAt] at hx
    split_ifs at hx with h0
    obtain rfl := Option.some.inj hx
    have hlt := up_lt (show 0 < i by omega)
    rw [h.links (up i) (by omega)] at hy
    simp only [linksAt] at hy
    split_ifs at hy with h1
    have hlt' := up_lt (show 0 < up i by omega)
    have := h.distinct _ (by omega) _ hi (Option.some.inj hy)
    omega

variable [DecidableEq ν]

theorem cross_some {k : ℕ} (hd : Distinct f n) (hi : i < n) (hj : j < n) (hk : k < n) :
    cross (f i) (f j) (some (f k)) = some (exchange f i j k) := by
  unfold cross
  by_cases hki : k = i
  · subst hki; simp
  by_cases hkj : k = j
  · subst hkj
    have : f k ≠ f i := fun he => hki (hd _ hj _ hi he)
    simp [this]
  · have h₁ : f k ≠ f i := fun he => hki (hd _ hk _ hi he)
    have h₂ : f k ≠ f j := fun he => hkj (hd _ hk _ hj he)
    rw [exchange_of_ne f hki hkj]
    simp [h₁, h₂]

theorem cross_linksAt {k : ℕ} (hd : Distinct f n) (hi : i < n) (hj : j < n) (hk : k < n) :
    (linksAt f n k).cross (f i) (f j) = linksAt (exchange f i j) n k := by
  have hslot : ∀ m, cross (f i) (f j) (slot f n m) = slot (exchange f i j) n m := by
    intro m
    by_cases hm : m < n
    · rw [slot_lt hm, slot_lt hm, cross_some hd hi hj hm]
    · rw [slot_ge (by omega), slot_ge (by omega)]; simp [cross]
  unfold linksAt XHeapNode.cross
  ext1
  · exact hslot _
  · exact hslot _
  · by_cases h0 : k = 0
    · simp [h0, cross]
    · have := up_lt (show 0 < k by omega)
      simp only [if_neg h0]
      exact cross_some hd hi hj (by omega)

/-- **Two nodes change places.** Two siblings must be given from left to right. -/
theorem Complete.swapNodes (h : Complete mem f n) (hi : i < n) (hj : j < n) (hij : i ≠ j)
    (hsib : ∀ k, j = 2 * k + 1 → i ≠ 2 * k + 2) :
    ∃ mem', swapNodes mem (f i) (f j) = .ok mem' ∧ Complete mem' (exchange f i j) n := by
  have hne : f i ≠ f j := fun he => hij (h.distinct i hi j hj he)
  have hF := h.fits
  obtain ⟨mem', he, hi', hj', hother, -⟩ := swapNodes_spec hF ⟨i, hi, rfl⟩ ⟨j, hj, rfl⟩ hne (by
    rintro _ ⟨k, hk, rfl⟩ hl hr
    rw [h.links k hk] at hl hr
    obtain ⟨h₁, hc₁⟩ := slot_eq_some hl
    obtain ⟨h₂, hc₂⟩ := slot_eq_some hr
    exact hsib k (h.distinct _ h₁ _ hj hc₁).symm (h.distinct _ h₂ _ hi hc₂).symm)
  refine ⟨mem', he, fun k hk => ?_, h.distinct.exchange hi hj⟩
  rw [← cross_linksAt h.distinct hi hj hk]
  by_cases hki : k = i
  · subst hki
    rw [exchange_left, hj', h.links k hk]
  by_cases hkj : k = j
  · subst hkj
    rw [exchange_right, hi', h.links k hk]
  · rw [exchange_of_ne f hki hkj, ← h.links k hk]
    exact hother _ ⟨k, hk, rfl⟩ (fun he => hki (h.distinct k hk i hi he))
      (fun he => hkj (h.distinct k hk j hj he))

/-- **The last node is taken off.** -/
theorem Complete.cutLeaf (h : Complete mem f (n + 1)) (h0 : 0 < n) :
    (mem (f n)).p = some (f (up n)) ∧ Complete (cutLeaf mem (f (up n)) (f n)) f n := by
  have hlt := up_lt h0
  have hup := h.links (up n) (by omega)
  have hdis : ∀ k < n, k ≠ up n → f k ≠ f (up n) := fun k hk hne he =>
    hne (h.distinct k (by omega) _ (by omega) he)
  refine ⟨by rw [h.links n (by omega)]; simp only [linksAt]; rw [if_neg (by omega)], ?_, ?_⟩
  · intro k hk
    have hl : slot f (n + 1) (2 * k + 1) = slot f n (2 * k + 1) ∨ 2 * k + 1 = n := by
      unfold slot; split_ifs <;> simp <;> omega
    have hr : slot f (n + 1) (2 * k + 2) = slot f n (2 * k + 2) ∨ 2 * k + 2 = n := by
      unfold slot; split_ifs <;> simp <;> omega
    -- only the parent of the leaf loses a child, and it may be either of its two
    by_cases hkn : k = up n
    · subst hkn
      unfold Explicit.cutLeaf
      rcases (up_eq_iff h0).1 rfl with hc | hc
      · rw [if_pos (by rw [hup]; simp only [linksAt, ← hc]; exact slot_lt (by omega)), update_self, hup]
        simp only [linksAt, ← hc]
        rw [slot_ge (show n ≤ n by omega), slot_ge (show n + 1 ≤ 2 * up n + 2 by omega), slot_ge (by omega)]
      · rw [if_neg (by
          rw [hup]
          intro he
          obtain ⟨h₁, h₂⟩ := slot_eq_some he
          have := h.distinct _ h₁ _ (by omega) h₂
          omega), update_self, hup]
        simp only [linksAt, ← hc]
        rw [slot_ge (show n ≤ n by omega), slot_lt (show 2 * up n + 1 < n + 1 by omega),
          slot_lt (by omega)]
    · have h₁ : Explicit.cutLeaf mem (f (up n)) (f n) (f k) = mem (f k) := by
        unfold Explicit.cutLeaf
        split_ifs <;> rw [update_of_ne (hdis k hk hkn)]
      rw [h₁, h.links k (by omega)]
      unfold linksAt
      rw [hl.resolve_right fun he => hkn ((up_eq_iff h0).2 (.inl he.symm)).symm,
        hr.resolve_right fun he => hkn ((up_eq_iff h0).2 (.inr he.symm)).symm]
  · intro a ha b hb
    exact h.distinct a (by omega) b (by omega)

/-- **A last node is added.** -/
theorem Complete.addLeaf (h : Complete mem f n) (h0 : 0 < n) {x : ν} (hx : ∀ k < n, f k ≠ x) :
    Complete (addLeaf mem (f (up n)) x) (update f n x) (n + 1) := by
  have hlt := up_lt h0
  have hup := h.links (up n) hlt
  have hpx := hx (up n) hlt
  set mem₁ := update mem x ⟨none, none, some (f (up n))⟩ with hmem₁
  have hoff : ∀ k < n, mem₁ (f k) = linksAt f n k := fun k hk => by
    rw [hmem₁, update_of_ne (hx k hk), h.links k hk]
  have hslot : ∀ m, m ≠ n → slot (update f n x) (n + 1) m = slot f n m := by
    intro m hm
    unfold slot
    rw [update_of_ne hm]
    split_ifs <;> first | rfl | omega
  have hnew : slot (update f n x) (n + 1) n = some x := by
    rw [slot_lt (by omega), update_self]
  have hold : ∀ k < n, (2 * k + 1 ≠ n) → (2 * k + 2 ≠ n) → linksAt (update f n x) (n + 1) k = linksAt f n k := by
    intro k hk h₁ h₂
    unfold linksAt
    rw [hslot _ h₁, hslot _ h₂]
    by_cases hk0 : k = 0
    · rw [if_pos hk0, if_pos hk0]
    · rw [if_neg hk0, if_neg hk0, update_of_ne (by have := up_lt (show 0 < k by omega); omega)]
  -- only the new node and its parent are written to
  have hsame : ∀ k < n, k ≠ up n → Explicit.addLeaf mem (f (up n)) x (f k) = linksAt f n k := by
    intro k hk hne
    have hd : f k ≠ f (up n) := fun he => hne (h.distinct k hk _ hlt he)
    unfold Explicit.addLeaf
    simp only [← hmem₁]
    split_ifs <;> rw [update_of_ne hd, hoff k hk]
  have hparent : Explicit.addLeaf mem (f (up n)) x (f (up n)) = linksAt (update f n x) (n + 1) (up n) := by
    have hpp : (if up n = 0 then none else some (update f n x (up (up n)))) =
        if up n = 0 then none else some (f (up (up n))) := by
      by_cases hk0 : up n = 0
      · rw [if_pos hk0, if_pos hk0]
      · rw [if_neg hk0, if_neg hk0, update_of_ne (by have := up_lt (show 0 < up n by omega); omega)]
    unfold Explicit.addLeaf
    simp only [← hmem₁]
    rw [hoff _ hlt]
    unfold linksAt
    rw [hpp]
    rcases (up_eq_iff h0).1 rfl with hc | hc
    · rw [← hc, slot_ge (le_refl n), hnew, hslot _ (by omega)]
      simp
    · rw [← hc, hnew, hslot _ (by omega), slot_lt (show 2 * up n + 1 < n by omega)]
      simp
  constructor
  · intro k hk
    by_cases hkn : k = n
    · subst hkn
      rw [update_self]
      have hat : Explicit.addLeaf mem (f (up k)) x x = ⟨none, none, some (f (up k))⟩ := by
        unfold Explicit.addLeaf
        simp only [← hmem₁]
        split_ifs <;> rw [update_of_ne (Ne.symm hpx), hmem₁, update_self]
      rw [hat]
      unfold linksAt
      rw [slot_ge (by omega), slot_ge (by omega), if_neg (by omega), update_of_ne (by omega)]
    · rw [update_of_ne hkn]
      by_cases hku : k = up n
      · rw [hku]; exact hparent
      · rw [hsame k (by omega) hku, hold k (by omega)]
        · exact fun he => hku ((up_eq_iff h0).2 (.inl he.symm)).symm
        · exact fun he => hku ((up_eq_iff h0).2 (.inr he.symm)).symm
  · intro a ha b hb hab
    by_cases han : a = n <;> by_cases hbn : b = n
    · omega
    · rw [han, update_self, update_of_ne hbn] at hab
      exact absurd hab.symm (hx b (by omega))
    · rw [hbn, update_self, update_of_ne han] at hab
      exact absurd hab (hx a (by omega))
    · rw [update_of_ne han, update_of_ne hbn] at hab
      exact h.distinct a (by omega) b (by omega) hab

/-! ## Finding a node by its number -/

omit [DecidableEq ν] in
/-- With `i` bits left the node is the one whose number they are cut off from. -/
theorem followBits_spec (h : Complete mem f n) {nth b : ℕ} (hnth : nth ≤ n)
    (hbits : ∀ j < i, b / 2 ^ j % 2 = nth / 2 ^ j % 2) (hi : 1 ≤ nth / 2 ^ i) :
    followBits mem b i (f (nth / 2 ^ i - 1)) = .ok (f (nth - 1)) := by
  induction i with
  | zero => rw [pow_zero, Nat.div_one]; rfl
  | succ i ih =>
    have hq : nth / 2 ^ (i + 1) = nth / 2 ^ i / 2 := by rw [pow_succ, Nat.div_div_eq_div_mul]
    have hle : nth / 2 ^ i ≤ nth := Nat.div_le_self _ _
    unfold followBits
    rw [h.links _ (by omega)]
    simp only [linksAt, getBit_eq_one_iff, Nat.add_sub_cancel, hbits i (by omega)]
    have hih := ih (fun j hj => hbits j (by omega)) (by omega)
    by_cases hb : nth / 2 ^ i % 2 = 1
    · rw [if_pos hb, show 2 * (nth / 2 ^ (i + 1) - 1) + 2 = nth / 2 ^ i - 1 by omega, slot_lt (by omega)]
      exact hih
    · rw [if_neg hb, show 2 * (nth / 2 ^ (i + 1) - 1) + 1 = nth / 2 ^ i - 1 by omega, slot_lt (by omega)]
      exact hih

omit [DecidableEq ν] in
/-- **`find_nth_node`** finds the node of each number that is in the tree. -/
theorem findNthNode_spec (h : Complete mem f n) (count nth : ℕ) (h0 : 0 < nth) (hn : nth ≤ n)
    (hc : nth ≤ count) : findNthNode mem (some (f 0)) count nth = .ok (some (f (nth - 1))) := by
  unfold findNthNode
  rw [if_neg (by omega), if_neg (by omega)]
  simp only
  by_cases h1 : nth = 1
  · rw [if_pos h1, h1]
  · have hlog : 2 ^ nth.log2 ≤ nth := Nat.log2_self_le (by omega)
    have hlt : nth < 2 ^ (nth.log2 + 1) := Nat.lt_log2_self
    have hdiv : nth / 2 ^ nth.log2 = 1 := by
      rw [pow_succ] at hlt
      exact Nat.div_eq_of_lt_le (by omega) (by omega)
    have hspec := followBits_spec (i := nth.log2) (b := getBits nth nth.log2 nth.log2) h hn (by
      intro j hj
      have := Nat.testBit_mod_two_pow nth nth.log2 j
      rw [Nat.testBit_eq_decide_div_mod_eq, Nat.testBit_eq_decide_div_mod_eq, decide_eq_true hj,
        Bool.true_and, decide_eq_decide] at this
      rw [getBits_self]
      omega) (by omega)
    rw [hdiv] at hspec
    rw [if_neg h1, posmsb_eq h0, Nat.add_sub_cancel]
    simp only [hspec]
    rfl

end Libtarp.Explicit
