import Libtarp.Avl.Model
import Libtarp.Lib.Linked

/-!
# Rotations keep the sequence and restore the balance

A subtree whose root has a factor of 2 or -2, with both its subtrees balanced, is put
right by `fixImbalance`: its sequence stays, all factors tell the heights again, and it
becomes lower by one unless the higher child was itself even. Only then the result is
`true`.

* `single_spec`, `double_spec`: the two rotations, for either side.
* `fixImbalance_spec`: the choice between them.
-/

namespace Libtarp.Avl

open Lib BinaryTree

variable {ν : Type} [DecidableEq ν] {mem mem' : Mem ν}

def Mem.ch (mem : Mem ν) (n : ν) (s : Side) : Option ν := (mem n).child s

def Mem.bf (mem : Mem ν) (n : ν) : ℤ := (mem n).bf

omit [DecidableEq ν] in
@[simp] theorem child_setChild (n : AvlNode ν) (s s' : Side) (p : Option ν) :
    (n.setChild s p).child s' = if s' = s then p else n.child s' := by
  cases s <;> cases s' <;> rfl

omit [DecidableEq ν] in
@[simp] theorem bf_setChild (n : AvlNode ν) (s : Side) (p : Option ν) : (n.setChild s p).bf = n.bf := by
  cases s <;> rfl

@[simp] theorem Mem.child_setChild (n m : ν) (s s' : Side) (p : Option ν) :
    (mem.setChild n s p m).child s' = if m = n ∧ s' = s then p else (mem m).child s' := by
  by_cases h : m = n
  · subst h; simp [Mem.setChild]
  · simp [Mem.setChild, h]

@[simp] theorem Mem.bf_setChild (n m : ν) (s : Side) (p : Option ν) :
    (mem.setChild n s p m).bf = (mem m).bf := by
  by_cases h : m = n
  · subst h; simp [Mem.setChild]
  · simp [Mem.setChild, h]

@[simp] theorem Mem.child_setBf (n m : ν) (s : Side) (b : ℤ) :
    (mem.setBf n b m).child s = (mem m).child s := by
  by_cases h : m = n
  · subst h; cases s <;> simp [Mem.setBf, AvlNode.child]
  · simp [Mem.setBf, h]

@[simp] theorem Mem.bf_setBf (n m : ν) (b : ℤ) :
    (mem.setBf n b m).bf = if m = n then b else (mem m).bf := by
  by_cases h : m = n
  · subst h; simp [Mem.setBf]
  · simp [Mem.setBf, h]

theorem Mem.setChild_of_ne {n m : ν} (s : Side) (p : Option ν) (h : m ≠ n) :
    mem.setChild n s p m = mem m := by simp [Mem.setChild, h]

theorem Mem.setBf_of_ne {n m : ν} (b : ℤ) (h : m ≠ n) : mem.setBf n b m = mem m := by
  simp [Mem.setBf, h]

@[simp] theorem Mem.ch_setBf (n : ν) (b : ℤ) : (mem.setBf n b).ch = mem.ch := by
  funext m s; simp [Mem.ch]

omit [DecidableEq ν] in
theorem linked_congr {p : Option ν} {t : BinaryTree ν} (h : Linked mem.ch p t)
    (heq : ∀ a ∈ inorder t, mem' a = mem a) : Linked mem'.ch p t :=
  h.congr fun a ha => by funext s; rw [Mem.ch, Mem.ch, heq a ha]

omit [DecidableEq ν] in
theorem balanced_congr {t : BinaryTree ν} (h : HeightBalanced mem.bf t)
    (heq : ∀ a ∈ inorder t, mem' a = mem a) : HeightBalanced mem'.bf t :=
  h.congr fun a ha => by rw [Mem.bf, Mem.bf, heq a ha]

/-- The subtree `t` has become `t'`, with the root `top`; `stop` tells that it is as high
as before, and otherwise it is lower by one. -/
structure Rebalanced (mem mem' : Mem ν) (t t' : BinaryTree ν) (top : ν) (stop : Bool) : Prop where
  linked : Linked mem'.ch (some top) t'
  inorder : inorder t' = inorder t
  balanced : HeightBalanced mem'.bf t'
  height : t'.height + (if stop then 0 else 1) = t.height
  frame : ∀ a, a ∉ Lib.inorder t → mem' a = mem a

/-- **A rotation** moves `c`, on the side `s` of `p`, above `p`. No factor changes. -/
theorem rotate_spec {s : Side} {p c : ν} {t₁ t₂ t₃ : BinaryTree ν}
    (hl : Linked mem.ch (some p) ((Frame.mk s p t₃).fill ((Frame.mk s c t₂).fill t₁)))
    (hn : (inorder ((Frame.mk s p t₃).fill ((Frame.mk s c t₂).fill t₁))).Nodup) :
    ∃ mem', rotate s mem p c = (mem', c) ∧
      Linked mem'.ch (some c) ((Frame.mk s c ((Frame.mk s p t₃).fill t₂)).fill t₁) ∧
      mem'.bf = mem.bf ∧ ∀ a, a ≠ p → a ≠ c → mem' a = mem a := by
  simp only [linked_fill, true_and] at hl
  obtain ⟨⟨hpc, hl₁, hl₂⟩, hl₃⟩ := hl
  simp only [nodup_fill, mem_inorder_fill, not_or] at hn
  obtain ⟨⟨hne, hp₁, hp₂⟩, hp₃, ⟨hc₁, hc₂, -⟩, -, hd⟩ := hn
  have hc₃ : c ∉ inorder t₃ := hd c (.inl rfl)
  obtain ⟨m, hm⟩ : ∃ m, rotate s mem p c = (m, c) := ⟨_, rfl⟩
  have hm' : m = (mem.setChild p s ((mem c).child s.other)).setChild c s.other (some p) :=
    congrArg Prod.fst hm.symm
  have hout : ∀ a, a ≠ p → a ≠ c → m a = mem a := by
    intro a hap hac
    rw [hm', Mem.setChild_of_ne _ _ hac, Mem.setChild_of_ne _ _ hap]
  refine ⟨m, hm, ?_, ?_, hout⟩
  · have hcs : m.ch c s = mem.ch c s := by simp [hm', Mem.ch, Ne.symm hne, (Side.other_ne s).symm]
    have hco : m.ch c s.other = some p := by simp [hm', Mem.ch]
    have hps : m.ch p s = mem.ch c s.other := by simp [hm', Mem.ch, hne]
    have hpo : m.ch p s.other = mem.ch p s.other := by simp [hm', Mem.ch, hne]
    simp only [linked_fill, true_and, hcs, hco, hps, hpo]
    refine ⟨linked_congr hl₁ ?_, linked_congr hl₂ ?_, linked_congr hl₃ ?_⟩
    · intro a ha; exact hout a (fun h => hp₁ (h ▸ ha)) (fun h => hc₁ (h ▸ ha))
    · intro a ha; exact hout a (fun h => hp₂ (h ▸ ha)) (fun h => hc₂ (h ▸ ha))
    · intro a ha; exact hout a (fun h => hp₃ (h ▸ ha)) (fun h => hc₃ (h ▸ ha))
  · funext a; simp [hm', Mem.bf]

omit [DecidableEq ν] in
theorem inorder_rotated (s : Side) (p c : ν) (t₁ t₂ t₃ : BinaryTree ν) :
    inorder ((Frame.mk s c ((Frame.mk s p t₃).fill t₂)).fill t₁) =
      inorder ((Frame.mk s p t₃).fill ((Frame.mk s c t₂).fill t₁)) := by
  cases s <;> simp [Frame.fill]

/-- **A single rotation.** `c`, on the side `s` of `p`, is not lower on that side. -/
theorem single_spec {s : Side} {p c : ν} {t₁ t₂ t₃ : BinaryTree ν}
    (hl : Linked mem.ch (some p) ((Frame.mk s p t₃).fill ((Frame.mk s c t₂).fill t₁)))
    (hn : (inorder ((Frame.mk s p t₃).fill ((Frame.mk s c t₂).fill t₁))).Nodup)
    (hc : HeightBalanced mem.bf ((Frame.mk s c t₂).fill t₁)) (h₃ : HeightBalanced mem.bf t₃)
    (hh : max t₁.height t₂.height = t₃.height + 1) (hle : t₂.height ≤ t₁.height) :
    ∃ mem' t', single s mem p c = (mem', c, decide (mem.bf c = 0)) ∧
      Rebalanced mem mem' ((Frame.mk s p t₃).fill ((Frame.mk s c t₂).fill t₁)) t' c
        (decide (mem.bf c = 0)) := by
  obtain ⟨h₁, h₂, hbc, hlo, hhi⟩ := balanced_fill.1 hc
  simp only at hbc hlo hhi
  have hn' := hn
  simp only [nodup_fill, mem_inorder_fill, not_or] at hn'
  obtain ⟨⟨hne, hp₁, hp₂⟩, hp₃, ⟨hc₁, hc₂, -⟩, -, hd⟩ := hn'
  have hc₃ : c ∉ inorder t₃ := hd c (.inl rfl)
  -- whatever factors are written first, only they are left to check
  have key : ∀ (m : Mem ν) (stop : Bool), m.ch = mem.ch → (∀ a, a ≠ p → a ≠ c → m a = mem a) →
      m.bf p = s.sign * ((t₂.height : ℤ) - t₃.height) → -1 ≤ m.bf p → m.bf p ≤ 1 →
      m.bf c = s.sign * ((t₁.height : ℤ) - (max t₂.height t₃.height + 1)) → -1 ≤ m.bf c → m.bf c ≤ 1 →
      max t₁.height (max t₂.height t₃.height + 1) + (if stop then 0 else 1) = t₃.height + 2 →
      ∃ mem' t', rotate s m p c = (mem', c) ∧
        Rebalanced mem mem' ((Frame.mk s p t₃).fill ((Frame.mk s c t₂).fill t₁)) t' c stop := by
    intro m stop hch hm e₁ lo₁ hi₁ e₂ lo₂ hi₂ hstop
    obtain ⟨m', hr, hl', hbf, hout⟩ := rotate_spec (hch ▸ hl : Linked m.ch _ _) hn
    have hsame : ∀ a, a ≠ p → a ≠ c → m' a = mem a := fun a hp hc => by rw [hout a hp hc, hm a hp hc]
    refine ⟨m', _, hr, hl', inorder_rotated .., ?_, ?_, ?_⟩
    · simp only [balanced_fill, height_fill, Frame.height, hbf]
      refine ⟨balanced_congr h₁ ?_, ⟨balanced_congr h₂ ?_, balanced_congr h₃ ?_, e₁, lo₁, hi₁⟩,
        by rw [e₂, Nat.cast_add, Nat.cast_one], lo₂, hi₂⟩
      · intro a ha; exact hm a (fun h => hp₁ (h ▸ ha)) (fun h => hc₁ (h ▸ ha))
      · intro a ha; exact hm a (fun h => hp₂ (h ▸ ha)) (fun h => hc₂ (h ▸ ha))
      · intro a ha; exact hm a (fun h => hp₃ (h ▸ ha)) (fun h => hc₃ (h ▸ ha))
    · simp only [height_fill, Frame.height]; omega
    · intro a ha
      simp only [mem_inorder_fill, not_or] at ha
      exact hsame a ha.1 ha.2.1.1
  have hsgn : s.sign = 1 ∨ s.sign = -1 := by cases s <;> simp [Side.sign]
  have hlop : ((mem c).bf ≠ 0 ∧ ¬((mem c).bf < -1 ∨ (mem c).bf > 1)) ↔ ¬mem.bf c = 0 := by
    simp only [Mem.bf] at hlo hhi ⊢; omega
  unfold single
  simp only [hlop]
  by_cases h0 : mem.bf c = 0
  · have heq : t₁.height = t₂.height := by rcases hsgn with h | h <;> rw [h] at hbc <;> omega
    rw [if_neg (by simpa using h0), decide_eq_true h0]
    obtain ⟨mem', t', hr, hreb⟩ := key ((mem.setBf p s.sign).setBf c (-s.sign)) true (by simp)
      (fun a hp hc => by rw [Mem.setBf_of_ne _ hc, Mem.setBf_of_ne _ hp])
      (by simp [Mem.bf, hne]; rcases hsgn with h | h <;> rw [h] <;> omega)
      (by simp [Mem.bf, hne]; omega) (by simp [Mem.bf, hne]; omega)
      (by simp [Mem.bf]; rcases hsgn with h | h <;> rw [h] <;> omega)
      (by simp [Mem.bf]; omega) (by simp [Mem.bf]; omega) (by simp; omega)
    exact ⟨mem', t', by rw [hr], hreb⟩
  · have heq : t₁.height = t₂.height + 1 := by rcases hsgn with h | h <;> rw [h] at hbc <;> omega
    rw [if_pos h0, decide_eq_false h0]
    obtain ⟨mem', t', hr, hreb⟩ := key ((mem.setBf c 0).setBf p 0) false (by simp)
      (fun a hp hc => by rw [Mem.setBf_of_ne _ hp, Mem.setBf_of_ne _ hc])
      (by simp [Mem.bf]; omega) (by simp [Mem.bf]) (by simp [Mem.bf])
      (by simp [Mem.bf]; omega) (by simp [Mem.bf]) (by simp [Mem.bf]) (by simp; omega)
    exact ⟨mem', t', by rw [hr], hreb⟩

/-- **After the lower of two rotations**, `g` is a child of `p` in the place of `c`. -/
theorem linked_upper {m : Mem ν} {s : Side} {p c g : ν} {t₁ t₂ t₃ t₄ : BinaryTree ν}
    (hl : Linked mem.ch (some p)
      ((Frame.mk s p t₄).fill ((Frame.mk s.other c t₁).fill ((Frame.mk s g t₃).fill t₂))))
    (hn : (inorder ((Frame.mk s p t₄).fill
      ((Frame.mk s.other c t₁).fill ((Frame.mk s g t₃).fill t₂)))).Nodup)
    (hl' : Linked m.ch (some g) ((Frame.mk s g t₃).fill ((Frame.mk s.other c t₁).fill t₂)))
    (hout : ∀ a, a ≠ c → a ≠ g → m a = mem a) :
    Linked (m.setChild p s (some g)).ch (some p)
        ((Frame.mk s p t₄).fill ((Frame.mk s g t₃).fill ((Frame.mk s.other c t₁).fill t₂))) ∧
      (inorder ((Frame.mk s p t₄).fill
        ((Frame.mk s g t₃).fill ((Frame.mk s.other c t₁).fill t₂)))).Nodup := by
  have hn' := hn
  simp only [nodup_fill, mem_inorder_fill, not_or] at hn'
  obtain ⟨⟨hpc, ⟨hpg, -⟩, -⟩, hp₄, -, -, hd₄⟩ := hn'
  have hc₄ : c ∉ inorder t₄ := hd₄ c (.inl rfl)
  have hg₄ : g ∉ inorder t₄ := hd₄ g (.inr (.inl (.inl rfl)))
  have hn₃ : (inorder ((Frame.mk s p t₄).fill
      ((Frame.mk s g t₃).fill ((Frame.mk s.other c t₁).fill t₂)))).Nodup := by
    rw [← fill_other s g]
    have hin := inorder_rotated s.other c g t₃ t₂ t₁
    rw [fill_other s g t₂] at hin
    rw [(perm_inorder_fill _ _).nodup_iff, hin, ← (perm_inorder_fill _ _).nodup_iff]
    exact hn
  refine ⟨?_, hn₃⟩
  have hs : (m.setChild p s (some g)).ch p s = some g := by simp [Mem.ch]
  have ho : (m.setChild p s (some g)).ch p s.other = mem.ch p s.other := by
    simp [Mem.ch, hout p hpc hpg]
  rw [linked_fill]
  simp only [hs, ho, true_and]
  refine ⟨linked_congr hl' fun a ha => ?_, linked_congr (linked_fill.1 hl).2.2 fun a ha => ?_⟩
  · exact Mem.setChild_of_ne _ _ fun h => (nodup_fill.1 hn₃).1 (h ▸ ha)
  · have hap : a ≠ p := fun h => hp₄ (h ▸ ha)
    rw [Mem.setChild_of_ne _ _ hap]
    exact hout a (fun h => hc₄ (h ▸ ha)) fun h => hg₄ (h ▸ ha)

/-- The factors `double` writes before it rotates. -/
theorem double_factors {s : Side} {p c g : ν} {h₁ h₂ h₃ h₄ : ℕ} (hpc : p ≠ c) (hpg : p ≠ g) (hcg : c ≠ g)
    (hbg : mem.bf g = s.sign * ((h₂ : ℤ) - h₃)) (hlo : -1 ≤ mem.bf g) (hhi : mem.bf g ≤ 1)
    (h14 : h₄ = h₁) (h23 : max h₂ h₃ = h₁) :
    ∃ m : Mem ν, (if (mem g).bf = s.sign then (mem.setBf p (-s.sign)).setBf c 0
        else if (mem g).bf = -s.sign then (mem.setBf p 0).setBf c s.sign
        else if (mem g).bf = 0 then (mem.setBf c 0).setBf p 0
        else mem).setBf g 0 = m ∧ m.ch = mem.ch ∧
      (∀ a, a ≠ p → a ≠ c → a ≠ g → m a = mem a) ∧
      m.bf p = s.sign * ((h₃ : ℤ) - h₄) ∧ m.bf c = s.other.sign * ((h₂ : ℤ) - h₁) ∧ m.bf g = 0 := by
  have hcase : (mem g).bf = s.sign ∧ h₂ = h₃ + 1 ∨ (mem g).bf = -s.sign ∧ h₃ = h₂ + 1 ∨
      (mem g).bf = 0 ∧ h₂ = h₃ := by
    simp only [Mem.bf] at hbg hlo hhi
    cases s <;> simp only [Side.sign] at hbg ⊢ <;> omega
  have hs : s.sign ≠ 0 ∧ -s.sign ≠ s.sign := by cases s <;> simp [Side.sign]
  rcases hcase with ⟨hb, hh⟩ | ⟨hb, hh⟩ | ⟨hb, hh⟩
  · rw [hb, if_pos rfl]
    refine ⟨_, rfl, by simp, ?_, ?_, ?_, by simp [Mem.bf]⟩
    · intro a hp hc hg; rw [Mem.setBf_of_ne _ hg, Mem.setBf_of_ne _ hc, Mem.setBf_of_ne _ hp]
    · simp [Mem.bf, hpc, hpg, show (h₃ : ℤ) - h₄ = -1 by omega]
    · simp [Mem.bf, hcg]; right; omega
  · rw [hb, if_neg hs.2, if_pos rfl]
    refine ⟨_, rfl, by simp, ?_, ?_, ?_, by simp [Mem.bf]⟩
    · intro a hp hc hg; rw [Mem.setBf_of_ne _ hg, Mem.setBf_of_ne _ hc, Mem.setBf_of_ne _ hp]
    · simp [Mem.bf, hpc, hpg]; right; omega
    · simp [Mem.bf, hcg, show (h₂ : ℤ) - h₁ = -1 by omega]
  · rw [hb, if_neg hs.1.symm, if_neg (by simpa using hs.1), if_pos rfl]
    refine ⟨_, rfl, by simp, ?_, ?_, ?_, by simp [Mem.bf]⟩
    · intro a hp hc hg; rw [Mem.setBf_of_ne _ hg, Mem.setBf_of_ne _ hp, Mem.setBf_of_ne _ hc]
    · simp [Mem.bf, hpg]; right; omega
    · simp [Mem.bf, hpc.symm, hcg]; right; omega

/-- **A double rotation.** `c`, on the side `s` of `p`, is lower on that side. -/
theorem double_spec {s : Side} {p c g : ν} {t₁ t₂ t₃ t₄ : BinaryTree ν}
    (hl : Linked mem.ch (some p)
      ((Frame.mk s p t₄).fill ((Frame.mk s.other c t₁).fill ((Frame.mk s g t₃).fill t₂))))
    (hn : (inorder ((Frame.mk s p t₄).fill
      ((Frame.mk s.other c t₁).fill ((Frame.mk s g t₃).fill t₂)))).Nodup)
    (h₁ : HeightBalanced mem.bf t₁) (hg : HeightBalanced mem.bf ((Frame.mk s g t₃).fill t₂))
    (h₄ : HeightBalanced mem.bf t₄) (h14 : t₄.height = t₁.height) (h23 : max t₂.height t₃.height = t₁.height) :
    ∃ mem' t', double s mem p c (some g) = .ok (mem', g) ∧
      Rebalanced mem mem'
        ((Frame.mk s p t₄).fill ((Frame.mk s.other c t₁).fill ((Frame.mk s g t₃).fill t₂))) t' g false := by
  obtain ⟨h₂, h₃, hbg, hlo, hhi⟩ := balanced_fill.1 hg
  simp only at hbg hlo hhi
  have hn' := hn
  simp only [nodup_fill, mem_inorder_fill, not_or] at hn'
  obtain ⟨⟨hpc, ⟨hpg, hp₂, hp₃⟩, hp₁⟩, hp₄, ⟨⟨hcg, hc₂, hc₃⟩, hc₁, ⟨hg₂, hg₃, -⟩, -, hd₁⟩, -, hd₄⟩ := hn'
  have hg₁ : g ∉ inorder t₁ := hd₁ g (.inl rfl)
  have hc₄ : c ∉ inorder t₄ := hd₄ c (.inl rfl)
  have hg₄ : g ∉ inorder t₄ := hd₄ g (.inr (.inl (.inl rfl)))
  obtain ⟨m₁, hm₁, hch₁, hout₁, hbp, hbc, hbg₀⟩ :=
    double_factors hpc hpg hcg hbg hlo hhi h14 h23
  -- the lower rotation
  have hl₁ := hl
  rw [← hch₁] at hl₁
  have hlc := (linked_fill.1 hl₁).2.1
  simp only at hlc
  have hps : m₁.ch p s = some c := (linked_fill.1 hlc).1
  rw [hps, ← fill_other s g] at hlc
  have hnc : (inorder ((Frame.mk s.other c t₁).fill ((Frame.mk s.other g t₂).fill t₃))).Nodup := by
    rw [fill_other s g]; exact (nodup_fill.1 hn).2.2.1
  obtain ⟨m₂, hr₂, hl₂, hbf₂, hout₂⟩ := rotate_spec hlc hnc
  rw [fill_other] at hl₂
  have hgo : (m₁ c).child s.other = some g := by
    have := hlc
    rw [linked_fill, linked_fill] at this; exact this.2.1.1
  -- the upper rotation
  obtain ⟨hlp, hn₃⟩ := linked_upper hl₁ hn hl₂ hout₂
  obtain ⟨m₄, hr₄, hl₄', hbf₄, hout₄⟩ := rotate_spec hlp hn₃
  have hsame : ∀ a, a ≠ p → a ≠ c → a ≠ g → m₄ a = mem a := by
    intro a hp hc hg
    rw [hout₄ a hp hg, Mem.setChild_of_ne _ _ hp, hout₂ a hc hg, hout₁ a hp hc hg]
  have hbf : m₄.bf = m₁.bf := by rw [hbf₄, ← hbf₂]; funext a; simp [Mem.bf]
  refine ⟨m₄, (Frame.mk s g ((Frame.mk s p t₄).fill t₃)).fill ((Frame.mk s.other c t₁).fill t₂),
    ?_, hl₄', ?_, ?_, ?_, ?_⟩
  · have hgs : (m₂.setChild p s (some g) p).child s = some g := by simp
    simp only [double, deref, bind, Except.bind, hm₁, hgo, hr₂, hgs, hr₄, pure, Except.pure]
  · rw [inorder_rotated, ← fill_other s g]
    have hin := inorder_rotated s.other c g t₃ t₂ t₁
    rw [fill_other s g t₂] at hin
    cases s <;> simp only [Frame.fill, inorder_node] at hin ⊢ <;> rw [hin]
  · simp only [balanced_fill, height_fill, Frame.height, hbf, hbp, hbc, hbg₀, Side.sign_other]
    have hc' : ∀ t, HeightBalanced mem.bf t → p ∉ inorder t → c ∉ inorder t → g ∉ inorder t →
        HeightBalanced m₁.bf t := fun t ht hp hc hg => balanced_congr ht fun a ha =>
      hout₁ a (fun h => hp (h ▸ ha)) (fun h => hc (h ▸ ha)) fun h => hg (h ▸ ha)
    refine ⟨⟨hc' t₂ h₂ hp₂ hc₂ hg₂, hc' t₁ h₁ hp₁ hc₁ hg₁, ?_, ?_, ?_⟩,
      ⟨hc' t₃ h₃ hp₃ hc₃ hg₃, hc' t₄ h₄ hp₄ hc₄ hg₄, ?_, ?_, ?_⟩, ?_, ?_, ?_⟩ <;>
      cases s <;> simp only [Side.sign] at * <;> push_cast <;> omega
  · simp only [height_fill, Frame.height, Bool.false_eq_true, if_false]; omega
  · intro a ha
    simp only [mem_inorder_fill, not_or] at ha
    exact hsame a ha.1 ha.2.1.1 ha.2.1.2.1.1

theorem fixImbalance_double {tree : AvlTree ν} {upper : Ref ν} {s : Side} {p c : ν}
    (hp : tree.mem.bf p = 2 * s.sign) (hc : s.sign * tree.mem.bf c < 0) :
    fixImbalance tree upper p (some c) = (double s tree.mem p c (tree.mem.ch c s.other)).map
      fun r => ({ tree with mem := r.1 }.write (some r.2) upper, false) := by
  simp only [Mem.bf] at hp hc
  cases s with
  | left =>
    simp only [Side.sign] at hp hc
    have hc' : (tree.mem c).bf > 0 := by omega
    simp only [fixImbalance, asserted, bind, Except.bind, hp, if_pos hc', avlLeftRight, Mem.ch,
      AvlNode.child, Side.other]
    cases double .left tree.mem p c (tree.mem c).right <;> rfl
  | right =>
    simp only [Side.sign] at hp hc
    have hc' : (tree.mem c).bf < 0 := by omega
    simp only [fixImbalance, asserted, bind, Except.bind, hp, if_pos hc', avlRightLeft, Mem.ch,
      AvlNode.child, Side.other]
    cases double .right tree.mem p c (tree.mem c).left <;> rfl

theorem fixImbalance_single {tree : AvlTree ν} {upper : Ref ν} {s : Side} {p c : ν}
    (hp : tree.mem.bf p = 2 * s.sign) (hc : ¬s.sign * tree.mem.bf c < 0) :
    fixImbalance tree upper p (some c) = .ok ({ tree with mem := (single s tree.mem p c).1 }.write
      (some (single s tree.mem p c).2.1) upper, (single s tree.mem p c).2.2) := by
  simp only [Mem.bf] at hp hc
  cases s with
  | left =>
    simp only [Side.sign] at hp hc
    have hc' : ¬(tree.mem c).bf > 0 := by omega
    simp only [fixImbalance, asserted, bind, Except.bind, hp, if_neg hc']
    rfl
  | right =>
    simp only [Side.sign] at hp hc
    have hc' : ¬(tree.mem c).bf < 0 := by omega
    simp only [fixImbalance, asserted, bind, Except.bind, hp, if_neg hc']
    rfl

/-- **Rebalancing.** The subtree at `p` is too high on the side `s`. -/
theorem fixImbalance_spec {tree : AvlTree ν} (upper : Ref ν) {s : Side} {p : ν} {t u : BinaryTree ν}
    (hl : Linked tree.mem.ch (some p) ((Frame.mk s p t).fill u))
    (hn : (inorder ((Frame.mk s p t).fill u)).Nodup) (hu : HeightBalanced tree.mem.bf u)
    (ht : HeightBalanced tree.mem.bf t) (hh : u.height = t.height + 2) (hp : tree.mem.bf p = 2 * s.sign) :
    ∃ c mem' top t', tree.mem.ch p s = some c ∧
      fixImbalance tree upper p (some c) =
        .ok ({ tree with mem := mem' }.write (some top) upper, decide (tree.mem.bf c = 0)) ∧
      Rebalanced tree.mem mem' ((Frame.mk s p t).fill u) t' top (decide (tree.mem.bf c = 0)) := by
  obtain ⟨c, t₁, t₂, rfl⟩ := exists_fill s (t := u) (by rintro rfl; simp at hh)
  have hpc : tree.mem.ch p s = some c := by rw [linked_fill, linked_fill] at hl; exact hl.2.1.1
  obtain ⟨h₁, h₂, hbc, hlo, hhi⟩ := balanced_fill.1 hu
  simp only at hbc hlo hhi
  rw [height_fill, Frame.height] at hh
  simp only at hh
  refine ⟨c, ?_⟩
  rcases Nat.lt_or_ge t₁.height t₂.height with hlt | hge
  · -- the inner grandchild is the higher one
    have hneg : s.sign * tree.mem.bf c < 0 := by
      cases s <;> simp only [Side.sign] at hbc ⊢ <;> omega
    have hc0 : tree.mem.bf c ≠ 0 := by rintro h; simp [h] at hneg
    obtain ⟨g, t₃, t₄, rfl⟩ := exists_fill s (t := t₂) (by rintro rfl; simp at hlt)
    rw [height_fill, Frame.height] at hlt hh hbc
    simp only at hlt hh hbc
    have hhc : max t₃.height t₄.height = t₁.height := by
      cases s <;> simp only [Side.sign] at hbc <;> omega
    rw [← fill_other s c] at hl hn ⊢
    have hcg : tree.mem.ch c s.other = some g := by
      rw [linked_fill, linked_fill, linked_fill] at hl; exact hl.2.1.2.1.1
    obtain ⟨mem', t', hd, hreb⟩ := double_spec hl hn h₁ h₂ ht (by omega) hhc
    refine ⟨mem', g, t', hpc, ?_, ?_⟩
    · rw [fixImbalance_double hp hneg, hcg, hd, decide_eq_false hc0]; rfl
    · rw [decide_eq_false hc0]; exact hreb
  · have hneg : ¬s.sign * tree.mem.bf c < 0 := by
      cases s <;> simp only [Side.sign] at hbc ⊢ <;> omega
    obtain ⟨mem', t', hs, hreb⟩ := single_spec hl hn hu ht (by omega) hge
    refine ⟨mem', c, t', hpc, ?_, hreb⟩
    rw [fixImbalance_single hp hneg, hs]

end Libtarp.Avl
