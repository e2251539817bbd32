import Libtarp.Avl.Height
import Libtarp.Avl.Fixup

/-!
# With stored heights, rotations come to the same

Where the stored heights and factors are right, `fixImbalance` leaves the same memory in both builds. Both move the same
pointers; one computes the factors from the heights, the other from the factors before, and in a balanced tree there is
only one factor that tells the heights.

* `doUpdateAvlParameters_eq`: what is computed at a node whose children are right.
* `avlRotate_spec`, `single_agrees`, `double_agrees`, `fixImbalance_agrees`.
-/

namespace Libtarp.Avl.Height

open Lib BinaryTree Function

variable {ν : Type} [DecidableEq ν] {t : HeightTree ν} {mem mem' : Mem ν}

/-- The heights and factors of a tree are right. -/
abbrev Right (t : HeightTree ν) (w : BinaryTree ν) : Prop := Measured t.height t.mem.bf w

omit [DecidableEq ν] in
theorem Mem.ext (hch : mem.ch = mem'.ch) (hbf : mem.bf = mem'.bf) : mem = mem' := by
  funext a
  have hl := congrFun (congrFun hch a) .left
  have hr := congrFun (congrFun hch a) .right
  have hb := congrFun hbf a
  simp only [Mem.ch, Mem.bf, AvlNode.child] at hl hr hb
  cases h : mem a
  cases h' : mem' a
  simp_all

omit [DecidableEq ν] in
theorem below_eq {p : Option ν} {w : BinaryTree ν} (hl : Linked t.mem.ch p w) (hm : Right t w) :
    below t.height p = w.height := by
  cases w with
  | nil =>
    obtain rfl : p = none := hl
    rfl
  | node a l r =>
    obtain ⟨rfl, -⟩ := hl
    exact hm.2.2.1

/-- **What is computed at a node**, where everything below it is right. -/
theorem doUpdateAvlParameters_eq {f : Frame ν} {u : BinaryTree ν} (hl : Linked t.mem.ch (some f.node) (f.fill u))
    (hu : Right t u) (hs : Right t f.sibling) : doUpdateAvlParameters t f.node =
      { t with
        height := update t.height f.node (f.height u.height)
        mem := t.mem.setBf f.node (f.side.sign * ((u.height : ℤ) - f.sibling.height)) } := by
  obtain ⟨side, a, s⟩ := f
  obtain ⟨-, hlu, hls⟩ := linked_fill.1 hl
  have hu' := below_eq hlu hu
  have hs' := below_eq hls hs
  simp only [Mem.ch, AvlNode.child] at hu' hs'
  unfold doUpdateAvlParameters
  cases side with
  | left =>
    have he : -1 * ((u.height : ℤ) - s.height) = s.height - u.height := by omega
    simp only [Side.other] at hu' hs'
    simp only [hu', hs', Frame.height, Side.sign, he]
  | right =>
    have he : 1 * ((u.height : ℤ) - s.height) = u.height - s.height := by omega
    simp only [Side.other] at hu' hs'
    simp only [hu', hs', Frame.height, Side.sign, he, max_comm u.height]

/-- Then the node is right too. -/
theorem right_update {f : Frame ν} {u : BinaryTree ν} (hn : (inorder (f.fill u)).Nodup) (hu : Right t u)
    (hs : Right t f.sibling) : Measured (update t.height f.node (f.height u.height))
      (t.mem.setBf f.node (f.side.sign * ((u.height : ℤ) - f.sibling.height))).bf (f.fill u) := by
  obtain ⟨hfu, hfs, -⟩ := nodup_fill.1 hn
  have hkept : ∀ w : BinaryTree ν, f.node ∉ inorder w → Right t w → Measured (update t.height f.node (f.height u.height))
      (t.mem.setBf f.node (f.side.sign * ((u.height : ℤ) - f.sibling.height))).bf w := by
    intro w hw hr
    have hne : ∀ a ∈ inorder w, a ≠ f.node := fun a ha h => hw (h ▸ ha)
    exact hr.congr (fun a ha => update_of_ne (hne a ha) ..) fun a ha => congrArg AvlNode.bf (Mem.setBf_of_ne _ (hne a ha))
  refine measured_fill.2 ⟨hkept u hfu hu, hkept f.sibling hfs hs, update_self .., ?_⟩
  simp [Mem.bf]

theorem rotate_ch (s : Side) (a b : ν) (h : mem.ch = mem'.ch) : (rotate s mem a b).1.ch = (rotate s mem' a b).1.ch := by
  have hc : ∀ n side, (mem n).child side = (mem' n).child side := fun n side => congrFun (congrFun h n) side
  funext n side
  simp [rotate, Mem.ch, hc]

theorem setChild_ch (a : ν) (s : Side) (q : Option ν) (h : mem.ch = mem'.ch) :
    (mem.setChild a s q).ch = (mem'.setChild a s q).ch := by
  have hc : ∀ n side, (mem n).child side = (mem' n).child side := fun n side => congrFun (congrFun h n) side
  funext n side
  simp [Mem.ch, hc]

/-- **A rotation** with the heights: `c`, on the side `s` of `p`, moves above `p`. -/
theorem avlRotate_spec {s : Side} {p c : ν} {t₁ t₂ t₃ : BinaryTree ν}
    (hl : Linked t.mem.ch (some p) ((Frame.mk s p t₃).fill ((Frame.mk s c t₂).fill t₁)))
    (hn : (inorder ((Frame.mk s p t₃).fill ((Frame.mk s c t₂).fill t₁))).Nodup)
    (h₁ : Right t t₁) (h₂ : Right t t₂) (h₃ : Right t t₃) :
    ∃ mem' height', avlRotate s t p c = ({ t with mem := mem', height := height' }, c) ∧
      mem'.ch = (rotate s t.mem p c).1.ch ∧
      Linked mem'.ch (some c) ((Frame.mk s c ((Frame.mk s p t₃).fill t₂)).fill t₁) ∧
      Measured height' mem'.bf ((Frame.mk s c ((Frame.mk s p t₃).fill t₂)).fill t₁) ∧
      (∀ a, a ≠ p → a ≠ c → mem' a = t.mem a ∧ height' a = t.height a) := by
  obtain ⟨m, hr, hl', hbf, hout⟩ := rotate_spec hl hn
  have hn' : (inorder ((Frame.mk s c ((Frame.mk s p t₃).fill t₂)).fill t₁)).Nodup := by
    rw [inorder_rotated]; exact hn
  have hnp : (inorder ((Frame.mk s p t₃).fill t₂)).Nodup := (nodup_fill.1 hn').2.2.2.1
  set t' : HeightTree ν := { t with mem := m } with ht'
  have hright : ∀ w, Right t w → Right t' w := fun w hw => hw.congr (fun _ _ => rfl) fun a _ => congrFun hbf a
  -- first the lower node, then the upper one
  have hlp : Linked t'.mem.ch (some p) ((Frame.mk s p t₃).fill t₂) := by
    obtain ⟨-, -, hlp⟩ := linked_fill.1 hl'
    rw [(linked_fill.1 hlp).1] at hlp
    exact hlp
  have hp := doUpdateAvlParameters_eq (f := ⟨s, p, t₃⟩) hlp (hright t₂ h₂) (hright t₃ h₃)
  have hrp := right_update (f := ⟨s, p, t₃⟩) hnp (hright t₂ h₂) (hright t₃ h₃)
  set t'' := doUpdateAvlParameters t' p with ht''
  have hch : t''.mem.ch = m.ch := by rw [hp]; exact Mem.ch_setBf ..
  have hlc : Linked t''.mem.ch (some c) ((Frame.mk s c ((Frame.mk s p t₃).fill t₂)).fill t₁) := by
    rw [hch]; exact hl'
  have hne : ∀ a ∈ inorder t₁, a ≠ p := by
    rintro a ha rfl
    exact (nodup_fill.1 hn).1 (mem_inorder_fill.2 (.inr (.inl ha)))
  have hr₁ : Right t'' t₁ := by
    rw [Right, hp]
    exact (hright t₁ h₁).congr (fun a ha => update_of_ne (hne a ha) ..) fun a ha =>
      congrArg AvlNode.bf (Mem.setBf_of_ne _ (hne a ha))
  have hrp' : Right t'' ((Frame.mk s p t₃).fill t₂) := by rw [Right, hp]; exact hrp
  have hc := doUpdateAvlParameters_eq (f := ⟨s, c, (Frame.mk s p t₃).fill t₂⟩) hlc hr₁ hrp'
  have hrc := right_update (f := ⟨s, c, (Frame.mk s p t₃).fill t₂⟩) hn' hr₁ hrp'
  refine ⟨(doUpdateAvlParameters t'' c).mem, (doUpdateAvlParameters t'' c).height, ?_, ?_, ?_, ?_, ?_⟩
  · unfold avlRotate
    simp only [hr]
    rw [← ht', ← ht'', hc, hp]
  · rw [hc, hr]
    exact (Mem.ch_setBf ..).trans hch
  · rw [hc]
    simp only [Mem.ch_setBf]
    exact hlc
  · rw [hc]
    exact hrc
  · intro a hap hac
    rw [hc, hp]
    simp only [Mem.setBf_of_ne _ hac, Mem.setBf_of_ne _ hap]
    exact ⟨hout a hap hac, by rw [update_of_ne hac, update_of_ne hap]⟩

omit [DecidableEq ν] in
/-- Two memories with the same links, and a tree whose factors are right in both, are the same. -/
theorem rebalanced_unique {x w w' : BinaryTree ν} {top : ν} {stop : Bool} {height : ν → ℕ} {m : Mem ν}
    (hreb : Rebalanced mem mem' x w top stop) (hch : m.ch = mem'.ch) (hl : Linked m.ch (some top) w')
    (hm : Measured height m.bf w') (hout : ∀ a, a ∉ inorder x → m.bf a = mem.bf a) : m = mem' ∧ w' = w := by
  obtain rfl : w' = w := hl.unique (hch ▸ hreb.linked)
  refine ⟨Mem.ext hch ?_, rfl⟩
  funext a
  by_cases ha : a ∈ inorder w'
  · exact hreb.balanced.eq_of_measured hm a ha
  · rw [hreb.inorder] at ha
    exact (hout a ha).trans (congrArg AvlNode.bf (hreb.frame a ha)).symm

/-- What both builds do to the subtree `x`; below it is `w`, which is right. -/
structure Agrees (t : HeightTree ν) (mem' : Mem ν) (height' : ν → ℕ) (x w : BinaryTree ν) (top : ν) (stop : Bool) :
    Prop where
  rebalanced : Rebalanced t.mem mem' x w top stop
  right : Measured height' mem'.bf w
  frame : ∀ a, a ∉ inorder x → height' a = t.height a

theorem single_ch {s : Side} {p c : ν} {stop : Bool} (h : Avl.single s mem p c = (mem', c, stop)) :
    mem'.ch = (rotate s mem p c).1.ch := by
  unfold Avl.single at h
  dsimp only at h
  split_ifs at h
  · obtain ⟨rfl, -⟩ := Prod.mk.inj h
    exact rotate_ch s p c (by simp)
  · obtain ⟨rfl, -⟩ := Prod.mk.inj h
    exact rotate_ch s p c (by simp)

theorem single_agrees {s : Side} {p c : ν} {t₁ t₂ t₃ : BinaryTree ν}
    (hl : Linked t.mem.ch (some p) ((Frame.mk s p t₃).fill ((Frame.mk s c t₂).fill t₁)))
    (hn : (inorder ((Frame.mk s p t₃).fill ((Frame.mk s c t₂).fill t₁))).Nodup)
    (hc : HeightBalanced t.mem.bf ((Frame.mk s c t₂).fill t₁)) (h₃ : HeightBalanced t.mem.bf t₃)
    (hrc : Right t ((Frame.mk s c t₂).fill t₁)) (hr₃ : Right t t₃)
    (hh : max t₁.height t₂.height = t₃.height + 1) (hle : t₂.height ≤ t₁.height) :
    ∃ mem' height' w, Avl.single s t.mem p c = (mem', c, decide (t.mem.bf c = 0)) ∧
      single s t p = .ok ({ t with mem := mem', height := height' }, c) ∧
      Agrees t mem' height' ((Frame.mk s p t₃).fill ((Frame.mk s c t₂).fill t₁)) w c (decide (t.mem.bf c = 0)) := by
  obtain ⟨hr₁, hr₂, -⟩ := measured_fill.1 hrc
  obtain ⟨mem', w, hs, hreb⟩ := single_spec hl hn hc h₃ hh hle
  obtain ⟨m, height', hr, hch, hl', hm, hout⟩ := avlRotate_spec hl hn hr₁ hr₂ hr₃
  have hframe : ∀ a, a ∉ inorder ((Frame.mk s p t₃).fill ((Frame.mk s c t₂).fill t₁)) →
      m a = t.mem a ∧ height' a = t.height a := by
    intro a ha
    simp only [mem_inorder_fill, not_or] at ha
    exact hout a ha.1 ha.2.1.1
  obtain ⟨rfl, rfl⟩ := rebalanced_unique hreb (hch.trans (single_ch hs).symm) hl' hm fun a ha =>
    congrArg AvlNode.bf (hframe a ha).1
  have hps : (t.mem p).child s = some c := by
    rw [linked_fill, linked_fill] at hl
    exact hl.2.1.1
  refine ⟨m, height', _, hs, ?_, hreb, hm, fun a ha => (hframe a ha).2⟩
  simp only [single, hps, deref, bind, Except.bind, hr, pure, Except.pure]

theorem double_ch {s : Side} {p c g : ν} (hcg : (mem c).child s.other = some g)
    (h : Avl.double s mem p c (some g) = .ok (mem', g)) :
    mem'.ch = (rotate s ((rotate s.other mem c g).1.setChild p s (some g)) p g).1.ch := by
  unfold Avl.double at h
  simp only [deref, bind, Except.bind] at h
  set m := (if (mem g).bf = s.sign then (mem.setBf p (-s.sign)).setBf c 0
    else if (mem g).bf = -s.sign then (mem.setBf p 0).setBf c s.sign
    else if (mem g).bf = 0 then (mem.setBf c 0).setBf p 0 else mem).setBf g 0 with hm
  have hch : m.ch = mem.ch := by
    rw [hm, Mem.ch_setBf]
    split_ifs <;> simp
  have hmc : (m c).child s.other = some g := (congrFun (congrFun hch c) s.other).trans hcg
  rw [hmc] at h
  simp only [show (rotate s.other m c g).2 = g from rfl, Mem.child_setChild, and_self, if_true, pure, Except.pure] at h
  have hmem := congrArg (fun r => r.1.ch) (Except.ok.inj h)
  exact hmem.symm.trans (rotate_ch s p g (setChild_ch p s (some g) (rotate_ch s.other c g hch)))

theorem double_agrees {s : Side} {p c g : ν} {t₁ t₂ t₃ t₄ : BinaryTree ν}
    (hl : Linked t.mem.ch (some p)
      ((Frame.mk s p t₄).fill ((Frame.mk s.other c t₁).fill ((Frame.mk s g t₃).fill t₂))))
    (hn : (inorder ((Frame.mk s p t₄).fill
      ((Frame.mk s.other c t₁).fill ((Frame.mk s g t₃).fill t₂)))).Nodup)
    (h₁ : HeightBalanced t.mem.bf t₁) (hg : HeightBalanced t.mem.bf ((Frame.mk s g t₃).fill t₂))
    (h₄ : HeightBalanced t.mem.bf t₄) (hr₁ : Right t t₁) (hrg : Right t ((Frame.mk s g t₃).fill t₂)) (hr₄ : Right t t₄)
    (h14 : t₄.height = t₁.height) (h23 : max t₂.height t₃.height = t₁.height) :
    ∃ mem' height' w, Avl.double s t.mem p c (some g) = .ok (mem', g) ∧
      double s t p c = .ok ({ t with mem := mem', height := height' }, g) ∧
      Agrees t mem' height'
        ((Frame.mk s p t₄).fill ((Frame.mk s.other c t₁).fill ((Frame.mk s g t₃).fill t₂))) w g false := by
  obtain ⟨hr₂, hr₃, -⟩ := measured_fill.1 hrg
  obtain ⟨mem', w, hd, hreb⟩ := double_spec hl hn h₁ hg h₄ h14 h23
  have hn' := hn
  simp only [nodup_fill, mem_inorder_fill, not_or] at hn'
  obtain ⟨⟨hpc, ⟨hpg, -⟩, -⟩, -, -, -, hd₄⟩ := hn'
  have hc₄ : c ∉ inorder t₄ := hd₄ c (.inl rfl)
  have hg₄ : g ∉ inorder t₄ := hd₄ g (.inr (.inl (.inl rfl)))
  -- the lower rotation
  have hlc := (linked_fill.1 hl).2.1
  simp only at hlc
  have hps : t.mem.ch p s = some c := (linked_fill.1 hlc).1
  rw [hps] at hlc
  have hco : (t.mem c).child s.other = some g := by
    have h := (linked_fill.1 hlc).2.1
    rw [linked_fill] at h
    exact h.1
  have hnc : (inorder ((Frame.mk s.other c t₁).fill ((Frame.mk s.other g t₂).fill t₃))).Nodup := by
    rw [fill_other s g]; exact (nodup_fill.1 hn).2.2.1
  rw [← fill_other s g] at hlc
  obtain ⟨m₁, height₁, hrot₁, hch₁, hl₁, hm₁, hout₁⟩ := avlRotate_spec hlc hnc hr₃ hr₂ hr₁
  rw [fill_other] at hl₁ hm₁
  -- the upper rotation
  obtain ⟨hlp, hn₃⟩ := linked_upper hl hn hl₁ fun a hc hg => (hout₁ a hc hg).1
  set t₀ : HeightTree ν := { t with mem := m₁.setChild p s (some g), height := height₁ } with ht₀
  have hbf₀ : t₀.mem.bf = m₁.bf := by
    funext a
    simp [ht₀, Mem.bf]
  have hm₀ : Right t₀ ((Frame.mk s g t₃).fill ((Frame.mk s.other c t₁).fill t₂)) := by
    rw [Right, hbf₀]; exact hm₁
  obtain ⟨hm₀c, hm₀₃, -⟩ := measured_fill.1 hm₀
  have hm₀₄ : Right t₀ t₄ := by
    rw [Right, hbf₀]
    have hsame : ∀ a ∈ inorder t₄, m₁ a = t.mem a ∧ height₁ a = t.height a := fun a ha =>
      hout₁ a (fun h => hc₄ (h ▸ ha)) fun h => hg₄ (h ▸ ha)
    exact hr₄.congr (fun a ha => (hsame a ha).2) fun a ha => congrArg AvlNode.bf (hsame a ha).1
  obtain ⟨m, height', hrot, hch, hl', hm, hout⟩ := avlRotate_spec hlp hn₃ hm₀c hm₀₃ hm₀₄
  have hframe : ∀ a, a ≠ p → a ≠ c → a ≠ g → m a = t.mem a ∧ height' a = t.height a := by
    intro a hp hc hg
    rw [(hout a hp hg).1, (hout a hp hg).2]
    exact ⟨(Mem.setChild_of_ne _ _ hp).trans (hout₁ a hc hg).1, (hout₁ a hc hg).2⟩
  have hin : ∀ a, a ∉ inorder ((Frame.mk s p t₄).fill ((Frame.mk s.other c t₁).fill ((Frame.mk s g t₃).fill t₂))) →
      m a = t.mem a ∧ height' a = t.height a := by
    intro a ha
    simp only [mem_inorder_fill, not_or] at ha
    exact hframe a ha.1 ha.2.1.1 ha.2.1.2.1.1
  have hch' : m.ch = mem'.ch := by
    rw [hch, double_ch hco hd]
    exact rotate_ch s p g (setChild_ch p s (some g) hch₁)
  obtain ⟨rfl, rfl⟩ := rebalanced_unique hreb hch' hl' hm fun a ha => congrArg AvlNode.bf (hin a ha).1
  refine ⟨m, height', _, hd, ?_, hreb, hm, fun a ha => (hin a ha).2⟩
  have hpg' : (m₁.setChild p s (some g) p).child s = some g := by simp
  simp only [double, hco, deref, bind, Except.bind, hrot₁, single, hpg', pure, Except.pure]
  rw [← ht₀, hrot]

theorem fixImbalance_double {upper : Ref ν} {s : Side} {p c : ν} (hp : t.mem.bf p = 2 * s.sign)
    (hc : s.sign * t.mem.bf c < 0) : fixImbalance t upper p (some c) =
      (double s t p c).map fun r => (r.1.write (some r.2) upper, false) := by
  simp only [Mem.bf] at hp hc
  cases s with
  | left =>
    simp only [Side.sign] at hp hc
    have hc' : (t.mem c).bf > 0 := by omega
    simp only [fixImbalance, asserted, bind, Except.bind, hp, if_pos hc']
    cases double .left t p c <;> rfl
  | right =>
    simp only [Side.sign] at hp hc
    have hc' : (t.mem c).bf < 0 := by omega
    simp only [fixImbalance, asserted, bind, Except.bind, hp, if_pos hc']
    cases double .right t p c <;> rfl

theorem fixImbalance_single {upper : Ref ν} {s : Side} {p c : ν} (hp : t.mem.bf p = 2 * s.sign)
    (hc : ¬s.sign * t.mem.bf c < 0) : fixImbalance t upper p (some c) =
      (single s t p).map fun r => (r.1.write (some r.2) upper, false) := by
  simp only [Mem.bf] at hp hc
  cases s with
  | left =>
    simp only [Side.sign] at hp hc
    have hc' : ¬(t.mem c).bf > 0 := by omega
    simp only [fixImbalance, asserted, bind, Except.bind, hp, if_neg hc']
    cases single .left t p <;> rfl
  | right =>
    simp only [Side.sign] at hp hc
    have hc' : ¬(t.mem c).bf < 0 := by omega
    simp only [fixImbalance, asserted, bind, Except.bind, hp, if_neg hc']
    cases single .right t p <;> rfl

/-- **Rebalancing** comes to the same. The subtree at `p` is too high on the side `s`. -/
theorem fixImbalance_agrees (upper : Ref ν) {s : Side} {p : ν} {v u : BinaryTree ν}
    (hl : Linked t.mem.ch (some p) ((Frame.mk s p v).fill u)) (hn : (inorder ((Frame.mk s p v).fill u)).Nodup)
    (hu : HeightBalanced t.mem.bf u) (hv : HeightBalanced t.mem.bf v) (hru : Right t u) (hrv : Right t v)
    (hh : u.height = v.height + 2) (hp : t.mem.bf p = 2 * s.sign) :
    ∃ d mem' height' top w, t.mem.ch p s = some d ∧
      Avl.fixImbalance t.toAvlTree upper p (some d) =
        .ok ({ t.toAvlTree with mem := mem' }.write (some top) upper, decide (t.mem.bf d = 0)) ∧
      fixImbalance t upper p (some d) =
        .ok (({ t with mem := mem', height := height' } : HeightTree ν).write (some top) upper, false) ∧
      Agrees t mem' height' ((Frame.mk s p v).fill u) w top (decide (t.mem.bf d = 0)) := by
  obtain ⟨d, t₁, t₂, rfl⟩ := exists_fill s (t := u) (by rintro rfl; simp at hh)
  have hpd : t.mem.ch p s = some d := by
    rw [linked_fill, linked_fill] at hl
    exact hl.2.1.1
  obtain ⟨h₁, h₂, hbd, hlo, hhi⟩ := balanced_fill.1 hu
  obtain ⟨hr₁, hr₂, -⟩ := measured_fill.1 hru
  simp only at hbd hlo hhi
  rw [height_fill, Frame.height] at hh
  simp only at hh
  refine ⟨d, ?_⟩
  rcases Nat.lt_or_ge t₁.height t₂.height with hlt | hge
  · -- the inner grandchild is the higher one
    have hneg : s.sign * t.mem.bf d < 0 := by
      cases s <;> simp only [Side.sign] at hbd ⊢ <;> omega
    have hd0 : t.mem.bf d ≠ 0 := by
      intro h
      simp [h] at hneg
    obtain ⟨g, t₃, t₄, rfl⟩ := exists_fill s (t := t₂) (by rintro rfl; simp at hlt)
    rw [height_fill, Frame.height] at hlt hh hbd
    simp only at hlt hh hbd
    have hhd : max t₃.height t₄.height = t₁.height := by
      cases s <;> simp only [Side.sign] at hbd <;> omega
    rw [← fill_other s d] at hl hn ⊢
    have hdg : t.mem.ch d s.other = some g := by
      rw [linked_fill, linked_fill, linked_fill] at hl
      exact hl.2.1.2.1.1
    obtain ⟨mem', height', w, hd, hd', hagrees⟩ := double_agrees hl hn h₁ h₂ hv hr₁ hr₂ hrv (by omega) hhd
    refine ⟨mem', height', g, w, hpd, ?_, ?_, ?_⟩
    · rw [Avl.fixImbalance_double hp hneg, hdg, hd, decide_eq_false hd0]; rfl
    · rw [fixImbalance_double hp hneg, hd']; rfl
    · rw [decide_eq_false hd0]; exact hagrees
  · have hneg : ¬s.sign * t.mem.bf d < 0 := by
      cases s <;> simp only [Side.sign] at hbd ⊢ <;> omega
    obtain ⟨mem', height', w, hs, hs', hagrees⟩ := single_agrees hl hn hu hv hru hrv (by omega) hge
    refine ⟨mem', height', d, w, hpd, ?_, ?_, hagrees⟩
    · rw [Avl.fixImbalance_single hp hneg, hs]
    · rw [fixImbalance_single hp hneg, hs']; rfl

end Libtarp.Avl.Height
