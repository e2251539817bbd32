import Libtarp.Avl.Rotation
import Mathlib.Tactic.Ring

/-!
# The fix-ups restore the balance of the whole tree

A change below a hole has made the subtree there one higher (after an insertion) or one
lower (after a deletion) than the factors of the frames above say. Each fix-up walks up
the frames and ends with a balanced tree that has the same sequence.

* `linked_write`: hanging another subtree into the hole.
* `avlInsertFixup_spec`, `avlDeleteFixup_spec`: by induction on the frames.
-/

namespace Libtarp.Avl

open Lib BinaryTree

variable {ν : Type} [DecidableEq ν] {tree : AvlTree ν} {mem : Mem ν}

def PathTraceDirection.ofSide : Side → PathTraceDirection
  | .left => .left
  | .right => .right

/-- The waypoint of a frame. -/
def waypoint (f : Frame ν) : AvlWaypoint ν := { ptr := f.node, dir := .ofSide f.side }

def waypoints (c : List (Frame ν)) : List (AvlWaypoint ν) := c.map waypoint

omit [DecidableEq ν] in
@[simp] theorem waypoints_cons (f : Frame ν) (c : List (Frame ν)) :
    waypoints (f :: c) = waypoint f :: waypoints c := rfl

omit [DecidableEq ν] in
theorem waypoint_dir_ne (f : Frame ν) : (waypoint f).dir ≠ .equal := by
  obtain ⟨side, a, s⟩ := f
  intro he
  cases side <;> cases he

omit [DecidableEq ν] in
theorem waypoint_side (f : Frame ν) : (if (waypoint f).dir = .left then Side.left else Side.right) = f.side := by
  obtain ⟨side, a, s⟩ := f
  cases side <;> rfl

omit [DecidableEq ν] in
/-- The waypoints of frames lead left or right. -/
theorem head_ne_equal (c : List (Frame ν)) (ptr : ν) (path : List (AvlWaypoint ν)) :
    waypoints c ≠ { ptr, dir := .equal } :: path := by
  intro he
  cases c with
  | nil => cases he
  | cons g c => exact waypoint_dir_ne g (congrArg AvlWaypoint.dir (List.cons.inj he).1)

omit [DecidableEq ν] in
theorem upperRef_cons (f : Frame ν) (c : List (Frame ν)) :
    upperRef (waypoints (f :: c)) = .child f.node f.side := by
  obtain ⟨side, a, s⟩ := f
  cases side <;> rfl

/-- **Hanging a subtree into the hole.** The frames `c` are linked, and `p` leads to `t'`
in a memory that differs from the tree's at other nodes only; `p` is put into the hole. -/
theorem linked_write {c : List (Frame ν)} {t' : BinaryTree ν} {p : Option ν}
    (hl : CtxLinked tree.mem.ch tree.root c) (hc : (ctxValues c).Nodup)
    (hframe : ∀ a ∈ ctxValues c, mem a = tree.mem a) (hp : Linked mem.ch p t')
    (hd : ∀ a ∈ ctxValues c, a ∉ inorder t') :
    ∃ mem' root', { tree with mem }.write p (upperRef (waypoints c)) =
        { tree with mem := mem', root := root' } ∧
      Linked mem'.ch root' (plug c t') ∧ mem'.bf = mem.bf := by
  have hl' : CtxLinked mem.ch tree.root c :=
    hl.congr fun a ha => by funext s; rw [Mem.ch, Mem.ch, hframe a ha]
  cases c with
  | nil => exact ⟨mem, p, rfl, hp, rfl⟩
  | cons f c =>
    refine ⟨mem.setChild f.node f.side p, tree.root, by rw [upperRef_cons]; rfl, ?_, ?_⟩
    · refine linked_plug.2 ⟨hl'.set_hole hc (fun _ => rfl) ?_ ?_, ?_⟩
      · intro g hg
        obtain rfl : f = g := by simpa using hg
        simp [Mem.ch]
      · intro a _ hne
        funext s
        rw [Mem.ch, Mem.ch, Mem.setChild_of_ne _ _ (hne f rfl)]
      · have hhole : holePtr (mem.setChild f.node f.side p).ch tree.root (f :: c) = p := by
          simp [holePtr, Mem.ch]
        rw [hhole]
        refine linked_congr hp fun a ha => Mem.setChild_of_ne _ _ ?_
        rintro rfl
        exact hd _ (mem_ctxValues_cons.2 (.inl rfl)) ha
    · funext a; simp [Mem.bf]

omit [DecidableEq ν] in
/-- The frames stay balanced when only nodes below them are written. -/
theorem ctxBalanced_congr {c : List (Frame ν)} {t : BinaryTree ν} {h : ℕ} {mem' : Mem ν}
    (hn : (inorder (plug c t)).Nodup) (hb : CtxBalanced mem.bf c h)
    (hframe : ∀ a, a ∉ inorder t → mem' a = mem a) : CtxBalanced mem'.bf c h :=
  hb.congr fun a ha => by rw [Mem.bf, Mem.bf, hframe a ((nodup_plug.1 hn).2.2 a ha)]

/-- What the frame `f` says of a filling after the factor of its node is changed. -/
theorem setBf_spec {f : Frame ν} {c : List (Frame ν)} {u : BinaryTree ν} {b : ℤ} {h : ℕ}
    (hn : (inorder (plug (f :: c) u)).Nodup) (hb : CtxBalanced mem.bf (f :: c) h)
    (hu : HeightBalanced mem.bf u) :
    (mem.setBf f.node b).bf f.node = b ∧ HeightBalanced (mem.setBf f.node b).bf u ∧
      HeightBalanced (mem.setBf f.node b).bf f.sibling ∧
      CtxBalanced (mem.setBf f.node b).bf c (f.height h) := by
  obtain ⟨hs, -, -, -, hc⟩ := hb
  rw [plug_cons] at hn
  obtain ⟨hpu, hps, -⟩ := nodup_fill.1 (nodup_plug.1 hn).2.1
  refine ⟨by simp [Mem.bf], ?_, ?_, ?_⟩
  · exact balanced_congr hu fun a ha => Mem.setBf_of_ne _ fun h => hpu (h ▸ ha)
  · exact balanced_congr hs fun a ha => Mem.setBf_of_ne _ fun h => hps (h ▸ ha)
  · refine ctxBalanced_congr hn hc fun a ha => Mem.setBf_of_ne _ ?_
    rintro rfl
    exact ha (mem_inorder_fill.2 (.inl rfl))

theorem updateAvlParameters_eq (mem : Mem ν) (f : Frame ν) (isdel : Bool) :
    updateAvlParameters mem f.node (.ofSide f.side) isdel =
      .ok (mem.setBf f.node (if isdel then mem.bf f.node - f.side.sign
        else mem.bf f.node + f.side.sign)) := by
  obtain ⟨side, a, s⟩ := f
  cases side <;> rfl

omit [DecidableEq ν] in
theorem child_ofSide (n : ν) (s : Side) :
    (if PathTraceDirection.ofSide s = .left then (mem n).left else (mem n).right) = mem.ch n s := by
  cases s <;> rfl

/-- **Rebalancing below frames.** The subtree at `p` is too high on the side `s`. -/
theorem fixImbalance_plug (tree : AvlTree ν) {c : List (Frame ν)} {s : Side} {p : ν} {t u : BinaryTree ν}
    (hl : Linked tree.mem.ch tree.root (plug c ((Frame.mk s p t).fill u)))
    (hn : (inorder (plug c ((Frame.mk s p t).fill u))).Nodup) (hu : HeightBalanced tree.mem.bf u)
    (ht : HeightBalanced tree.mem.bf t) (hh : u.height = t.height + 2) (hp : tree.mem.bf p = 2 * s.sign) :
    ∃ d mem' root' t', tree.mem.ch p s = some d ∧
      fixImbalance tree (upperRef (waypoints c)) p (some d) =
        .ok ({ tree with mem := mem', root := root' }, decide (tree.mem.bf d = 0)) ∧
      Linked mem'.ch root' (plug c t') ∧ HeightBalanced mem'.bf t' ∧
      inorder (plug c t') = inorder (plug c ((Frame.mk s p t).fill u)) ∧
      t'.height + (if tree.mem.bf d = 0 then 0 else 1) = t.height + 3 ∧
      ∀ h, CtxBalanced tree.mem.bf c h → CtxBalanced mem'.bf c h := by
  obtain ⟨-, hlp⟩ := linked_plug.1 hl
  rw [(linked_fill.1 hlp).1] at hlp
  obtain ⟨d, m, top, t', hd, hfix, hreb⟩ := fixImbalance_spec (upperRef (waypoints c)) hlp
    (nodup_plug.1 hn).2.1 hu ht hh hp
  obtain ⟨hc, -, hd'⟩ := nodup_plug.1 hn
  obtain ⟨m', root', hw, hl', hbf⟩ := linked_write (linked_plug.1 hl).1 hc
    (fun a ha => hreb.frame a (hd' a ha)) hreb.linked fun a ha => hreb.inorder ▸ hd' a ha
  refine ⟨d, m', root', t', hd, ?_, hl', ?_, ?_, ?_, ?_⟩
  · rw [hfix, hw]
  · rw [hbf]; exact hreb.balanced
  · rw [inorder_plug, inorder_plug, hreb.inorder]
  · have := hreb.height
    simp only [height_fill, Frame.height, decide_eq_true_eq] at this; omega
  · intro h hc
    rw [hbf]; exact ctxBalanced_congr hn hc hreb.frame

/-- The tree is linked and balanced again, and its sequence is `l`. -/
def Restored (r : Except Fault (AvlTree ν)) (tree : AvlTree ν) (l : List ν) : Prop :=
  ∃ mem' root' t', r = .ok { tree with mem := mem', root := root' } ∧
    Linked mem'.ch root' t' ∧ HeightBalanced mem'.bf t' ∧ inorder t' = l

/-- **The insertion fix-up.** The hole was `h` high and its filling is one higher. A
rotation finds a tilted child: an even one is the new leaf, and below its parent no side
can be too high. -/
theorem avlInsertFixup_spec {c : List (Frame ν)} {u : BinaryTree ν} {h : ℕ}
    (hl : Linked tree.mem.ch tree.root (plug c u)) (hn : (inorder (plug c u)).Nodup)
    (hb : CtxBalanced tree.mem.bf c h) (hu : HeightBalanced tree.mem.bf u) (hh : u.height = h + 1)
    (hr : h = 0 ∨ ∀ a, holePtr tree.mem.ch tree.root c = some a → tree.mem.bf a ≠ 0) :
    Restored (avlInsertFixup tree (waypoints c)) tree (inorder (plug c u)) := by
  induction c generalizing tree u h with
  | nil => exact ⟨tree.mem, tree.root, u, rfl, hl, hu, rfl⟩
  | cons f c ih =>
    obtain ⟨hbf, hu', hs', hc'⟩ := setBf_spec (b := tree.mem.bf f.node + f.side.sign) hn hb hu
    obtain ⟨-, hbp, hlo, hhi, -⟩ := hb
    have hupd := updateAvlParameters_eq tree.mem f false
    simp only [Bool.false_eq_true, if_false] at hupd
    set m := tree.mem.setBf f.node (tree.mem.bf f.node + f.side.sign) with hm
    have hch : m.ch = tree.mem.ch := by rw [hm, Mem.ch_setBf]
    have hl' : Linked m.ch tree.root (plug c (f.fill u)) := by rw [hch]; exact hl
    have hhole : holePtr m.ch tree.root c = some f.node := (linked_fill.1 (linked_plug.1 hl').2).1
    rw [plug_cons] at hn ⊢
    -- the new factor, seen from the side of the hole
    have hbm : m.bf f.node = f.side.sign * ((h : ℤ) + 1 - f.sibling.height) := by
      rw [hbf, hbp]; cases f.side <;> simp only [Side.sign] <;> omega
    have hle : f.sibling.height ≤ h + 1 ∧ h ≤ f.sibling.height + 1 := by
      cases hs : f.side <;> simp only [hs, Side.sign] at hbp <;> omega
    simp only [waypoints_cons, waypoint, avlInsertFixup, hupd, bind, Except.bind, child_ofSide]
    change Restored (if m.bf f.node = 0 then _ else if m.bf f.node < -1 ∨ m.bf f.node > 1 then _ else _) _ _
    by_cases h0 : m.bf f.node = 0
    · -- the frame is even now, and as high as before
      rw [if_pos h0]
      have hsib : f.sibling.height = h + 1 := by
        cases hs : f.side <;> simp only [hs, Side.sign] at hbm <;> omega
      refine ⟨m, tree.root, plug c (f.fill u), rfl, hl', ?_, rfl⟩
      rw [balanced_plug, height_fill, balanced_fill, h0, hsib, hh]
      have : f.height (h + 1) = f.height h := by simp only [Frame.height]; omega
      exact ⟨by rw [this]; exact hc', hu', hs', by simp, by omega, by omega⟩
    rw [if_neg h0]
    by_cases hoff : m.bf f.node < -1 ∨ m.bf f.node > 1
    · -- the frame is too high on the side of the hole
      rw [if_pos hoff]
      have hsib : h = f.sibling.height + 1 := by
        cases hs : f.side <;> simp only [hs, Side.sign] at hbm <;> omega
      obtain ⟨d, mem', root', t', hd, hfix, hl'', hbal, hin, hheight, hctx⟩ :=
        fixImbalance_plug { tree with mem := m } hl' hn hu' hs' (by omega)
          (by rw [hbm, hsib]; push_cast; ring)
      have hdbf : m.bf d ≠ 0 := by
        have hne : d ≠ f.node := by
          rintro rfl
          have hlf := (linked_plug.1 hl').2
          rw [linked_fill, hd] at hlf
          obtain ⟨l, r, rfl, -⟩ := linked_some.1 hlf.2.1
          exact (nodup_fill.1 (nodup_plug.1 hn).2.1).1 (by simp)
        have hdh := hr.resolve_left (by omega) d (by rw [holePtr, ← hch]; exact hd)
        rw [hm, Mem.bf, Mem.setBf_of_ne _ hne]; exact hdh
      rw [if_neg hdbf] at hheight
      refine ⟨mem', root', plug c t', ?_, hl'', ?_, hin⟩
      · rw [show m.ch f.node f.side = some d from hd, hfix]; rfl
      · rw [balanced_plug, show t'.height = f.height h by simp only [Frame.height]; omega]
        exact ⟨hctx _ hc', hbal⟩
    · -- the frame was even: it is higher now, and tilted
      rw [if_neg hoff]
      have hsib : f.sibling.height = h := by
        cases hs : f.side <;> simp only [hs, Side.sign] at hbm <;> omega
      have hbounds : -1 ≤ m.bf f.node ∧ m.bf f.node ≤ 1 := by omega
      refine @ih { tree with mem := m } (f.fill u) (f.height h) hl' hn hc' ?_ ?_ (.inr ?_)
      · exact balanced_fill.2 ⟨hu', hs', by rw [hh, hbm]; push_cast; rfl, hbounds⟩
      · simp only [height_fill, Frame.height]; omega
      · intro a ha
        obtain rfl : f.node = a := by simpa [hhole] using ha
        exact h0

/-- **The deletion fix-up.** The hole was one higher than its filling. -/
theorem avlDeleteFixup_spec {c : List (Frame ν)} {u : BinaryTree ν}
    (hl : Linked tree.mem.ch tree.root (plug c u)) (hn : (inorder (plug c u)).Nodup)
    (hb : CtxBalanced tree.mem.bf c (u.height + 1)) (hu : HeightBalanced tree.mem.bf u) :
    Restored (avlDeleteFixup tree (waypoints c)) tree (inorder (plug c u)) := by
  induction c generalizing tree u with
  | nil => exact ⟨tree.mem, tree.root, u, rfl, hl, hu, rfl⟩
  | cons f c ih =>
    obtain ⟨hbf, hu', hs', hc'⟩ := setBf_spec (b := tree.mem.bf f.node - f.side.sign) hn hb hu
    obtain ⟨-, hbp, hlo, hhi, -⟩ := hb
    have hupd := updateAvlParameters_eq tree.mem f true
    simp only [if_true] at hupd
    set m := tree.mem.setBf f.node (tree.mem.bf f.node - f.side.sign) with hm
    have hl' : Linked m.ch tree.root (plug c (f.fill u)) := by rw [hm, Mem.ch_setBf]; exact hl
    rw [plug_cons] at hn ⊢
    have hbm : m.bf f.node = f.side.sign * ((u.height : ℤ) - f.sibling.height) := by
      rw [hbf, hbp]; cases f.side <;> simp only [Side.sign] <;> omega
    have hle : f.sibling.height ≤ u.height + 2 ∧ u.height ≤ f.sibling.height := by
      cases hs : f.side <;> simp only [hs, Side.sign] at hbp <;> omega
    simp only [waypoints_cons, waypoint, avlDeleteFixup, hupd, bind, Except.bind]
    change Restored (if m.bf f.node ≠ 0 ∧ ¬(m.bf f.node < -1 ∨ m.bf f.node > 1) then _
      else if ¬(m.bf f.node < -1 ∨ m.bf f.node > 1) then _ else _) _ _
    by_cases hoff : m.bf f.node < -1 ∨ m.bf f.node > 1
    · -- the frame is too high on the other side
      rw [if_neg (fun h => h.2 hoff), if_neg (not_not_intro hoff)]
      have hsib : f.sibling.height = u.height + 2 := by
        cases hs : f.side <;> simp only [hs, Side.sign] at hbm <;> omega
      rw [show f.fill u = (Frame.mk f.side.other f.node u).fill f.sibling from (fill_other ..).symm]
        at hl' hn ⊢
      obtain ⟨d, mem', root', t', hd, hfix, hl'', hbal, hin, hheight, hctx⟩ :=
        fixImbalance_plug { tree with mem := m } hl' hn hs' hu' hsib
          (by rw [hbm, hsib, Side.sign_other]; push_cast; ring)
      have hchild : (if PathTraceDirection.ofSide f.side = .right then (m f.node).left
          else (m f.node).right) = some d := by
        rw [← hd]; cases f.side <;> rfl
      rw [hchild]
      split
      · -- no waypoint of a frame has the direction `equal`
        rename_i heq
        exact absurd heq (head_ne_equal c _ _)
      rw [hfix]
      simp only [decide_eq_true_eq]
      by_cases hd0 : m.bf d = 0
      · rw [if_pos hd0] at hheight ⊢
        refine ⟨mem', root', plug c t', rfl, hl'', ?_, hin⟩
        rw [balanced_plug, show t'.height = f.height (u.height + 1) by simp only [Frame.height]; omega]
        exact ⟨hctx _ hc', hbal⟩
      · rw [if_neg hd0] at hheight ⊢
        rw [← hin]
        refine @ih { tree with mem := mem', root := root' } t' hl'' ?_ ?_ hbal
        · rw [hin]; exact hn
        · rw [show t'.height + 1 = f.height (u.height + 1) by simp only [Frame.height]; omega]
          exact hctx _ hc'
    by_cases h0 : m.bf f.node = 0
    · -- the frame was tilted towards the hole: it is even now, and lower
      rw [if_neg (fun h => h.1 h0), if_pos hoff]
      have hsib : f.sibling.height = u.height := by
        cases hs : f.side <;> simp only [hs, Side.sign] at hbm <;> omega
      have hbounds : -1 ≤ m.bf f.node ∧ m.bf f.node ≤ 1 := by omega
      refine @ih { tree with mem := m } (f.fill u) hl' hn ?_ ?_
      · rw [height_fill, show f.height u.height + 1 = f.height (u.height + 1) by
          simp only [Frame.height]; omega]
        exact hc'
      · exact balanced_fill.2 ⟨hu', hs', hbm, hbounds⟩
    · -- the frame was even: it is tilted now, and as high as before
      rw [if_pos ⟨h0, hoff⟩]
      have hsib : f.sibling.height = u.height + 1 := by
        cases hs : f.side <;> simp only [hs, Side.sign] at hbm <;> omega
      refine ⟨m, tree.root, plug c (f.fill u), rfl, hl', ?_, rfl⟩
      rw [balanced_plug, height_fill, show f.height u.height = f.height (u.height + 1) by
        simp only [Frame.height]; omega, balanced_fill]
      exact ⟨hc', hu', hs', hbm, by omega, by omega⟩

end Libtarp.Avl
