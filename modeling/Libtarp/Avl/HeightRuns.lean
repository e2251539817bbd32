import Libtarp.Avl.HeightRotation
import Libtarp.Avl.Runs

/-!
# Both builds make the same trees

* `Standing`: the heights and the balance on the way up from a hole. `Standing.update` says what one round of a fix-up
  starts with, `Standing.fix` what a rotation leaves.
* `avlInsertFixup_agrees`, `avlDeleteFixup_agrees`: both fix-ups come to the same, also where the one with the heights
  goes on after the other one has stopped.
* `exec_agrees`: so does every call.
* `builds_agree`: after every call of a run the same nodes are in the same places.
* `reinserted_node`: a node that is linked in the tree is inserted again, and afterwards the shapes differ.
-/

namespace Libtarp.Avl.Height

open Lib BinaryTree Function

variable {ν : Type} [DecidableEq ν] {cmp : ν → ν → Ordering} {t : HeightTree ν} {w u : BinaryTree ν}
  {c : List (Frame ν)} {f : Frame ν} {h rounds : ℕ}

/-- The frames `c` are right for a hole `h` high, and so is the filling `u`, of any height. -/
structure Standing (t : HeightTree ν) (c : List (Frame ν)) (u : BinaryTree ν) (h : ℕ) : Prop where
  linked : Linked t.mem.ch t.root (plug c u)
  nodup : (inorder (plug c u)).Nodup
  ctx : CtxBalanced t.mem.bf c h
  ctxRight : CtxMeasured t.height t.mem.bf c h
  balanced : HeightBalanced t.mem.bf u
  right : Right t u

/-- All heights and factors are right. -/
def AllRight (t : HeightTree ν) : Prop := ∃ w, Linked t.mem.ch t.root w ∧ Right t w

omit [DecidableEq ν] in
/-- Where the hole is as high as its filling, everything is right. -/
theorem Standing.done (hs : Standing t c u h) (hh : u.height = h) : AllRight t :=
  ⟨_, hs.linked, measured_plug.2 ⟨hh ▸ hs.ctxRight, hs.right⟩⟩

/-- **One round** computes the factor of the innermost frame from the heights. The rest stays right. -/
theorem Standing.update (hs : Standing t (f :: c) u h) :
    ∃ t', doUpdateAvlParameters t f.node = t' ∧
      t'.toAvlTree = { t.toAvlTree with
        mem := t.mem.setBf f.node (f.side.sign * ((u.height : ℤ) - f.sibling.height)) } ∧
      t'.mem.bf f.node = f.side.sign * ((u.height : ℤ) - f.sibling.height) ∧
      CtxBalanced t'.mem.bf c (f.height h) ∧ CtxMeasured t'.height t'.mem.bf c (f.height h) ∧
      HeightBalanced t'.mem.bf u ∧ HeightBalanced t'.mem.bf f.sibling ∧ Right t' (f.fill u) := by
  obtain ⟨hrs, -, -, hrc⟩ := hs.ctxRight
  have hlf := ((linked_plug (c := c)).1 hs.linked).2
  rw [(linked_fill.1 hlf).1] at hlf
  have hnp := (nodup_plug (c := c)).1 hs.nodup
  have he := doUpdateAvlParameters_eq hlf hs.right hrs
  obtain ⟨hbf, hu, hsib, hctx⟩ := setBf_spec (b := f.side.sign * ((u.height : ℤ) - f.sibling.height)) hs.nodup hs.ctx
    hs.balanced
  refine ⟨_, he, rfl, hbf, hctx, ?_, hu, hsib, right_update hnp.2.1 hs.right hrs⟩
  have hne : ∀ a ∈ ctxValues c, a ≠ f.node := by
    rintro a ha rfl
    exact hnp.2.2 _ ha (mem_inorder_fill.2 (.inl rfl))
  exact hrc.congr (fun a ha => update_of_ne (hne a ha) ..) fun a ha => congrArg AvlNode.bf (Mem.setBf_of_ne _ (hne a ha))

/-- **A rotation**, where the subtree at `p` is too high on the side `s`. -/
theorem Standing.fix {s : Side} {p : ν} {v : BinaryTree ν}
    (hl : Linked t.mem.ch t.root (plug c ((Frame.mk s p v).fill u)))
    (hn : (inorder (plug c ((Frame.mk s p v).fill u))).Nodup) (hc : CtxBalanced t.mem.bf c h)
    (hrc : CtxMeasured t.height t.mem.bf c h) (hu : HeightBalanced t.mem.bf u) (hv : HeightBalanced t.mem.bf v)
    (hr : Right t ((Frame.mk s p v).fill u)) (hh : u.height = v.height + 2) (hp : t.mem.bf p = 2 * s.sign) :
    ∃ d t' w, t.mem.ch p s = some d ∧
      Avl.fixImbalance t.toAvlTree (upperRef (waypoints c)) p (some d) = .ok (t'.toAvlTree, decide (t.mem.bf d = 0)) ∧
      fixImbalance t (upperRef (waypoints c)) p (some d) = .ok (t', false) ∧
      Standing t' c w h ∧ w.height + (if t.mem.bf d = 0 then 0 else 1) = v.height + 3 := by
  obtain ⟨hlc, hlp⟩ := linked_plug.1 hl
  rw [(linked_fill.1 hlp).1] at hlp
  obtain ⟨hnc, hnp, hd⟩ := nodup_plug.1 hn
  obtain ⟨hru, hrv, -⟩ := measured_fill.1 hr
  obtain ⟨d, mem, height, top, w, hpd, hfix, hfix', hag⟩ :=
    fixImbalance_agrees (upperRef (waypoints c)) hlp hnp hu hv hru hrv hh hp
  have hreb := hag.rebalanced
  -- neither a link nor a stored height above the hole is written
  have hsame : ∀ a ∈ ctxValues c, mem a = t.mem a ∧ height a = t.height a := fun a ha =>
    ⟨hreb.frame a (hd a ha), hag.frame a (hd a ha)⟩
  have hlt : CtxLinked t.toAvlTree.mem.ch t.toAvlTree.root c := hlc
  obtain ⟨m, root, hw, hl', hbf⟩ := linked_write hlt hnc (fun a ha => (hsame a ha).1) hreb.linked
    fun a ha => hreb.inorder ▸ hd a ha
  refine ⟨d, { t with mem := m, root, height }, w, hpd, ?_, ?_, ⟨hl', ?_, ?_, ?_, ?_, ?_⟩, ?_⟩
  · rw [hfix, hw]
  · rw [hfix']
    unfold HeightTree.write HeightTree.withTree
    rw [hw]
  · rw [inorder_plug, hreb.inorder, ← inorder_plug]
    exact hn
  · show CtxBalanced m.bf c h
    rw [hbf]
    exact hc.congr fun a ha => congrArg AvlNode.bf (hsame a ha).1
  · show CtxMeasured height m.bf c h
    rw [hbf]
    exact hrc.congr (fun a ha => (hsame a ha).2) fun a ha => congrArg AvlNode.bf (hsame a ha).1
  · show HeightBalanced m.bf w
    rw [hbf]
    exact hreb.balanced
  · show Measured height m.bf w
    rw [hbf]
    exact hag.right
  · have hheight := hreb.height
    simp only [height_fill, Frame.height, decide_eq_true_eq] at hheight
    omega

/-- Both builds succeed with the same tree, and with the right heights. -/
def Agree (r : Except Fault (HeightTree ν)) (r' : Except Fault (AvlTree ν)) : Prop :=
  ∃ t, r = .ok t ∧ r' = .ok t.toAvlTree ∧ AllRight t

/-- **The insertion fix-ups agree.** The hole was `h` high and its filling is one higher. -/
theorem avlInsertFixup_agrees (hs : Standing t c u h) (hh : u.height = h + 1)
    (hr : h = 0 ∨ ∀ a, holePtr t.mem.ch t.root c = some a → t.mem.bf a ≠ 0) :
    Agree (avlInsertFixup t (waypoints c)) (Avl.avlInsertFixup t.toAvlTree (waypoints c)) := by
  induction c generalizing t u h with
  | nil => exact ⟨t, rfl, rfl, _, hs.linked, hs.right⟩
  | cons f c ih =>
    obtain ⟨t', hupd, htree, hbf, hctx, hctxr, hu', hs', hrf⟩ := hs.update
    obtain ⟨-, hbp, hlo, hhi, -⟩ := hs.ctx
    have hx : f.side.sign * ((u.height : ℤ) - f.sibling.height) = t.mem.bf f.node + f.side.sign := by
      rw [hbp, hh]
      cases f.side <;> simp only [Side.sign] <;> omega
    have hupd' := updateAvlParameters_eq t.mem f false
    simp only [Bool.false_eq_true, if_false, ← hx] at hupd'
    have hmem := congrArg AvlTree.mem htree
    have hroot := congrArg AvlTree.root htree
    simp only at hmem hroot
    have hch : t'.mem.ch = t.mem.ch := by rw [hmem, Mem.ch_setBf]
    have hl' : Linked t'.mem.ch t'.root (plug c (f.fill u)) := by rw [hch, hroot]; exact hs.linked
    have hn' : (inorder (plug c (f.fill u))).Nodup := hs.nodup
    have hhole : holePtr t'.mem.ch t'.root c = some f.node := (linked_fill.1 (linked_plug.1 hl').2).1
    have hle : f.sibling.height ≤ h + 1 ∧ h ≤ f.sibling.height + 1 := by
      cases hside : f.side <;> simp only [hside, Side.sign] at hbp <;> omega
    simp only [waypoints_cons, waypoint, avlInsertFixup, Avl.avlInsertFixup, hupd, hupd', bind, Except.bind,
      child_ofSide, ← hmem]
    rw [← hmem] at htree
    rw [← htree]
    change Agree (if t'.mem.bf f.node = 0 then _ else if t'.mem.bf f.node < -1 ∨ t'.mem.bf f.node > 1 then _ else _)
      (if t'.mem.bf f.node = 0 then _ else if t'.mem.bf f.node < -1 ∨ t'.mem.bf f.node > 1 then _ else _)
    by_cases h0 : t'.mem.bf f.node = 0
    · -- the frame is even now, and as high as before
      rw [if_pos h0, if_pos h0]
      have hsib : f.sibling.height = h + 1 := by
        cases hside : f.side <;> simp only [hside, Side.sign] at hbf <;> omega
      have hheight : (f.fill u).height = f.height h := by
        simp only [height_fill, Frame.height]
        omega
      exact ⟨t', rfl, rfl, _, hl', measured_plug.2 ⟨hheight ▸ hctxr, hrf⟩⟩
    rw [if_neg h0, if_neg h0]
    by_cases hoff : t'.mem.bf f.node < -1 ∨ t'.mem.bf f.node > 1
    · -- the frame is too high on the side of the hole
      rw [if_pos hoff, if_pos hoff]
      have hsib : h = f.sibling.height + 1 := by
        cases hside : f.side <;> simp only [hside, Side.sign] at hbf <;> omega
      obtain ⟨d, t'', w, hd, hfix, hfix', hst, hheight⟩ := Standing.fix (s := f.side) (p := f.node) (v := f.sibling) hl' hn'
        hctx hctxr hu' hs' hrf (by omega) (by rw [hbf, hh, hsib]; push_cast; ring)
      have hdbf : t'.mem.bf d ≠ 0 := by
        have hne : d ≠ f.node := by
          rintro rfl
          have hlf := (linked_plug.1 hl').2
          rw [linked_fill, hd] at hlf
          obtain ⟨l, r, rfl, -⟩ := linked_some.1 hlf.2.1
          exact (nodup_fill.1 (nodup_plug.1 hn').2.1).1 (by simp)
        have hdh := hr.resolve_left (by omega) d (by rw [holePtr, ← hch]; exact hd)
        rw [hmem, Mem.bf, Mem.setBf_of_ne _ hne]
        exact hdh
      rw [if_neg hdbf] at hheight
      rw [show t'.mem.ch f.node f.side = some d from hd, hfix, hfix']
      exact ⟨t'', rfl, rfl, hst.done (by simp only [Frame.height]; omega)⟩
    · -- the frame was even: it is higher now, and tilted
      rw [if_neg hoff, if_neg hoff]
      have hsib : f.sibling.height = h := by
        cases hside : f.side <;> simp only [hside, Side.sign] at hbf <;> omega
      have hbounds : -1 ≤ t'.mem.bf f.node ∧ t'.mem.bf f.node ≤ 1 := by omega
      refine @ih t' (f.fill u) (f.height h) ⟨hl', hn', hctx, hctxr, ?_, hrf⟩ ?_ (.inr ?_)
      · exact balanced_fill.2 ⟨hu', hs', hbf, hbounds⟩
      · simp only [height_fill, Frame.height]
        omega
      · intro a ha
        obtain rfl : f.node = a := by simpa [hhole] using ha
        exact h0

/-- Nothing changes at a node that is right already. -/
theorem doUpdateAvlParameters_self (hl : Linked t.mem.ch (some f.node) (f.fill u)) (hr : Right t (f.fill u)) :
    doUpdateAvlParameters t f.node = t := by
  obtain ⟨hu, hs, hheight, hbf⟩ := measured_fill.1 hr
  rw [doUpdateAvlParameters_eq hl hu hs, ← hheight, ← hbf, update_eq_self]
  have hmem : t.mem.setBf f.node (t.mem.bf f.node) = t.mem := update_eq_self ..
  rw [hmem]

/-- **Where all is right** the deletion fix-up changes nothing, wherever it starts. -/
theorem avlDeleteFixup_settled (hl : Linked t.mem.ch t.root (plug c u)) (hb : HeightBalanced t.mem.bf (plug c u))
    (hr : Right t (plug c u)) : avlDeleteFixup t (waypoints c) = .ok t := by
  induction c generalizing u with
  | nil => rfl
  | cons f c ih =>
    rw [plug_cons] at hl hb hr
    have hlf := (linked_plug.1 hl).2
    rw [(linked_fill.1 hlf).1] at hlf
    have hupd := doUpdateAvlParameters_self hlf (measured_plug.1 hr).2
    obtain ⟨-, -, -, hlo, hhi⟩ := balanced_fill.1 (balanced_plug.1 hb).2
    have hoff : ¬((t.mem f.node).bf < -1 ∨ (t.mem f.node).bf > 1) := by
      simp only [Mem.bf] at hlo hhi
      omega
    simp only [waypoints_cons, waypoint, avlDeleteFixup, hupd, bind, Except.bind]
    by_cases h0 : (t.mem f.node).bf = 0
    · rw [if_neg (fun hc => hc.1 h0), if_pos hoff]
      exact ih hl hb hr
    · rw [if_pos ⟨h0, hoff⟩]
      rfl

/-- **The deletion fix-ups agree.** The hole was one higher than its filling. -/
theorem avlDeleteFixup_agrees (hs : Standing t c u (u.height + 1)) :
    Agree (avlDeleteFixup t (waypoints c)) (Avl.avlDeleteFixup t.toAvlTree (waypoints c)) := by
  induction c generalizing t u with
  | nil => exact ⟨t, rfl, rfl, _, hs.linked, hs.right⟩
  | cons f c ih =>
    obtain ⟨t', hupd, htree, hbf, hctx, hctxr, hu', hs', hrf⟩ := hs.update
    obtain ⟨-, hbp, hlo, hhi, -⟩ := hs.ctx
    have hx : f.side.sign * ((u.height : ℤ) - f.sibling.height) = t.mem.bf f.node - f.side.sign := by
      rw [hbp]
      cases f.side <;> simp only [Side.sign] <;> omega
    have hupd' := updateAvlParameters_eq t.mem f true
    simp only [if_true, ← hx] at hupd'
    have hmem := congrArg AvlTree.mem htree
    have hroot := congrArg AvlTree.root htree
    simp only at hmem hroot
    have hch : t'.mem.ch = t.mem.ch := by rw [hmem, Mem.ch_setBf]
    have hl' : Linked t'.mem.ch t'.root (plug c (f.fill u)) := by rw [hch, hroot]; exact hs.linked
    have hn' : (inorder (plug c (f.fill u))).Nodup := hs.nodup
    have hle : f.sibling.height ≤ u.height + 2 ∧ u.height ≤ f.sibling.height := by
      cases hside : f.side <;> simp only [hside, Side.sign] at hbp <;> omega
    have hdir : PathTraceDirection.ofSide f.side ≠ .equal := waypoint_dir_ne f
    simp only [waypoints_cons, waypoint, avlDeleteFixup, Avl.avlDeleteFixup, hupd, hupd', bind, Except.bind, ← hmem]
    rw [← hmem] at htree
    rw [← htree]
    change Agree (if t'.mem.bf f.node ≠ 0 ∧ ¬(t'.mem.bf f.node < -1 ∨ t'.mem.bf f.node > 1) then _
        else if ¬(t'.mem.bf f.node < -1 ∨ t'.mem.bf f.node > 1) then _ else _)
      (if t'.mem.bf f.node ≠ 0 ∧ ¬(t'.mem.bf f.node < -1 ∨ t'.mem.bf f.node > 1) then _
        else if ¬(t'.mem.bf f.node < -1 ∨ t'.mem.bf f.node > 1) then _ else _)
    by_cases hoff : t'.mem.bf f.node < -1 ∨ t'.mem.bf f.node > 1
    · -- the frame is too high on the other side
      have hlop : ¬(t'.mem.bf f.node ≠ 0 ∧ ¬(t'.mem.bf f.node < -1 ∨ t'.mem.bf f.node > 1)) := fun h => h.2 hoff
      rw [if_neg hlop, if_neg hlop, if_neg (not_not_intro hoff), if_neg (not_not_intro hoff), if_neg hdir]
      have hsib : f.sibling.height = u.height + 2 := by
        cases hside : f.side <;> simp only [hside, Side.sign] at hbf <;> omega
      rw [show f.fill u = (Frame.mk f.side.other f.node u).fill f.sibling from (fill_other ..).symm] at hl' hn' hrf
      obtain ⟨d, t'', w, hd, hfix, hfix', hst, hheight⟩ := Standing.fix hl' hn' hctx hctxr hs' hu' hrf hsib
        (by rw [hbf, hsib, Side.sign_other]; push_cast; ring)
      have hchild : (if PathTraceDirection.ofSide f.side = .right then (t'.mem f.node).left
          else (t'.mem f.node).right) = some d := by
        rw [← hd]; cases f.side <;> rfl
      rw [hchild]
      split
      · rename_i heq
        exact absurd heq (head_ne_equal c _ _)
      simp only [hfix, hfix', decide_eq_true_eq, Bool.false_eq_true, if_false]
      by_cases hd0 : t'.mem.bf d = 0
      · -- one build stops here, the other finds nothing to change
        rw [if_pos hd0] at hheight ⊢
        have hh : w.height = f.height (u.height + 1) := by
          simp only [Frame.height]
          omega
        have hright := measured_plug.2 ⟨hh ▸ hst.ctxRight, hst.right⟩
        have hbal := balanced_plug.2 ⟨hh ▸ hst.ctx, hst.balanced⟩
        exact ⟨t'', avlDeleteFixup_settled hst.linked hbal hright, rfl, _, hst.linked, hright⟩
      · rw [if_neg hd0] at hheight ⊢
        have hh : f.height (u.height + 1) = w.height + 1 := by
          simp only [Frame.height]
          omega
        rw [hh] at hst
        exact ih hst
    by_cases h0 : t'.mem.bf f.node = 0
    · -- the frame was tilted towards the hole: it is even now, and lower
      rw [if_neg (fun h => h.1 h0), if_pos hoff, if_neg (fun h => h.1 h0), if_pos hoff]
      have hsib : f.sibling.height = u.height := by
        cases hside : f.side <;> simp only [hside, Side.sign] at hbf <;> omega
      have hbounds : -1 ≤ t'.mem.bf f.node ∧ t'.mem.bf f.node ≤ 1 := by omega
      have hh : f.height (u.height + 1) = (f.fill u).height + 1 := by
        simp only [height_fill, Frame.height]
        omega
      rw [hh] at hctx hctxr
      exact ih ⟨hl', hn', hctx, hctxr, balanced_fill.2 ⟨hu', hs', hbf, hbounds⟩, hrf⟩
    · -- the frame was even: it is tilted now, and as high as before
      rw [if_pos ⟨h0, hoff⟩, if_pos ⟨h0, hoff⟩]
      have hsib : f.sibling.height = u.height + 1 := by
        cases hside : f.side <;> simp only [hside, Side.sign] at hbf <;> omega
      have hh : f.height (u.height + 1) = (f.fill u).height := by
        simp only [height_fill, Frame.height]
        omega
      rw [hh] at hctxr
      exact ⟨t', rfl, rfl, _, hl', measured_plug.2 ⟨hctxr, hrf⟩⟩

/-! ## Calls -/

omit [DecidableEq ν] in
/-- A leaf has height 1. -/
theorem height_leaf {mem : Mem ν} {height : ν → ℕ} {bf : ν → ℤ} {p : Option ν} {n : ν} (hl : Linked mem.ch p w)
    (hm : Measured height bf w) (hn : n ∈ inorder w) (hleaf : ∀ s, mem.ch n s = none) : height n = 1 := by
  induction w generalizing p with
  | nil => simp at hn
  | node a l r ihl ihr =>
    obtain ⟨-, hll, hlr⟩ := hl
    obtain ⟨hml, hmr, hma, -⟩ := hm
    simp only [inorder_node, List.mem_append, List.mem_cons] at hn
    rcases hn with hn | rfl | hn
    · exact ihl hll hml hn
    · rw [hleaf .left, linked_none] at hll
      rw [hleaf .right, linked_none] at hlr
      rw [hma, hll, hlr]
      rfl
    · exact ihr hlr hmr hn

/-- Initialising a node does no harm to the heights of a tree it is not in, nor where it is a leaf. -/
theorem right_initialize {n : ν} (hl : Linked t.mem.ch t.root w) (hm : Right t w)
    (hn : n ∈ inorder w → t.mem n = initialized) : Right (initializeAvlNode t n) w := by
  refine hm.congr (fun a ha => ?_) fun a ha => ?_
  · by_cases han : a = n
    · subst han
      have hleaf : ∀ s, t.mem.ch a s = none := fun s => by
        rw [Mem.ch, hn ha]
        cases s <;> rfl
      exact (update_self ..).trans (height_leaf hl hm ha hleaf).symm
    · exact update_of_ne han ..
  · by_cases han : a = n
    · subst han
      simp [initializeAvlNode, Avl.initializeAvlNode, Mem.bf, hn ha, initialized]
    · exact congrArg AvlNode.bf (initializeAvlNode_of_ne _ han)

variable [Std.TransCmp cmp]

/-- **Insertions agree.** -/
theorem avlTryInsert_agrees {n : ν} (hv : Valid cmp t.toAvlTree w) (hm : Right t w) (hr : w.height ≤ rounds)
    (hn : n ∈ inorder w → t.mem n = initialized) :
    ∃ t' path b, avlTryInsert cmp rounds t n = .ok (t', path, b) ∧
      Avl.avlTryInsert cmp rounds t.toAvlTree n = .ok (t'.toAvlTree, path, b) ∧ AllRight t' := by
  have hv₀ := hv.initialize hn
  have hm₀ := right_initialize hv.linked hm hn
  have hpath := avlTracePathToNode_spec hv₀ hr n
  have hnode : Avl.initializeAvlNode t.mem n n = initialized := by
    simp [Avl.initializeAvlNode, initialized]
  rcases locate_cases hv.sorted n with ⟨c, hloc, rfl, hb, ha⟩ | ⟨c, a, l, r, hloc, rfl, hk⟩
  · have hnt : n ∉ inorder (plug c .nil) := fun h => not_eq_of_locate_nil hb ha n h Std.ReflCmp.compare_self
    rw [hloc] at hpath
    cases c with
    | nil =>
      -- the tree is empty
      refine ⟨{ initializeAvlNode t n with root := some n, count := t.count + 1 }, [], true, ?_, ?_,
        .node n .nil .nil, ?_, trivial, trivial, ?_, ?_⟩
      · unfold avlTryInsert
        rw [if_pos (show (initializeAvlNode t n).root = none from hv.linked),
          if_pos (show (initializeAvlNode t n).count = 0 from hv.count)]
        rfl
      · unfold Avl.avlTryInsert
        rw [if_pos (show t.root = none from hv.linked), if_pos (show t.count = 0 from hv.count)]
        rfl
      · simp [initializeAvlNode, Mem.ch, hnode, initialized, AvlNode.child]
      · simp [initializeAvlNode]
      · simp [initializeAvlNode, Mem.bf, hnode, initialized]
    | cons f c =>
      have hdir := waypoint_dir_ne f
      have hside := waypoint_side f
      have hroot : (initializeAvlNode t n).root ≠ none := hv.root_ne (.inl (by simp))
      set t₁ : HeightTree ν := { initializeAvlNode t n with
        mem := (Avl.initializeAvlNode t.mem n).setChild f.node f.side (some n), count := t.count + 1 } with ht₁
      obtain ⟨hl₁, hn₁, hbf₁⟩ := hang_leaf hv₀.linked hv₀.sorted.nodup hnode hnt
      have hs : Standing t₁ (f :: c) (.node n .nil .nil) 0 := by
        obtain ⟨hcm, -⟩ := measured_plug.1 hm₀
        have hbn : t₁.mem.bf n = 0 := (congrFun hbf₁ n).trans (by simp [Mem.bf, hnode, initialized])
        refine ⟨hl₁, hn₁, ?_, ?_, ?_, ?_⟩
        · exact (balanced_plug.1 hv₀.balanced).1.congr fun a _ => congrFun hbf₁ a
        · exact hcm.congr (fun _ _ => rfl) fun a _ => congrFun hbf₁ a
        · simp [HeightBalanced, hbn]
        · refine ⟨trivial, trivial, ?_, ?_⟩
          · exact update_self ..
          · rw [hbn]; rfl
      obtain ⟨t', hfix, hfix', hall⟩ := avlInsertFixup_agrees hs rfl (.inl rfl)
      refine ⟨t', [], true, ?_, ?_, hall⟩
      · have hpath' : avlTracePathToNode cmp rounds (initializeAvlNode t n).toAvlTree none n =
            .ok (waypoint f :: waypoints c) := hpath
        simp only [avlTryInsert, if_neg hroot, hpath', List.head?_cons, asserted, bind, Except.bind, if_neg hdir, hside]
        have hfix₁ : avlInsertFixup { initializeAvlNode t n with
            mem := (initializeAvlNode t n).mem.setChild (waypoint f).ptr f.side (some n),
            count := (initializeAvlNode t n).count + 1 } (waypoint f :: waypoints c) = .ok t' := hfix
        rw [hfix₁]
        rfl
      · simp only [Avl.avlTryInsert, if_neg (hv.root_ne (.inl (by simp))), hpath, endpoint, List.nil_append,
          waypoints_cons, List.head?_cons, asserted, bind, Except.bind, if_neg hdir, hside]
        have hfix₁ : Avl.avlInsertFixup { t.toAvlTree with
            mem := (Avl.initializeAvlNode t.mem n).setChild (waypoint f).ptr f.side (some n),
            count := t.count + 1 } (waypoint f :: waypoints c) = .ok t'.toAvlTree := hfix'
        rw [hfix₁]
        rfl
  · -- a duplicate
    rw [hloc] at hpath
    refine ⟨initializeAvlNode t n, { ptr := a, dir := .equal } :: waypoints c, false, ?_, ?_, _, hv₀.linked, hm₀⟩
    · have hroot : (initializeAvlNode t n).root ≠ none := hv.root_ne (.inr (by simp))
      have hpath' : avlTracePathToNode cmp rounds (initializeAvlNode t n).toAvlTree none n =
          .ok ({ ptr := a, dir := .equal } :: waypoints c) := hpath
      simp only [avlTryInsert, if_neg hroot, hpath', List.head?_cons, asserted, bind, Except.bind]
      rfl
    · simp only [Avl.avlTryInsert, if_neg (hv.root_ne (.inr (by simp))), hpath, endpoint, List.singleton_append,
        List.head?_cons, asserted, bind, Except.bind]
      rfl

omit [Std.TransCmp cmp] in
/-- What takes the place of `k` is the same in both builds; a successor also takes over its height. -/
theorem replacement_eq (cmp : ν → ν → Ordering) (rounds : ℕ) (t : HeightTree ν) (k : ν) (path : List (AvlWaypoint ν)) :
    replacement cmp rounds t k path = (Avl.replacement cmp rounds t.toAvlTree k path).map fun r =>
      (⟨r.1, match (t.mem k).left, (t.mem k).right, r.2.2 with
        | some _, some _, some suc => update t.height suc (t.height k)
        | _, _, _ => t.height⟩, r.2) := by
  unfold replacement Avl.replacement
  cases hl : (t.mem k).left with
  | none => cases hr : (t.mem k).right <;> simp [hl, hr] <;> rfl
  | some l =>
  cases hr : (t.mem k).right with
  | none => simp [hl, hr]; rfl
  | some r =>
    simp only [hl, hr]
    cases avlFindInorderSuccessor rounds t.mem k with
    | error e => rfl
    | ok suc =>
    cases suc with
    | none => rfl
    | some suc =>
      simp only [asserted, bind, Except.bind]
      by_cases hsuc : suc = r
      · rw [if_pos hsuc, if_pos hsuc]
        rfl
      · rw [if_neg hsuc, if_neg hsuc]
        cases avlTracePathToNode cmp rounds t.toAvlTree (some r) suc with
        | error e => rfl
        | ok rpath =>
          simp only
          cases rpath.tail.head? with
          | none => rfl
          | some p => rfl

theorem replacement_agrees {a : ν} {l r : BinaryTree ν} {p : Option ν} (path : List (AvlWaypoint ν))
    (hl : Linked t.mem.ch p (.node a l r)) (hs : Sorted cmp (inorder (.node a l r)))
    (hb : HeightBalanced t.mem.bf (.node a l r)) (hm : Right t (.node a l r)) (hcount : t.count ≠ 0)
    (hr : (BinaryTree.node a l r).height ≤ rounds) :
    ∃ mem height c u q, Avl.replacement cmp rounds t.toAvlTree a path =
        .ok ({ t.toAvlTree with mem }, waypoints c ++ path, q) ∧
      replacement cmp rounds t a path = .ok ({ t with mem, height }, waypoints c ++ path, q) ∧
      Replaces t.mem mem a l r c u q ∧ Measured height mem.bf u ∧ CtxMeasured height mem.bf c (u.height + 1) ∧
      ∀ x, x ∉ inorder (.node a l r) → height x = t.height x := by
  obtain ⟨mem, c, u, q, hrep, hreb, hvac⟩ := replacement_spec path hl hs hb hcount hr
  have hrep' := replacement_eq cmp rounds t a path
  rw [hrep] at hrep'
  obtain ⟨-, hll, hlr⟩ := hl
  obtain ⟨hml, hmr, hma, -⟩ := hm
  have hleft : (t.mem a).left = top? l := Linked.eq_top hll
  have hright : (t.mem a).right = top? r := Linked.eq_top hlr
  rcases hvac with ⟨rfl, hu⟩ | ⟨hne, d, s, rfl, rfl, rfl⟩
  · -- one child at most
    refine ⟨mem, t.height, [], u, q, hrep, ?_, hreb, ?_, trivial, fun _ _ => rfl⟩
    · rw [hrep']
      rcases hu with ⟨rfl, -⟩ | ⟨rfl, -⟩
      · simp [Except.map, hleft, top?]
      · simp only [Except.map, hright, top?]
        cases (t.mem a).left <;> rfl
    · have hmu : Right t u := by
        rcases hu with ⟨-, rfl⟩ | ⟨-, rfl⟩
        · exact hmr
        · exact hml
      exact hmu.of_balanced hreb.balanced
  · -- the leftmost node of the right subtree takes over the height
    have hn := hs.nodup
    rw [inorder_node, List.nodup_append', List.nodup_cons, List.disjoint_left] at hn
    obtain ⟨-, ⟨-, hnr⟩, hdis⟩ := hn
    obtain ⟨-, hns, hds⟩ := nodup_plug.1 hnr
    have hsr : s ∈ inorder (plug d (.node s .nil u)) := mem_inorder_plug.2 (.inr (by simp))
    have hsl : s ∉ inorder l := fun h => hdis h (List.mem_cons_of_mem _ hsr)
    have hsu : s ∉ inorder u := by simpa using (List.nodup_cons.1 hns).1
    have hsd : s ∉ ctxValues d := fun h => hds s h (by simp)
    have hsame : ∀ x, x ≠ s → update t.height s (t.height a) x = t.height x := fun x hx => update_of_ne hx ..
    have hheight : (BinaryTree.node s .nil u).height = u.height + 1 := by simp [BinaryTree.height]
    obtain ⟨hmd, -, hmu, -⟩ := measured_plug.1 hmr
    obtain ⟨hcd, hcl⟩ := ctxBalanced_append.1 hreb.ctx
    rw [hheight] at hmd
    refine ⟨mem, update t.height s (t.height a), _, u, some s, hrep, ?_, hreb, ?_, ?_, ?_⟩
    · have hl' : ∃ b, (t.mem a).left = some b := by
        rw [hleft]
        cases l with
        | nil => exact absurd rfl hne
        | node b _ _ => exact ⟨b, rfl⟩
      have hr' : ∃ b, (t.mem a).right = some b := by
        rw [hright]
        cases hplug : plug d (.node s .nil u) with
        | nil => exact absurd (plug_eq_nil.1 hplug).2 (by simp)
        | node b _ _ => exact ⟨b, rfl⟩
      obtain ⟨b, hb'⟩ := hl'
      obtain ⟨b', hb''⟩ := hr'
      rw [hrep']
      simp only [Except.map, hb', hb'']
    · exact (hmu.congr (fun x hx => hsame x fun h => hsu (h ▸ hx)) fun _ _ => rfl).of_balanced hreb.balanced
    · refine ctxMeasured_append.2 ⟨?_, ?_⟩
      · exact (hmd.congr (fun x hx => hsame x fun h => hsd (h ▸ hx)) fun _ _ => rfl).of_balanced hcd
      · obtain ⟨hbl, hbs, -⟩ := hcl
        refine ⟨(hml.congr (fun x hx => hsame x fun h => hsl (h ▸ hx)) fun _ _ => rfl).of_balanced hbl, ?_, hbs, trivial⟩
        have hctx := hreb.height
        rw [ctxHeight_append] at hctx
        rw [update_self, hma]
        exact hctx.symm
    · intro x hx
      refine hsame x ?_
      rintro rfl
      exact hx (by simp [hsr])

/-- **Taking a node out** comes to the same. -/
theorem unlink_agrees {a : ν} {l r : BinaryTree ν} (hl : Linked t.mem.ch t.root (plug c (.node a l r)))
    (hs : Sorted cmp (inorder (plug c (.node a l r)))) (hb : HeightBalanced t.mem.bf (plug c (.node a l r)))
    (hm : Right t (plug c (.node a l r))) (hcount : t.count ≠ 0) (hr : (plug c (.node a l r)).height ≤ rounds) :
    Agree (unlink cmp rounds t a (waypoints c)) (Avl.unlink cmp rounds t.toAvlTree a (waypoints c)) := by
  obtain ⟨hmc, hma⟩ := measured_plug.1 hm
  obtain ⟨-, -, hd⟩ := nodup_plug.1 hs.nodup
  have hra : (BinaryTree.node a l r).height ≤ rounds := (height_le_plug c _).trans hr
  obtain ⟨mem, height, d, u, q, hrep, hrep', hreb, hmu, hmd, hout⟩ :=
    replacement_agrees (waypoints c) (linked_plug.1 hl).2 hs.subtree (balanced_plug.1 hb).2 hma hcount hra
  obtain ⟨mem', root', hw, hl', hn, hbf, hctx, hbal, -⟩ := hang_replacement hl hs hb hreb
  set t' : HeightTree ν := { t with mem := mem', root := root', height } with ht'
  have hw' : HeightTree.write { t with mem, height } q (upperRef (waypoints c)) = t' := by
    unfold HeightTree.write HeightTree.withTree
    rw [hw]
  have hst : Standing t' (d ++ c) u (u.height + 1) := by
    refine ⟨hl', hn, hctx, ctxMeasured_append.2 ⟨hmd.congr (fun _ _ => rfl) fun x _ => congrFun hbf x, ?_⟩, hbal,
      hmu.congr (fun _ _ => rfl) fun x _ => congrFun hbf x⟩
    rw [hreb.height]
    exact hmc.congr (fun x hx => hout x (hd x hx)) fun x hx =>
      (congrFun hbf x).trans (congrArg AvlNode.bf (hreb.frame x (hd x hx)))
  have hpath : waypoints d ++ waypoints c = waypoints (d ++ c) := (List.map_append ..).symm
  simp only [unlink, Avl.unlink, hrep, hrep', bind, Except.bind, hw, hw', hpath]
  by_cases hroot : root' = none
  · -- the last node is gone
    rw [if_pos hroot, if_pos (show t'.root = none from hroot)]
    rw [hroot, linked_none] at hl'
    exact ⟨t', rfl, rfl, .nil, hroot, trivial⟩
  · rw [if_neg hroot, if_neg (show t'.root ≠ none from hroot)]
    exact avlDeleteFixup_agrees hst

/-- **Deletions agree.** -/
theorem deleteNode_agrees {k : ν} {freeContainer : Bool} (hv : Valid cmp t.toAvlTree w) (hm : Right t w)
    (hr : w.height ≤ rounds) (hd : freeContainer = true → t.dtor = true) :
    ∃ t' b, deleteNode cmp rounds t k freeContainer = .ok (t', b) ∧
      Avl.deleteNode cmp rounds t.toAvlTree k freeContainer = .ok (t'.toAvlTree, b) ∧ AllRight t' := by
  by_cases hcount : t.count = 0
  · refine ⟨t, false, if_pos hcount, if_pos hcount, w, hv.linked, hm⟩
  obtain ⟨a, c, l, r, dir, -, rfl, hpath⟩ := avlTracePathToNode_node hv hr hcount k
  obtain ⟨t', hun, hun', w', hl', hm'⟩ := unlink_agrees hv.linked hv.sorted hv.balanced hm hcount hr
  obtain ⟨mem, root, -, hun'', -⟩ := unlink_spec hv.linked hv.sorted hv.balanced hcount hr
  have htree := Except.ok.inj (hun'.symm.trans hun'')
  have hdtor : t'.dtor = t.dtor := by rw [htree]
  have hfree : (freeContainer && !t'.dtor) = false := by
    cases freeContainer with
    | false => rfl
    | true => rw [hdtor, hd rfl]; rfl
  refine ⟨{ t'.withTree (clearCache t'.toAvlTree) with count := t'.count - 1 }, true, ?_, ?_, w', hl', hm'⟩
  · simp only [deleteNode, if_neg hcount, hpath, bind, Except.bind, hun, hfree]
    rfl
  · simp only [Avl.deleteNode, if_neg hcount, hpath, bind, Except.bind, hun', hfree]
    rfl

omit [DecidableEq ν] in
/-- **Lookups agree**: they are the same code. -/
theorem findNode_agrees {k : ν} (hv : Valid cmp t.toAvlTree w) (hm : Right t w) (hr : w.height ≤ rounds) :
    ∃ t' p, findNode cmp rounds t k = .ok (t', p) ∧ Avl.findNode cmp rounds t.toAvlTree k = .ok (t'.toAvlTree, p) ∧
      AllRight t' := by
  obtain ⟨p, cached, hf, hv', -⟩ := findNode_spec hv hr k
  refine ⟨{ t with cached }, p, ?_, hf, w, hv.linked, hm⟩
  simp only [findNode, hf, bind, Except.bind]
  rfl

/-- **One call** does the same in both builds. -/
theorem exec_agrees {c : Call ν} (hv : Valid cmp t.toAvlTree w) (hm : Right t w) (hr : w.height ≤ rounds)
    (hc : Harmless cmp c t.toAvlTree) : ∃ t' r, exec cmp rounds c t = .ok (t', r) ∧
      Avl.exec cmp rounds c t.toAvlTree = .ok (t'.toAvlTree, r) ∧ AllRight t' := by
  have hall : AllRight t := ⟨w, hv.linked, hm⟩
  cases c with
  | insertNode n =>
    simp only [exec, Avl.exec, insertNode, Avl.insertNode]
    by_cases hhit : cacheHit cmp t.toAvlTree n = true
    · rw [if_pos hhit, if_pos hhit]
      exact ⟨t, .flag false, rfl, rfl, hall⟩
    · obtain ⟨t', path, b, he, he', hall'⟩ := avlTryInsert_agrees hv hm hr (insert_ready hv hhit hc)
      rw [if_neg hhit, if_neg hhit, he, he']
      exact ⟨t', .flag b, rfl, rfl, hall'⟩
  | findOrInsertNode n =>
    simp only [exec, Avl.exec, findOrInsertNode, Avl.findOrInsertNode]
    by_cases hhit : cacheHit cmp t.toAvlTree n = true
    · rw [if_pos hhit, if_pos hhit]
      exact ⟨t, .node t.cached, rfl, rfl, hall⟩
    · have hn := insert_ready hv hhit hc
      obtain ⟨t', path, b, he, he', hall'⟩ := avlTryInsert_agrees hv hm hr hn
      rw [if_neg hhit, if_neg hhit, he, he']
      rcases avlTryInsert_spec hv hr hn with ⟨a, rest, -, -, hspec, -⟩ | ⟨-, mem, root, _, hspec, -⟩
      · -- the duplicate is on top of the path
        obtain ⟨-, rfl, rfl⟩ : _ ∧ path = { ptr := a, dir := .equal } :: rest ∧ b = false := by
          simpa using Except.ok.inj (he'.symm.trans hspec)
        exact ⟨t'.withTree (updateCache t'.toAvlTree a), .node (some a), rfl, rfl, hall'⟩
      · obtain ⟨-, rfl, rfl⟩ : _ ∧ path = [] ∧ b = true := by
          simpa using Except.ok.inj (he'.symm.trans hspec)
        exact ⟨t', .node none, rfl, rfl, hall'⟩
  | findNode k =>
    obtain ⟨t', p, he, he', hall'⟩ := findNode_agrees (k := k) hv hm hr
    exact ⟨t', .node p, by simp only [exec, he]; rfl, by simp only [Avl.exec, he']; rfl, hall'⟩
  | hasNode k =>
    obtain ⟨t', p, he, he', hall'⟩ := findNode_agrees (k := k) hv hm hr
    exact ⟨t', .flag p.isSome, by simp only [exec, hasNode, he]; rfl, by simp only [Avl.exec, Avl.hasNode, he']; rfl,
      hall'⟩
  | deleteNode k freeContainer =>
    obtain ⟨t', b, he, he', hall'⟩ := deleteNode_agrees (k := k) hv hm hr hc
    exact ⟨t', .flag b, by simp only [exec, he]; rfl, by simp only [Avl.exec, he']; rfl, hall'⟩

omit [DecidableEq ν] [Std.TransCmp cmp] in
/-- The same nodes are in the same places. -/
def SamePlaces (tree : AvlTree ν) (t : HeightTree ν) : Prop :=
  ∃ w, Linked tree.mem.ch tree.root w ∧ Linked t.mem.ch t.root w

/-- **After every call of a run whose calls do no harm, both builds have the same nodes in the same places**, after the
same answers. -/
theorem builds_agree (mem : Mem ν) (height : ν → ℕ) (dtor : Bool) (cs : List (Call ν)) (hr : cs.length ≤ rounds)
    (hm : Meets (Avl.exec cmp rounds) (Harmless cmp) cs (Avl.avlInitializer mem dtor)) :
    Simulates (Avl.exec cmp rounds) (fun c t r t' => exec cmp rounds c t = .ok (t', r)) SamePlaces cs
      (Avl.avlInitializer mem dtor) (avlInitializer mem height dtor) := by
  refine simulates_of_step (fun n tree t => t.toAvlTree = tree ∧ Reached cmp n tree ∧ AllRight t) ?_ ?_
    ⟨rfl, reached_initializer mem dtor, .nil, rfl, trivial⟩ hm
  · rintro n c tree t hn ⟨rfl, hi, w, hl, hright⟩ hc
    obtain ⟨tree', r', v, -, he, hi', -⟩ := hi.step (hn.le.trans hr) hc
    obtain ⟨v, hv, hle⟩ := hi
    obtain rfl : w = v := hl.unique hv.linked
    obtain ⟨t', r, he₁, he₂, hall⟩ := exec_agrees hv hright
      ((w.height_le_numNodes.trans hle).trans (hn.le.trans hr)) hc
    obtain ⟨rfl, -⟩ := Prod.mk.inj (Except.ok.inj (he.symm.trans he₂))
    exact ⟨t'.toAvlTree, r, t', he₂, he₁, rfl, hi', hall⟩
  · rintro n tree t ⟨rfl, -, w, hl, -⟩
    exact ⟨w, hl, hl⟩

theorem builds_agree_five : Simulates (Avl.exec (compare : ℕ → ℕ → Ordering) 5)
    (fun c t r t' => exec (compare : ℕ → ℕ → Ordering) 5 c t = .ok (t', r)) SamePlaces
    [.insertNode 1, .insertNode 2, .insertNode 3, .insertNode 4, .deleteNode 1 false]
    (Avl.avlInitializer (fun _ => initialized) false) (avlInitializer (fun _ => initialized) (fun _ => 0) false) := by
  refine builds_agree _ _ _ _ (by decide) (.cons (.inr (.inr rfl)) rfl ?_)
  refine .cons (.inr (.inr rfl)) rfl ?_
  refine .cons (.inr (.inr rfl)) rfl ?_
  refine .cons (.inr (.inr rfl)) rfl ?_
  exact .last nofun

/-- Node 2 is inserted again while it is linked in the tree. It loses its children, and the factor of the root is wrong
from then on, but its height is computed anew: the next insertion rotates there in one build only. -/
theorem reinserted_node : ¬∀ cs : List (Call ℕ),
    Meets (Avl.exec compare cs.length) (DeletesStored compare) cs (Avl.avlInitializer (fun _ => initialized) false) →
    Simulates (Avl.exec compare cs.length) (fun c t r t' => exec compare cs.length c t = .ok (t', r)) SamePlaces cs
      (Avl.avlInitializer (fun _ => initialized) false) (avlInitializer (fun _ => initialized) (fun _ => 0) false) := by
  intro h
  have hsim := h ([4, 2, 6, 1, 5, 7, 2, 8].map .insertNode)
    (meets_of_forall (fun c hc tree => by
      obtain ⟨n, -, rfl⟩ := List.mem_map.1 hc
      trivial) _)
  obtain ⟨tree, rs, t, hrun, hruns, w, hl, hl'⟩ := hsim _ (List.prefix_refl _)
  obtain ⟨tree₁, rs₁, hrun₁, hroot⟩ : ∃ tree rs, runCalls (Avl.exec (compare : ℕ → ℕ → Ordering) 8)
      ([4, 2, 6, 1, 5, 7, 2, 8].map .insertNode) (Avl.avlInitializer (fun _ => initialized) false) = .ok (tree, rs) ∧
      (tree.root == some 4) = true := exists_of_endsIn (P := fun tree : AvlTree ℕ => tree.root == some 4) (by decide +kernel)
  obtain ⟨t₁, rs₂, hrun₂, hroot'⟩ : ∃ t rs, runCalls (exec (compare : ℕ → ℕ → Ordering) 8)
      ([4, 2, 6, 1, 5, 7, 2, 8].map .insertNode) (avlInitializer (fun _ => initialized) (fun _ => 0) false) = .ok (t, rs) ∧
      (t.root == some 6) = true := exists_of_endsIn (P := fun t : HeightTree ℕ => t.root == some 6) (by decide +kernel)
  obtain ⟨rfl, -⟩ := Prod.mk.inj (Except.ok.inj (hrun.symm.trans hrun₁))
  obtain ⟨rfl, -⟩ := Prod.mk.inj (Except.ok.inj (hruns.runCalls.symm.trans hrun₂))
  rw [beq_iff_eq] at hroot hroot'
  rw [hroot] at hl
  rw [hroot'] at hl'
  have htop : some 4 = some 6 := (Linked.eq_top hl).trans (Linked.eq_top hl').symm
  exact absurd htop (by decide)

end Libtarp.Avl.Height
