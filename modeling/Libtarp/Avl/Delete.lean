import Libtarp.Avl.Update

/-!
# Deletion keeps a tree valid

* `leftmostLoop_spec`: the search for the successor.
* `replaces_right`, `replaces_deep`: the successor, cut out of its place, takes over the fields of the node.
* `replacement_spec`: what is hung in the place of a deleted node, and the frames in it
  that lead to where the height has changed.
* `unlink_spec`: taking a node out, whichever it is.
-/

namespace Libtarp.Avl

open Lib BinaryTree

variable {ν : Type} [DecidableEq ν] {cmp : ν → ν → Ordering} {mem : Mem ν} {tree : AvlTree ν}
  {rounds : ℕ}

omit [DecidableEq ν] in
theorem leftmostLoop_spec {c : List (Frame ν)} {s : ν} {rs : BinaryTree ν} {p : Option ν}
    (hl : Linked mem.ch p (plug c (.node s .nil rs))) (hc : ∀ f ∈ c, f.side = .left)
    (hr : (plug c (.node s .nil rs)).height ≤ rounds) : leftmostLoop mem rounds p = .ok (some s) := by
  induction c using List.reverseRecOn generalizing p rounds with
  | nil =>
    obtain ⟨rfl, hnil, -⟩ := hl
    simp only [plug_nil, height] at hr
    obtain ⟨n, rfl⟩ : ∃ n, rounds = n + 1 := ⟨rounds - 1, by omega⟩
    simp only [leftmostLoop, show (mem s).left = none from hnil]
  | append_singleton c f ih =>
    obtain ⟨side, a, t⟩ := f
    obtain rfl : side = .left := hc ⟨side, a, t⟩ (by simp)
    rw [plug_append, plug_cons, plug_nil, Frame.fill] at hl hr
    obtain ⟨rfl, hleft, -⟩ := hl
    simp only [height] at hr
    obtain ⟨n, rfl⟩ : ∃ n, rounds = n + 1 := ⟨rounds - 1, by omega⟩
    obtain ⟨b, hb⟩ : ∃ b, (mem a).left = some b := by
      cases h : (mem a).left with
      | some b => exact ⟨b, rfl⟩
      | none =>
        rw [show mem.ch a .left = none from h, linked_none, plug_eq_nil] at hleft
        cases hleft.2
    have hab : mem.ch a .left = some b := hb
    rw [hab] at hleft
    simp only [leftmostLoop, hb]
    exact ih hleft (fun g hg => hc g (by simp [hg])) (by omega)

/-- The fields of `b` copied into `a`, all but the right child when it is to stay. -/
theorem copyAvlnodeFields_spec (mem : Mem ν) {a b : ν} (hab : a ≠ b) (copyRight : Bool) :
    (copyAvlnodeFields mem a b true copyRight).ch a .left = mem.ch b .left ∧
      (copyAvlnodeFields mem a b true copyRight).ch a .right =
        (if copyRight then mem.ch b .right else mem.ch a .right) ∧
      (copyAvlnodeFields mem a b true copyRight).bf a = mem.bf b ∧
      ∀ x, x ≠ a → copyAvlnodeFields mem a b true copyRight x = mem x := by
  have hr : ∀ (m : Mem ν) (n : ν), (m n).right = m.ch n .right := fun _ _ => rfl
  have hl : ∀ (m : Mem ν) (n : ν), (m n).left = m.ch n .left := fun _ _ => rfl
  refine ⟨?_, ?_, ?_, ?_⟩
  · cases copyRight <;> simp [copyAvlnodeFields, Mem.ch, hl]
  · cases copyRight <;> simp [copyAvlnodeFields, Mem.ch, hr, hab.symm]
  · cases copyRight <;> simp [copyAvlnodeFields, Mem.bf]
  · intro x hx
    cases copyRight <;> simp [copyAvlnodeFields, Mem.setBf_of_ne _ hx, Mem.setChild_of_ne _ _ hx]

/-- What is hung in the place of a node: the subtree `plug c u`, found from `p`, whose
frames `c` lead down to where the height became less by one. -/
structure Replaces (mem mem' : Mem ν) (a : ν) (l r : BinaryTree ν) (c : List (Frame ν))
    (u : BinaryTree ν) (p : Option ν) : Prop where
  linked : Linked mem'.ch p (plug c u)
  inorder : inorder (plug c u) = inorder l ++ inorder r
  balanced : HeightBalanced mem'.bf u
  ctx : CtxBalanced mem'.bf c (u.height + 1)
  height : ctxHeight c (u.height + 1) = (BinaryTree.node a l r).height
  frame : ∀ x, x ∉ Lib.inorder (.node a l r) → mem' x = mem x

/-- The successor is the right child: it keeps its own right subtree. -/
theorem replaces_right {a s : ν} {l rs : BinaryTree ν} {p : Option ν}
    (hl : Linked mem.ch p (.node a l (.node s .nil rs)))
    (hn : (inorder (.node a l (.node s .nil rs))).Nodup)
    (hb : HeightBalanced mem.bf (.node a l (.node s .nil rs))) :
    Replaces mem (copyAvlnodeFields mem s a true false) a l (.node s .nil rs) [⟨.right, s, l⟩] rs
      (some s) := by
  obtain ⟨rfl, hll, hls⟩ := hl
  obtain ⟨hpl, hsrs, hn₂⟩ : a ∉ inorder l ∧ s ∉ inorder rs ∧ s ∉ inorder l := by
    simp [List.nodup_append, List.nodup_cons] at hn; grind
  have hsa : s ≠ a := by rintro rfl; simp [List.nodup_append] at hn
  obtain ⟨hcl, hcr, hcb, hout⟩ := copyAvlnodeFields_spec mem hsa false
  simp only [Bool.false_eq_true, if_false] at hcr
  obtain ⟨hbl, ⟨-, hbrs, -⟩, hba, hlo, hhi⟩ := hb
  have hsame : ∀ t : BinaryTree ν, s ∉ inorder t → ∀ x ∈ inorder t,
      copyAvlnodeFields mem s a true false x = mem x := fun t hst x hx => hout x fun h => hst (h ▸ hx)
  refine ⟨?_, ?_, balanced_congr hbrs (hsame rs hsrs), ?_, ?_, ?_⟩
  · rw [plug_cons, plug_nil, linked_fill]
    refine ⟨rfl, ?_, ?_⟩
    · rw [hcr]; exact linked_congr hls.2.2 (hsame rs hsrs)
    · simp only [Side.other]; rw [hcl]; exact linked_congr hll (hsame l hn₂)
  · simp [Frame.fill]
  · refine ⟨balanced_congr hbl (hsame l hn₂), ?_, ?_, ?_, trivial⟩
    · rw [hcb, hba]; simp [Side.sign, BinaryTree.height]
    · rw [hcb]; exact hlo
    · rw [hcb]; exact hhi
  · simp [ctxHeight, Frame.height, BinaryTree.height, max_comm]
  · intro x hx
    refine hout x ?_
    rintro rfl; simp at hx

/-- The successor is further down: its parent takes over its right subtree. -/
theorem replaces_deep {a s : ν} {f : Frame ν} {c : List (Frame ν)} {l rs : BinaryTree ν} {p : Option ν}
    (hl : Linked mem.ch p (.node a l (plug (f :: c) (.node s .nil rs))))
    (hn : (inorder (.node a l (plug (f :: c) (.node s .nil rs)))).Nodup)
    (hb : HeightBalanced mem.bf (.node a l (plug (f :: c) (.node s .nil rs))))
    (hc : ∀ g ∈ f :: c, g.side = .left) :
    Replaces mem (copyAvlnodeFields (mem.setChild f.node .left (mem s).right) s a true true) a l
      (plug (f :: c) (.node s .nil rs)) (f :: c ++ [⟨.right, s, l⟩]) rs (some s) := by
  obtain ⟨rfl, hll, hlr⟩ := hl
  obtain ⟨hlc, hls⟩ := linked_plug.1 hlr
  obtain ⟨hbl, hbr, hba, hlo, hhi⟩ := hb
  obtain ⟨hbc, -, hbrs, -⟩ := balanced_plug.1 hbr
  rw [inorder_node, List.nodup_append', List.nodup_cons, List.disjoint_left] at hn
  obtain ⟨hnl, ⟨har, hnr⟩, hd⟩ := hn
  obtain ⟨hnc, hns, hdc⟩ := nodup_plug.1 hnr
  have hsr : s ∉ inorder rs := by simpa using (List.nodup_cons.1 hns).1
  have hsc : s ∉ ctxValues (f :: c) := fun h => hdc s h (by simp)
  have hsin : s ∈ inorder (plug (f :: c) (.node s .nil rs)) := mem_inorder_plug.2 (.inr (by simp))
  have hsl : s ∉ inorder l := fun h => hd h (List.mem_cons_of_mem _ hsin)
  have hf : f.side = .left := hc f (by simp)
  have hfc : f.node ∈ ctxValues (f :: c) := mem_ctxValues_cons.2 (.inl rfl)
  have hfr : f.node ∈ inorder (plug (f :: c) (.node s .nil rs)) := mem_inorder_plug.2 (.inl hfc)
  have hfl : f.node ∉ inorder l := fun h => hd h (List.mem_cons_of_mem _ hfr)
  have hfs : f.node ≠ s := fun h => hsc (h ▸ hfc)
  have haf : a ≠ f.node := fun h => har (h ▸ hfr)
  have hsa : s ≠ a := fun h => har (h ▸ hsin)
  -- what was written: the fields of the successor, and the child it leaves behind
  obtain ⟨hcl, hcr, hcb, hout⟩ :=
    copyAvlnodeFields_spec (mem.setChild f.node .left (mem s).right) hsa true
  rw [if_pos rfl] at hcr
  set mem' := copyAvlnodeFields (mem.setChild f.node .left (mem s).right) s a true true
  have hcl' : mem'.ch s .left = mem.ch a .left := by rw [hcl]; simp [Mem.ch, haf]
  have hcr' : mem'.ch s .right = mem.ch a .right := by rw [hcr]; simp [Mem.ch]
  have hcb' : mem'.bf s = mem.bf a := by rw [hcb]; simp [Mem.bf]
  have hout' : ∀ x, x ≠ s → x ≠ f.node → mem' x = mem x := fun x hxs hxf => by
    rw [hout x hxs, Mem.setChild_of_ne _ _ hxf]
  have hbf : ∀ x, x ≠ s → mem'.bf x = mem.bf x := fun x hxs => by
    rw [Mem.bf, hout x hxs, Mem.bf_setChild]; rfl
  have hlsame : ∀ x ∈ inorder l, mem' x = mem x := fun x hx =>
    hout' x (fun h => hsl (h ▸ hx)) fun h => hfl (h ▸ hx)
  have hrsame : ∀ x ∈ inorder rs, mem' x = mem x := fun x hx =>
    hout' x (fun h => hsr (h ▸ hx)) fun h => hdc f.node hfc (by rw [← h]; simp [hx])
  -- the frames above the hole, with the successor in the place of the node
  have hplug : plug (f :: c ++ [⟨.right, s, l⟩]) rs = .node s l (plug (f :: c) rs) := by
    rw [plug_append]; rfl
  refine ⟨?_, ?_, balanced_congr hbrs hrsame, ?_, ?_, ?_⟩
  · rw [hplug]
    refine ⟨rfl, by rw [hcl']; exact linked_congr hll hlsame, ?_⟩
    rw [hcr']
    refine linked_plug.2 ⟨hlc.set_hole hnc (fun _ => rfl) ?_ ?_, ?_⟩
    · intro g hg
      obtain rfl : f = g := by simpa using hg
      rw [hf, Mem.ch, hout f.node hfs]; simp [Mem.ch, Side.other]
    · intro x hx hne
      funext side
      rw [Mem.ch, Mem.ch, hout' x (fun h => hsc (h ▸ hx)) (hne f rfl)]
    · have hhole : holePtr mem'.ch (mem.ch a .right) (f :: c) = mem.ch s .right := by
        rw [holePtr, hf, Mem.ch, hout f.node hfs]; simp [Mem.ch]; rfl
      rw [hhole]; exact linked_congr hls.2.2 hrsame
  · rw [hplug, inorder_node, inorder_plug, inorder_plug, inorder_node]
    simp [before_eq_nil hc]
  · rw [ctxBalanced_append]
    have hheight : (BinaryTree.node s .nil rs).height = rs.height + 1 := by simp [BinaryTree.height]
    rw [← hheight, ← height_plug]
    refine ⟨hbc.congr fun x hx => hbf x fun h => hsc (h ▸ hx), balanced_congr hbl hlsame, ?_, ?_, ?_, trivial⟩
    · rw [hcb', hba]; simp [Side.sign]
    · rw [hcb']; exact hlo
    · rw [hcb']; exact hhi
  · have hheight : (BinaryTree.node s .nil rs).height = rs.height + 1 := by simp [BinaryTree.height]
    rw [← hheight, ctxHeight_append, ← height_plug]
    simp [ctxHeight, Frame.height, max_comm]
  · intro x hx
    simp only [inorder_node, List.mem_append, List.mem_cons, not_or] at hx
    exact hout' x (fun h => hx.2.2 (h ▸ hsin)) fun h => hx.2.2 (h ▸ hfr)

omit [DecidableEq ν] in
/-- A node with at most one child is replaced by it. -/
theorem replaces_child {a : ν} {l r u : BinaryTree ν} {q : Option ν} (hl : Linked mem.ch q u)
    (hb : HeightBalanced mem.bf u) (hu : l = .nil ∧ u = r ∨ r = .nil ∧ u = l) :
    Replaces mem mem a l r [] u q := by
  refine ⟨hl, ?_, hb, trivial, ?_, fun _ _ => rfl⟩
  · rcases hu with ⟨rfl, rfl⟩ | ⟨rfl, rfl⟩ <;> simp
  · rcases hu with ⟨rfl, rfl⟩ | ⟨rfl, rfl⟩ <;> simp [ctxHeight, BinaryTree.height]

/-- Where the frames and the filling come from: there was one child at most, or the leftmost node `s` of the right
subtree takes the place. -/
def Vacated (l r : BinaryTree ν) (c : List (Frame ν)) (u : BinaryTree ν) (q : Option ν) : Prop :=
  c = [] ∧ (l = .nil ∧ u = r ∨ r = .nil ∧ u = l) ∨
    l ≠ .nil ∧ ∃ d s, r = plug d (.node s .nil u) ∧ c = d ++ [⟨.right, s, l⟩] ∧ q = some s

variable [Std.TransCmp cmp]

theorem replacement_spec {a : ν} {l r : BinaryTree ν} {p : Option ν} (path : List (AvlWaypoint ν))
    (hl : Linked tree.mem.ch p (.node a l r)) (hs : Sorted cmp (inorder (.node a l r)))
    (hb : HeightBalanced tree.mem.bf (.node a l r)) (hcount : tree.count ≠ 0)
    (hr : (BinaryTree.node a l r).height ≤ rounds) :
    ∃ mem c u q, replacement cmp rounds tree a path =
        .ok ({ tree with mem }, waypoints c ++ path, q) ∧ Replaces tree.mem mem a l r c u q ∧ Vacated l r c u q := by
  have hn := hs.nodup
  obtain ⟨-, hll, hlr⟩ := hl
  obtain ⟨hbl, hbr, hba⟩ := hb
  have hleft : (tree.mem a).left = top? l := Linked.eq_top hll
  have hright : (tree.mem a).right = top? r := Linked.eq_top hlr
  simp only [height] at hr
  cases l with
  | nil =>
    refine ⟨tree.mem, [], r, top? r, ?_, replaces_child ?_ hbr (.inl ⟨rfl, rfl⟩), .inl ⟨rfl, .inl ⟨rfl, rfl⟩⟩⟩
    swap; · rw [← hright]; exact hlr
    simp only [replacement, hleft, hright]
    cases r <;> rfl
  | node b bl br =>
  cases r with
  | nil =>
    refine ⟨tree.mem, [], .node b bl br, some b, ?_, replaces_child ⟨rfl, hll.2⟩ hbl (.inr ⟨rfl, rfl⟩),
      .inl ⟨rfl, .inr ⟨rfl, rfl⟩⟩⟩
    simp only [replacement, hleft, hright, top?]
    rfl
  | node d dl dr =>
    -- two children: the successor is the leftmost node on the right
    obtain ⟨c, s, rs, hr', hc⟩ := exists_leftmost (t := .node d dl dr) (by simp)
    have hsuc : avlFindInorderSuccessor rounds tree.mem a = .ok (some s) := by
      refine @leftmostLoop_spec _ _ _ c s rs _ ?_ hc ?_
      · rw [← hr']; exact hlr
      · rw [← hr']; omega
    have hlr' : Linked tree.mem.ch (some a) (.node a (.node b bl br) (plug c (.node s .nil rs))) :=
      ⟨rfl, hll, hr' ▸ hlr⟩
    simp only [replacement, hleft, hright, top?, hsuc, asserted, bind, Except.bind]
    cases c with
    | nil =>
      simp only [plug_nil, node.injEq] at hr'
      obtain ⟨rfl, rfl, rfl⟩ := hr'
      refine ⟨_, _, dr, some d, ?_, replaces_right hlr' hn ⟨hbl, hbr, hba⟩, .inr ⟨by simp, [], d, rfl, rfl, rfl⟩⟩
      rw [if_pos rfl]; rfl
    | cons f c =>
      -- the successor is further down, and the path to it is traced
      have hsd : s ≠ d := by
        rintro rfl
        have htop := top_mem_ctxValues (c := f :: c) (by simp) hr'.symm
        have hnr : (inorder (plug (f :: c) (.node s .nil rs))).Nodup := by
          rw [← hr']
          exact (List.nodup_cons.1 (List.nodup_append'.1 hn).2.1).2
        exact (nodup_plug.1 hnr).2.2 s htop (by simp)
      have htrace : avlTracePathToNode cmp rounds tree (some d) s =
          .ok ({ ptr := s, dir := .equal } :: waypoints (f :: c)) := by
        have hlink : Linked tree.mem.ch (some d) (.node d dl dr) := ⟨rfl, hlr.2⟩
        have hsr : Sorted cmp (inorder (.node d dl dr)) :=
          (List.pairwise_cons.1 (List.pairwise_append.1 hs).2.1).2
        have hloop := @traceLoop_spec _ cmp _ s _ _ rounds [] hlink (by omega)
        rw [hr', locate_value (hr' ▸ hsr)] at hloop
        simp only [avlTracePathToNode, if_neg hcount]
        exact hloop
      rw [if_neg hsd, htrace]
      simp only [List.tail_cons, waypoints_cons, List.head?_cons]
      rw [hr']
      refine ⟨_, _, rs, some s, ?_, replaces_deep hlr' (hr' ▸ hn) ⟨hbl, hr' ▸ hbr, ?_⟩ hc,
        .inr ⟨by simp, f :: c, s, rfl, rfl, rfl⟩⟩
      · simp [waypoints, waypoint, PathTraceDirection.ofSide]; rfl
      · rw [← hr']; exact hba

/-- What takes the place of a node hangs in the frames around it. -/
theorem hang_replacement {a : ν} {c d : List (Frame ν)} {l r u : BinaryTree ν} {q : Option ν}
    (hl : Linked tree.mem.ch tree.root (plug c (.node a l r)))
    (hs : Sorted cmp (inorder (plug c (.node a l r))))
    (hb : HeightBalanced tree.mem.bf (plug c (.node a l r))) (hreb : Replaces tree.mem mem a l r d u q) :
    ∃ mem' root', { tree with mem }.write q (upperRef (waypoints c)) = { tree with mem := mem', root := root' } ∧
      Linked mem'.ch root' (plug (d ++ c) u) ∧ (inorder (plug (d ++ c) u)).Nodup ∧ mem'.bf = mem.bf ∧
      CtxBalanced mem'.bf (d ++ c) (u.height + 1) ∧ HeightBalanced mem'.bf u ∧
      inorder (plug (d ++ c) u) = before c ++ (inorder l ++ inorder r) ++ after c := by
  obtain ⟨hlc, -⟩ := linked_plug.1 hl
  obtain ⟨hbc, -⟩ := balanced_plug.1 hb
  obtain ⟨hnc, -, hd⟩ := nodup_plug.1 hs.nodup
  have hin : ∀ x ∈ inorder (plug d u), x ∈ inorder (.node a l r) := by
    intro x hx
    rw [hreb.inorder, List.mem_append] at hx
    simp only [inorder_node, List.mem_append, List.mem_cons]
    exact hx.imp_right .inr
  obtain ⟨mem', root', hw, hl', hbf⟩ := linked_write hlc hnc
    (fun x hx => hreb.frame x (hd x hx)) hreb.linked fun x hx h => hd x hx (hin x h)
  have hseq : inorder (plug (d ++ c) u) = before c ++ (inorder l ++ inorder r) ++ after c := by
    rw [plug_append, inorder_plug, hreb.inorder]
  refine ⟨mem', root', hw, by rw [plug_append]; exact hl', ?_, hbf, ?_, by rw [hbf]; exact hreb.balanced, hseq⟩
  · rw [inorder_plug, inorder_node] at hs
    rw [hseq]
    refine (hs.nodup).sublist ((List.Sublist.append_left ?_ _).append_right _)
    exact (List.sublist_cons_self a _).append_left _
  · rw [hbf, ctxBalanced_append, hreb.height]
    exact ⟨hreb.ctx, hbc.congr fun x hx => by rw [Mem.bf, Mem.bf, hreb.frame x (hd x hx)]⟩

/-- **Taking a node out.** Any node of the tree may be it. -/
theorem unlink_spec {a : ν} {c : List (Frame ν)} {l r : BinaryTree ν}
    (hl : Linked tree.mem.ch tree.root (plug c (.node a l r)))
    (hs : Sorted cmp (inorder (plug c (.node a l r))))
    (hb : HeightBalanced tree.mem.bf (plug c (.node a l r))) (hcount : tree.count ≠ 0)
    (hr : (plug c (.node a l r)).height ≤ rounds) :
    Restored (unlink cmp rounds tree a (waypoints c)) tree
      (before c ++ (inorder l ++ inorder r) ++ after c) := by
  have hra : (BinaryTree.node a l r).height ≤ rounds := (height_le_plug c _).trans hr
  obtain ⟨mem, d, u, q, hrep, hreb, -⟩ := replacement_spec (waypoints c) (linked_plug.1 hl).2 hs.subtree
    (balanced_plug.1 hb).2 hcount hra
  obtain ⟨mem', root', hw, hl', hn, hbf, hctx, hbal, hseq⟩ := hang_replacement hl hs hb hreb
  simp only [unlink, hrep, bind, Except.bind, hw]
  by_cases hroot : root' = none
  · -- the last node is gone
    rw [if_pos hroot]
    rw [hroot, linked_none] at hl'
    rw [← hseq, hl']
    exact ⟨mem', root', .nil, rfl, hroot, trivial, rfl⟩
  · rw [if_neg hroot, ← hseq, show waypoints d ++ waypoints c = waypoints (d ++ c) from
      (List.map_append ..).symm]
    exact @avlDeleteFixup_spec _ _ { tree with mem := mem', root := root' } (d ++ c) u hl' hn hctx hbal

omit [DecidableEq ν] [Std.TransCmp cmp] in
/-- The tree after a node was taken out. -/
theorem Valid.remove {t' : BinaryTree ν} {a : ν} {c : List (Frame ν)} {l r : BinaryTree ν}
    {mem : Mem ν} {root : Option ν} (hv : Valid cmp tree (plug c (.node a l r)))
    (hl : Linked mem.ch root t') (hb : HeightBalanced mem.bf t')
    (hin : inorder t' = before c ++ (inorder l ++ inorder r) ++ after c) :
    Valid cmp { tree with mem, root, cached := none, count := tree.count - 1 } t' ∧
      (inorder (plug c (.node a l r))).Perm (a :: inorder t') := by
  have hperm : (inorder (plug c (.node a l r))).Perm (a :: inorder t') := by
    rw [inorder_plug, hin, inorder_node, List.append_assoc, List.append_assoc, List.append_assoc]
    refine (List.Perm.append_left _ ?_).trans List.perm_middle
    rw [List.cons_append, List.append_assoc]
    exact List.perm_middle
  have hs := hv.sorted
  refine ⟨⟨hl, ?_, hb, ?_, by simp⟩, hperm⟩
  · rw [hin]
    rw [inorder_plug, inorder_node] at hs
    refine hs.sublist ((List.Sublist.append_left ?_ _).append_right _)
    exact (List.sublist_cons_self a _).append_left _
  · have hlen := hperm.length_eq
    rw [List.length_cons, length_inorder, length_inorder] at hlen
    have := hv.count
    simp only; omega

/-- The node `Avl_delete_node` takes out: the last one on the path traced for the key. -/
def victim (cmp : ν → ν → Ordering) (t : BinaryTree ν) (k : ν) : Option ν :=
  match locate cmp k t [] with
  | (_, .node a _ _) => some a
  | (f :: _, .nil) => some f.node
  | ([], .nil) => none

omit [DecidableEq ν] in
/-- In a tree with nodes a traced path ends at one of them. -/
theorem avlTracePathToNode_node {t : BinaryTree ν} (hv : Valid cmp tree t) (hr : t.height ≤ rounds)
    (hcount : tree.count ≠ 0) (k : ν) : ∃ a c l r dir, victim cmp t k = some a ∧ plug c (.node a l r) = t ∧
      avlTracePathToNode cmp rounds tree none k = .ok ({ ptr := a, dir } :: waypoints c) := by
  have htrace := avlTracePathToNode_spec hv hr k
  rcases locate_cases hv.sorted k with ⟨c, hloc, hplug, -⟩ | ⟨c, a, l, r, hloc, hplug, -⟩
  · rw [hloc] at htrace
    cases c with
    | nil => exact absurd (hv.count_eq_zero.2 hplug.symm) hcount
    | cons f c =>
      obtain ⟨side, b, s⟩ := f
      cases side with
      | left => exact ⟨b, c, .nil, s, .left, by rw [victim, hloc], hplug, htrace⟩
      | right => exact ⟨b, c, s, .nil, .right, by rw [victim, hloc], hplug, htrace⟩
  · rw [hloc] at htrace
    exact ⟨a, c, l, r, .equal, by rw [victim, hloc], hplug, htrace⟩

/-- **Deletion.** From a tree with nodes, one node is taken out: the one equal to the key,
if there is one, and otherwise the last node the search for it met. -/
theorem deleteNode_spec {t : BinaryTree ν} {k : ν} {freeContainer : Bool} (hv : Valid cmp tree t)
    (hr : t.height ≤ rounds) (hd : freeContainer = true → tree.dtor = true) :
    (t = .nil ∧ deleteNode cmp rounds tree k freeContainer = .ok (tree, false)) ∨
      ∃ a mem root t', victim cmp t k = some a ∧
        deleteNode cmp rounds tree k freeContainer =
          .ok ({ tree with mem, root, cached := none, count := tree.count - 1 }, true) ∧
        Valid cmp { tree with mem, root, cached := none, count := tree.count - 1 } t' ∧
        (inorder t).Perm (a :: inorder t') := by
  by_cases hcount : tree.count = 0
  · exact .inl ⟨hv.count_eq_zero.1 hcount, by rw [deleteNode, if_pos hcount]⟩
  right
  obtain ⟨a, c, l, r, dir, hvic, hplug, hpath⟩ := avlTracePathToNode_node hv hr hcount k
  subst hplug
  obtain ⟨mem, root, t', hun, hl, hb, hin⟩ :=
    unlink_spec hv.linked hv.sorted hv.balanced hcount hr
  have hfree : (freeContainer && !tree.dtor) = false := by
    cases freeContainer with
    | false => rfl
    | true => rw [hd rfl]; rfl
  refine ⟨a, mem, root, t', hvic, ?_, hv.remove hl hb hin⟩
  simp only [deleteNode, if_neg hcount, hpath, bind, Except.bind, hun, hfree]
  rfl

end Libtarp.Avl
