import Libtarp.Avl.Fixup

/-!
# Searches

The state of a tree in use is `Valid`, with the tree of its nodes. Searches and traces
follow the path `locate` describes, and end within as many rounds as the tree is high.

* `traceLoop_spec`, `findLoop_spec`: by induction on the tree below the pointer.
* `findNode_spec`: `Avl_find_node`, with the cache.
-/

namespace Libtarp.Avl

open Lib BinaryTree

variable {ν : Type} {cmp : ν → ν → Ordering} {mem : Mem ν} {tree : AvlTree ν}

/-- What holds of a tree between calls; `t` is the tree of its nodes. -/
structure Valid (cmp : ν → ν → Ordering) (tree : AvlTree ν) (t : BinaryTree ν) : Prop where
  linked : Linked tree.mem.ch tree.root t
  sorted : Sorted cmp (inorder t)
  balanced : HeightBalanced tree.mem.bf t
  count : tree.count = t.numNodes
  cached : ∀ c ∈ tree.cached, c ∈ inorder t

theorem valid_initializer (mem : Mem ν) (dtor : Bool) : Valid cmp (avlInitializer mem dtor) .nil where
  linked := rfl
  sorted := List.Pairwise.nil
  balanced := trivial
  count := rfl
  cached := by simp [avlInitializer]

theorem Valid.count_eq_zero {t : BinaryTree ν} (hv : Valid cmp tree t) : tree.count = 0 ↔ t = .nil := by
  rw [hv.count]; cases t <;> simp

/-- The value a tree has on top. -/
def top? : BinaryTree ν → Option ν
  | .nil => none
  | .node a _ _ => some a

theorem Linked.eq_top {ch : ν → Side → Option ν} {p : Option ν} {t : BinaryTree ν} (h : Linked ch p t) :
    p = top? t := by
  cases t with
  | nil => exact h
  | node a l r => exact h.1

/-- The waypoint of the node a trace ends at. -/
def endpoint : BinaryTree ν → List (AvlWaypoint ν)
  | .nil => []
  | .node a _ _ => [{ ptr := a, dir := .equal }]

theorem traceLoop_spec {k : ν} {t : BinaryTree ν} {p : Option ν} {rounds : ℕ} {c : List (Frame ν)}
    (hl : Linked mem.ch p t) (hr : t.height ≤ rounds) :
    traceLoop cmp mem k rounds p (waypoints c) =
      .ok (endpoint (locate cmp k t c).2 ++ waypoints (locate cmp k t c).1) := by
  induction t generalizing p rounds c with
  | nil =>
    obtain rfl : p = none := hl
    cases rounds <;> rfl
  | node a l r ihl ihr =>
    obtain ⟨rfl, hll, hlr⟩ := hl
    simp only [height] at hr
    obtain ⟨n, rfl⟩ : ∃ n, rounds = n + 1 := ⟨rounds - 1, by omega⟩
    cases h : cmp k a with
    | lt =>
      simp only [traceLoop, locate, h]
      exact ihl (c := ⟨.left, a, r⟩ :: c) hll (by omega)
    | eq => simp only [traceLoop, locate, h]; rfl
    | gt =>
      simp only [traceLoop, locate, h]
      exact ihr (c := ⟨.right, a, l⟩ :: c) hlr (by omega)

theorem findLoop_spec {k : ν} {t : BinaryTree ν} {p : Option ν} {rounds : ℕ} {c : List (Frame ν)}
    (hl : Linked mem.ch p t) (hr : t.height ≤ rounds) :
    findLoop cmp mem k rounds p = .ok (top? (locate cmp k t c).2) := by
  induction t generalizing p rounds c with
  | nil =>
    obtain rfl : p = none := hl
    cases rounds <;> rfl
  | node a l r ihl ihr =>
    obtain ⟨rfl, hll, hlr⟩ := hl
    simp only [height] at hr
    obtain ⟨n, rfl⟩ : ∃ n, rounds = n + 1 := ⟨rounds - 1, by omega⟩
    cases h : cmp k a with
    | lt =>
      simp only [findLoop, locate, h]
      exact ihl hll (by omega)
    | eq => simp only [findLoop, locate, h]; rfl
    | gt =>
      simp only [findLoop, locate, h]
      exact ihr hlr (by omega)

theorem avlTracePathToNode_spec {t : BinaryTree ν} {rounds : ℕ} (hv : Valid cmp tree t)
    (hr : t.height ≤ rounds) (k : ν) : avlTracePathToNode cmp rounds tree none k =
      .ok (endpoint (locate cmp k t []).2 ++ waypoints (locate cmp k t []).1) := by
  unfold avlTracePathToNode
  by_cases h0 : tree.count = 0
  · rw [if_pos h0, hv.count_eq_zero.1 h0]; rfl
  · rw [if_neg h0]
    obtain ⟨a, ha⟩ : ∃ a, tree.root = some a := by
      cases hroot : tree.root with
      | some a => exact ⟨a, rfl⟩
      | none =>
        have hl := hv.linked
        rw [hroot, linked_none] at hl
        exact absurd (hv.count_eq_zero.2 hl) h0
    have hl := hv.linked
    rw [ha] at hl
    rw [ha]
    exact traceLoop_spec (c := []) hl hr

theorem avlFindNode_spec {t : BinaryTree ν} {rounds : ℕ} (hv : Valid cmp tree t)
    (hr : t.height ≤ rounds) (k : ν) :
    avlFindNode cmp rounds tree k = .ok (top? (locate cmp k t []).2) := by
  unfold avlFindNode
  by_cases h0 : tree.count = 0
  · rw [if_pos h0, hv.count_eq_zero.1 h0]; rfl
  · rw [if_neg h0]
    cases hroot : tree.root with
    | none =>
      have hl := hv.linked
      rw [hroot, linked_none] at hl
      exact absurd (hv.count_eq_zero.2 hl) h0
    | some a =>
      have hl := hv.linked
      rw [hroot] at hl
      simp only [asserted, bind, Except.bind]
      exact findLoop_spec hl hr

variable [Std.TransCmp cmp]

/-- Where the search for `k` ends in a sorted tree. -/
theorem locate_cases {t : BinaryTree ν} (hs : Sorted cmp (inorder t)) (k : ν) :
    (∃ c, locate cmp k t [] = (c, .nil) ∧ plug c .nil = t ∧ (∀ x ∈ before c, cmp k x = .gt) ∧
      ∀ x ∈ after c, cmp k x = .lt) ∨
    ∃ c a l r, locate cmp k t [] = (c, .node a l r) ∧ plug c (.node a l r) = t ∧ cmp k a = .eq := by
  obtain ⟨hb, ha, hu⟩ := locate_spec (k := k) (c := []) hs (by simp [before]) (by simp [after])
  have hplug := plug_locate cmp k t []
  rcases hu with hu | ⟨a, l, r, hu, hk⟩
  · exact .inl ⟨_, Prod.ext rfl hu, by rw [hu] at hplug; exact hplug, hb, ha⟩
  · exact .inr ⟨_, a, l, r, Prod.ext rfl hu, by rw [hu] at hplug; exact hplug, hk⟩

omit [Std.TransCmp cmp] in
/-- A search that ends at no node: no node is equal to the key. -/
theorem not_eq_of_locate_nil {c : List (Frame ν)} {k : ν} (hb : ∀ x ∈ before c, cmp k x = .gt)
    (ha : ∀ x ∈ after c, cmp k x = .lt) : ∀ x ∈ inorder (plug c .nil), cmp k x ≠ .eq := by
  intro x hx
  rw [inorder_plug] at hx
  simp only [inorder_nil, List.append_nil, List.mem_append] at hx
  rcases hx with hx | hx
  · rw [hb x hx]; decide
  · rw [ha x hx]; decide

/-- A sorted tree has at most one node equal to a key. -/
theorem eq_unique {l : List ν} (hs : Sorted cmp l) {a b k : ν} (ha : a ∈ l) (hb : b ∈ l)
    (hka : cmp k a = .eq) (hkb : cmp k b = .eq) : a = b := by
  have hab : cmp a b = .eq := Std.TransCmp.eq_trans (Std.OrientedCmp.eq_symm hka) hkb
  induction l with
  | nil => simp at ha
  | cons x l ih =>
    obtain ⟨hx, hs⟩ := List.pairwise_cons.1 hs
    rcases List.mem_cons.1 ha with rfl | ha' <;> rcases List.mem_cons.1 hb with rfl | hb'
    · rfl
    · rw [hx b hb'] at hab; cases hab
    · have := hx a ha'
      rw [Std.OrientedCmp.eq_symm hab] at this; cases this
    · exact ih hs ha' hb'

/-- **Lookups.** The node found is the one equal to the key, if there is one; only the
cache may change, and it keeps naming a node of the tree. -/
theorem findNode_spec {t : BinaryTree ν} {rounds : ℕ} (hv : Valid cmp tree t)
    (hr : t.height ≤ rounds) (k : ν) :
    ∃ p cached, findNode cmp rounds tree k = .ok ({ tree with cached }, p) ∧
      Valid cmp { tree with cached } t ∧
      match p with
      | some a => a ∈ inorder t ∧ cmp k a = .eq
      | none => ∀ a ∈ inorder t, cmp k a ≠ .eq := by
  unfold findNode
  by_cases hc : cacheHit cmp tree k
  · rw [if_pos hc]
    unfold cacheHit at hc
    split at hc
    · rename_i a ha
      refine ⟨tree.cached, tree.cached, rfl, hv, ?_⟩
      rw [ha]
      exact ⟨hv.cached a ha, Std.OrientedCmp.eq_symm (by simpa using hc)⟩
    · exact absurd hc (by simp)
  rw [if_neg hc, avlFindNode_spec hv hr]
  rcases locate_cases hv.sorted k with ⟨c, hloc, rfl, hb, ha⟩ | ⟨c, a, l, r, hloc, rfl, hk⟩
  · rw [hloc]
    exact ⟨none, tree.cached, rfl, hv, not_eq_of_locate_nil hb ha⟩
  · rw [hloc]
    have hmem : a ∈ inorder (plug c (.node a l r)) := by rw [inorder_plug]; simp
    refine ⟨some a, some a, rfl, ⟨hv.linked, hv.sorted, hv.balanced, hv.count, ?_⟩, hmem, hk⟩
    simpa using hmem

end Libtarp.Avl
