import Libtarp.Avl.Runs

/-!
# The k-th smallest and the k-th greatest node

The search numbers the nodes in order, from either end, and stops at the one numbered `k`. No more than the shape of the
tree matters: nothing here needs it sorted or balanced.

* `findKthInorder_spec`: the recursion numbers the nodes as a loop over their sequence would.
* `foldl_visit`: what such a loop finds.
* `getKth_spec`: both getters, with the end each search starts from and the two reversals of the index.
* `endLoop_spec`: the loops to the least and to the greatest node, which search on their own.
* `ranks_after`: in a run, each getter is told by the set of nodes stored and the comparator.
-/

namespace Libtarp.Avl

open Lib

variable {ν : Type} {mem : Mem ν} {tree : AvlTree ν} {t : BinaryTree ν} {rounds : ℕ}

/-- `find_kth_inorder`: the number returned, with what `*found` holds before and after. -/
def findKthInorder (mem : Mem ν) (k : ℕ) (backward : Bool) :
    ℕ → Option ν → ℕ → Option ν → Except Fault (ℕ × Option ν)
  | _, none, n, found => .ok (n, found)
  | 0, some _, _, _ => .error .rounds
  | rounds + 1, some node, n, found => do
    let child := if backward then (mem node).right else (mem node).left
    let (n, found) ← findKthInorder mem k backward rounds child n found
    if n = k then
      pure (n, found)
    else if n + 1 = k then
      pure (n + 1, some node)
    else
      let child := if backward then (mem node).left else (mem node).right
      findKthInorder mem k backward rounds child (n + 1) found

/-- `Avl_get_kth_min`. -/
def getKthMin (rounds : ℕ) (tree : AvlTree ν) (k : ℕ) : Except Fault (Option ν) :=
  if k = 0 then .error .assertion
  else if k > tree.count then .ok none
  else do
    let half := tree.count / 2
    let (_, found) ← findKthInorder tree.mem (if k > half then tree.count - (k - 1) else k)
      (if k > half then true else false) rounds tree.root 0 none
    pure found

/-- `Avl_get_kth_max`. -/
def getKthMax (rounds : ℕ) (tree : AvlTree ν) (k : ℕ) : Except Fault (Option ν) :=
  if k = 0 then .error .assertion
  else if k > tree.count then .ok none
  else getKthMin rounds tree (tree.count - (k - 1))

/-- The nodes in the order in which the search comes to them. -/
def sequence (backward : Bool) (t : BinaryTree ν) : List ν :=
  if backward then (inorder t).reverse else inorder t

/-- The numbering comes to a node: nothing changes any more once it has come to `k`. -/
def visit (k : ℕ) (s : ℕ × Option ν) (node : ν) : ℕ × Option ν :=
  if s.1 = k then s
  else if s.1 + 1 = k then (s.1 + 1, some node)
  else (s.1 + 1, s.2)

theorem foldl_visit_stopped (k : ℕ) (found : Option ν) (l : List ν) :
    l.foldl (visit k) (k, found) = (k, found) := by
  induction l with
  | nil => rfl
  | cons a l ih =>
    rw [List.foldl_cons, visit, if_pos rfl]
    exact ih

/-- Numbering from `n` on, the node numbered `k` is `k - n - 1` places further. -/
theorem foldl_visit {k n : ℕ} (hn : n < k) (l : List ν) : (l.foldl (visit k) (n, none)).2 = l[k - n - 1]? := by
  induction l generalizing n with
  | nil => rfl
  | cons a l ih =>
    have hne : n ≠ k := hn.ne
    rw [List.foldl_cons, visit, if_neg hne]
    by_cases hk : n + 1 = k
    · rw [if_pos hk, hk, foldl_visit_stopped]
      have h0 : k - n - 1 = 0 := by omega
      rw [h0, List.getElem?_cons_zero]
    · have hsucc : k - n - 1 = k - (n + 1) - 1 + 1 := by omega
      rw [if_neg hk, ih (by omega), hsucc, List.getElem?_cons_succ]

section Descent

open BinaryTree

/-- **The recursion is the loop over the sequence**, whatever the numbering starts from. -/
theorem findKthInorder_spec {k : ℕ} {backward : Bool} {p : Option ν} (hl : Linked mem.ch p t)
    (hr : t.height ≤ rounds) (n : ℕ) (found : Option ν) :
    findKthInorder mem k backward rounds p n found = .ok ((sequence backward t).foldl (visit k) (n, found)) := by
  induction t generalizing p rounds n found with
  | nil =>
    obtain rfl : p = none := hl
    cases rounds <;> cases backward <;> rfl
  | node a l r ihl ihr =>
    obtain ⟨rfl, hll, hlr⟩ := hl
    simp only [height] at hr
    obtain ⟨m, rfl⟩ : ∃ m, rounds = m + 1 := ⟨rounds - 1, by omega⟩
    -- the children in the order of the search
    obtain ⟨u, v, hseq, hfirst, hsecond⟩ : ∃ u v,
        sequence backward (.node a l r) = sequence backward u ++ a :: sequence backward v ∧
        (∀ n found, findKthInorder mem k backward m (if backward then (mem a).right else (mem a).left) n found =
          .ok ((sequence backward u).foldl (visit k) (n, found))) ∧
        ∀ n found, findKthInorder mem k backward m (if backward then (mem a).left else (mem a).right) n found =
          .ok ((sequence backward v).foldl (visit k) (n, found)) := by
      have hleft : ∀ n found, findKthInorder mem k backward m (mem a).left n found = _ := ihl hll (by omega)
      have hright : ∀ n found, findKthInorder mem k backward m (mem a).right n found = _ := ihr hlr (by omega)
      cases backward with
      | false => exact ⟨l, r, rfl, hleft, hright⟩
      | true => exact ⟨r, l, by simp [sequence], hright, hleft⟩
    rw [findKthInorder, hfirst, hseq, List.foldl_append, List.foldl_cons]
    simp only [bind, Except.bind]
    generalize (sequence backward u).foldl (visit k) (n, found) = s
    obtain ⟨n, found⟩ := s
    simp only [visit]
    by_cases hn : n = k
    · rw [if_pos hn, if_pos hn, hn, foldl_visit_stopped]; rfl
    rw [if_neg hn, if_neg hn]
    by_cases hk : n + 1 = k
    · rw [if_pos hk, if_pos hk, hk, foldl_visit_stopped]; rfl
    · rw [if_neg hk, if_neg hk, hsecond]

end Descent

theorem sequence_true (t : BinaryTree ν) : sequence true t = (inorder t).reverse := rfl

theorem sequence_false (t : BinaryTree ν) : sequence false t = inorder t := rfl

/-- The node at an index from one end is at the mirrored index from the other. -/
theorem getElem?_mirror {l : List ν} {k : ℕ} (h₀ : 0 < k) (hk : k ≤ l.length) :
    l.reverse[l.length - (k - 1) - 1]? = l[k - 1]? := by
  rw [List.getElem?_reverse (by omega)]
  congr 1
  omega

theorem getKthMin_spec {k : ℕ} (hl : Linked tree.mem.ch tree.root t) (hc : tree.count = t.numNodes)
    (hr : t.height ≤ rounds) (hk : 0 < k) : getKthMin rounds tree k = .ok (inorder t)[k - 1]? := by
  have hlen : (inorder t).length = tree.count := by rw [length_inorder, hc]
  unfold getKthMin
  rw [if_neg hk.ne']
  by_cases hlarge : k > tree.count
  · rw [if_pos hlarge, List.getElem?_eq_none (by omega)]
  rw [if_neg hlarge]
  simp only [findKthInorder_spec hl hr, bind, Except.bind, pure, Except.pure]
  by_cases hhalf : k > tree.count / 2
  · -- the search starts from the far end, for the node that is `k`-th from the near one
    rw [if_pos hhalf, if_pos hhalf, foldl_visit (by omega), sequence_true, ← hlen, Nat.sub_zero,
      getElem?_mirror hk (by omega)]
  · rw [if_neg hhalf, if_neg hhalf, foldl_visit hk, sequence_false, Nat.sub_zero]

theorem getKthMax_spec {k : ℕ} (hl : Linked tree.mem.ch tree.root t) (hc : tree.count = t.numNodes)
    (hr : t.height ≤ rounds) (hk : 0 < k) : getKthMax rounds tree k = .ok (inorder t).reverse[k - 1]? := by
  have hlen : (inorder t).length = tree.count := by rw [length_inorder, hc]
  have hlen' : (inorder t).reverse.length = tree.count := by rw [List.length_reverse, hlen]
  unfold getKthMax
  rw [if_neg hk.ne']
  by_cases hlarge : k > tree.count
  · rw [if_pos hlarge, List.getElem?_eq_none (by omega)]
  rw [if_neg hlarge, getKthMin_spec hl hc hr (by omega)]
  have hmirror := getElem?_mirror (l := (inorder t).reverse) hk (by omega)
  rw [List.reverse_reverse, hlen'] at hmirror
  rw [hmirror]

/-- **Order statistics.** In a tree of any shape whose count is right, the two getters return the `k`-th node of the
sequence and the `k`-th from its end, and nothing if there are fewer than `k`. -/
theorem getKth_spec {k : ℕ} (hl : Linked tree.mem.ch tree.root t) (hc : tree.count = t.numNodes)
    (hr : t.height ≤ rounds) (hk : 1 ≤ k) :
    (k ≤ tree.count → ∃ a b, (inorder t)[k - 1]? = some a ∧ getKthMin rounds tree k = .ok (some a) ∧
      (inorder t).reverse[k - 1]? = some b ∧ getKthMax rounds tree k = .ok (some b)) ∧
    (tree.count < k → getKthMin rounds tree k = .ok none ∧ getKthMax rounds tree k = .ok none) := by
  have hlen : (inorder t).length = tree.count := by rw [length_inorder, hc]
  rw [getKthMin_spec hl hc hr hk, getKthMax_spec hl hc hr hk]
  constructor
  · intro hle
    have hlt : k - 1 < (inorder t).length := by omega
    have hlt' : k - 1 < (inorder t).reverse.length := by rw [List.length_reverse]; exact hlt
    refine ⟨_, _, List.getElem?_eq_getElem hlt, ?_, List.getElem?_eq_getElem hlt', ?_⟩
    · rw [List.getElem?_eq_getElem hlt]
    · rw [List.getElem?_eq_getElem hlt']
  · intro hgt
    rw [List.getElem?_eq_none (by omega), List.getElem?_eq_none (by rw [List.length_reverse]; omega)]
    exact ⟨rfl, rfl⟩

/-- A chain: 2 above 0 above 1, on the left and then on the right. -/
def zigzag : AvlTree ℕ where
  mem n := match n with
    | 2 => { left := some 0, right := none, bf := 0 }
    | 0 => { left := none, right := some 1, bf := 0 }
    | _ => { left := none, right := none, bf := 0 }
  root := some 2
  cached := none
  count := 3
  dtor := false

theorem getKth_zigzag : (2 ≤ zigzag.count → ∃ a b, [0, 1, 2][2 - 1]? = some a ∧
      getKthMin 3 zigzag 2 = .ok (some a) ∧ [2, 1, 0][2 - 1]? = some b ∧ getKthMax 3 zigzag 2 = .ok (some b)) ∧
    (zigzag.count < 2 → getKthMin 3 zigzag 2 = .ok none ∧ getKthMax 3 zigzag 2 = .ok none) :=
  getKth_spec (t := .node 2 (.node 0 .nil (.node 1 .nil .nil)) .nil)
    ⟨rfl, ⟨rfl, rfl, rfl, rfl, rfl⟩, rfl⟩ (by decide) (by decide) (by decide)

/-! ## The ends, and the ranks in between -/

/-- The loop of `Avl_get_min`, and of `Avl_get_max` the other way. -/
def endLoop (backward : Bool) (mem : Mem ν) : ℕ → Option ν → Except Fault (Option ν)
  | _, none => .ok none
  | 0, some _ => .error .rounds
  | rounds + 1, some node =>
    match if backward then (mem node).right else (mem node).left with
    | none => .ok (some node)
    | some child => endLoop backward mem rounds (some child)

/-- The body of both getters. -/
def getEnd (backward : Bool) (rounds : ℕ) (tree : AvlTree ν) : Except Fault (Option ν) :=
  if tree.count = 0 then .ok none else endLoop backward tree.mem rounds tree.root

/-- `Avl_get_min`. -/
def getMin (rounds : ℕ) (tree : AvlTree ν) : Except Fault (Option ν) := getEnd false rounds tree

/-- `Avl_get_max`. -/
def getMax (rounds : ℕ) (tree : AvlTree ν) : Except Fault (Option ν) := getEnd true rounds tree

/-- The loop ends at the first node of the sequence. -/
theorem endLoop_spec {backward : Bool} {p : Option ν} (hl : Linked mem.ch p t) (hr : t.height ≤ rounds) :
    endLoop backward mem rounds p = .ok (sequence backward t).head? := by
  induction t generalizing p rounds with
  | nil =>
    obtain rfl : p = none := hl
    cases rounds <;> cases backward <;> rfl
  | node a l r ihl ihr =>
    obtain ⟨rfl, hll, hlr⟩ := hl
    simp only [BinaryTree.height] at hr
    obtain ⟨m, rfl⟩ : ∃ m, rounds = m + 1 := ⟨rounds - 1, by omega⟩
    -- the child that is read, and the tree below it
    obtain ⟨u, v, hseq, hlu, hfirst⟩ : ∃ u v,
        sequence backward (.node a l r) = sequence backward u ++ a :: sequence backward v ∧
        Linked mem.ch (if backward then (mem a).right else (mem a).left) u ∧
        endLoop backward mem m (if backward then (mem a).right else (mem a).left) =
          .ok (sequence backward u).head? := by
      cases backward with
      | false => exact ⟨l, r, rfl, hll, ihl hll (by omega)⟩
      | true => exact ⟨r, l, by simp [sequence], hlr, ihr hlr (by omega)⟩
    rw [endLoop, hseq]
    cases hchild : if backward then (mem a).right else (mem a).left with
    | none =>
      rw [hchild, linked_none] at hlu
      rw [hlu]
      cases backward <;> rfl
    | some b =>
      rw [hchild] at hfirst hlu
      have hne : sequence backward u ≠ [] := by
        cases u with
        | nil => exact absurd hlu (by rintro ⟨⟩)
        | node c x y => cases backward <;> simp [sequence]
      rw [List.head?_append_of_ne_nil _ hne]
      exact hfirst

theorem getEnd_spec {backward : Bool} (hl : Linked tree.mem.ch tree.root t) (hc : tree.count = t.numNodes)
    (hr : t.height ≤ rounds) : getEnd backward rounds tree = .ok (sequence backward t).head? := by
  unfold getEnd
  by_cases h0 : tree.count = 0
  · rw [if_pos h0]
    rw [hc] at h0
    cases t with
    | nil => cases backward <;> rfl
    | node a l r => cases h0
  · rw [if_neg h0, endLoop_spec hl hr]

section Ranks

variable [DecidableEq ν] {cmp : ν → ν → Ordering}

/-- What the getters answer when the nodes stored are those of a set. -/
structure Ranks (cmp : ν → ν → Ordering) (rounds : ℕ) (tree : AvlTree ν) (S : Finset ν) : Prop where
  kthMin : ∀ k, 1 ≤ k → ∃ r, getKthMin rounds tree k = .ok r ∧
    ∀ a, r = some a ↔ a ∈ S ∧ (S.filter fun b => cmp b a = .lt).card + 1 = k
  kthMax : ∀ k, 1 ≤ k → ∃ r, getKthMax rounds tree k = .ok r ∧
    ∀ a, r = some a ↔ a ∈ S ∧ (S.filter fun b => cmp a b = .lt).card + 1 = k
  min : getMin rounds tree = getKthMin rounds tree 1
  max : getMax rounds tree = getKthMax rounds tree 1

theorem card_filter_toFinset {l : List ν} (hn : l.Nodup) (p : ν → Prop) [DecidablePred p] :
    (l.toFinset.filter p).card = l.countP p := by
  have hfilter : l.toFinset.filter p = (l.filter p).toFinset := by ext a; simp
  rw [hfilter, List.toFinset_card_of_nodup (hn.filter _), List.countP_eq_length_filter]

/-- The value `k`-th in a sorted sequence, among those of the set. -/
theorem rank_iff [Std.TransCmp cmp] {l : List ν} (hs : Sorted cmp l) {k : ℕ} (hk : 1 ≤ k) (a : ν) :
    l[k - 1]? = some a ↔ a ∈ l.toFinset ∧ (l.toFinset.filter fun b => cmp b a = .lt).card + 1 = k := by
  rw [hs.getElem?_iff, List.mem_toFinset, card_filter_toFinset hs.nodup]
  exact and_congr_right fun _ => by omega

variable [Std.TransCmp cmp]

theorem Valid.ranks (hv : Valid cmp tree t) (hr : t.height ≤ rounds) : Ranks cmp rounds tree (inorder t).toFinset where
  kthMin k hk := ⟨_, getKthMin_spec hv.linked hv.count hr hk, rank_iff hv.sorted hk⟩
  kthMax k hk := by
    refine ⟨_, getKthMax_spec hv.linked hv.count hr hk, fun a => ?_⟩
    rw [rank_iff hv.sorted.reverse hk, List.toFinset_reverse]
  min := by
    rw [getMin, getEnd_spec hv.linked hv.count hr, getKthMin_spec hv.linked hv.count hr Nat.one_pos, sequence_false,
      List.head?_eq_getElem?]
  max := by
    rw [getMax, getEnd_spec hv.linked hv.count hr, getKthMax_spec hv.linked hv.count hr Nat.one_pos, sequence_true,
      List.head?_eq_getElem?]

/-- **Order statistics of the set stored.** After every call of a run the `k`-th smallest node is the one of the set
with `k - 1` smaller ones, and the `k`-th greatest that with `k - 1` greater ones, if there is one. The two ends are
the first of each. All this takes no more rounds than a Fibonacci tree of as many nodes has levels. -/
theorem ranks_after (mem : Mem ν) (dtor : Bool) (cs : List (Call ν))
    (hm : Meets (exec cmp rounds) (fun c tree => Harmless cmp c tree ∧ tree.count + 1 < Nat.fib (rounds + 3)) cs
      (avlInitializer mem dtor)) :
    After (exec cmp rounds) (fun tree => ∃ S, Stores tree S ∧
      ∀ rounds, tree.count + 1 < Nat.fib (rounds + 3) → Ranks cmp rounds tree S) cs (avlInitializer mem dtor) := by
  refine after_of_step (fun _ tree => ∃ t, Valid cmp tree t) ?_ ?_ ⟨.nil, valid_initializer mem dtor⟩ hm
  · rintro n c tree - ⟨t, hv⟩ ⟨hc, hfew⟩
    have hlow : t.height ≤ rounds := hv.balanced.height_le (hv.count ▸ hfew)
    obtain ⟨tree', r, t', he, hv', -, -⟩ := exec_spec hv hlow hc
    exact ⟨tree', r, he, t', hv'⟩
  · rintro n tree ⟨t, hv⟩
    exact ⟨_, hv.stores, fun rounds hfew => hv.ranks (hv.balanced.height_le (hv.count ▸ hfew))⟩

theorem ranks_after_three : After (exec (compare : ℕ → ℕ → Ordering) 2) (fun tree => ∃ S, Stores tree S ∧
      ∀ rounds, tree.count + 1 < Nat.fib (rounds + 3) → Ranks compare rounds tree S)
    [.insertNode 1, .insertNode 2, .insertNode 3] (avlInitializer (fun _ => initialized) false) := by
  refine ranks_after _ _ _ (.cons ⟨.inr (.inr rfl), by decide⟩ rfl ?_)
  refine .cons ⟨.inr (.inr rfl), by decide⟩ rfl ?_
  exact .last ⟨.inr (.inr rfl), by decide⟩

end Ranks

end Libtarp.Avl
