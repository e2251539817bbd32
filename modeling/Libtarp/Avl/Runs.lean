import Libtarp.Avl.Check
import Libtarp.Avl.Delete

/-!
# Runs of calls on an AVL tree

* `exec_spec`: what one call does to a valid tree, as a change of its set of nodes.
* `wellFormed_after`: after every call of a run the tree is a balanced search tree.
* `refines_keyedSet`: every call of a run does what it does on a set keyed by the
  comparator, `KeyedSet.Step`.
* `logarithmic_rounds`: no call needs more rounds than a Fibonacci tree of as many nodes
  has levels, and `isavl` accepts what it leaves.

Two kinds of calls are excluded where they break this. An insertion writes the links of
the node it is given before it looks for a duplicate, so the node must not be linked in
the tree already (or be a leaf, whose links are those written). A deletion takes the last
node on the path traced for its key, found or not, so the key must be stored.
-/

namespace Libtarp.Avl

open Lib BinaryTree

variable {ν : Type}

/-- What holds between calls: a binary search tree, with at every node the balance factor
that its subtrees have, and as many nodes as it counts. -/
def WellFormed (cmp : ν → ν → Ordering) (tree : AvlTree ν) : Prop :=
  ∃ t, Linked tree.mem.ch tree.root t ∧ Sorted cmp (inorder t) ∧ HeightBalanced tree.mem.bf t ∧
    tree.count = {a | Reachable tree.mem.ch tree.root a}.ncard

/-- An insertion does no harm: the cache answers it, or the links it writes are not those of
a node of the tree, or are so already. A container is freed only where a destructor was given. -/
def Harmless (cmp : ν → ν → Ordering) : Call ν → AvlTree ν → Prop
  | .insertNode n, tree | .findOrInsertNode n, tree =>
    cacheHit cmp tree n = true ∨ ¬Reachable tree.mem.ch tree.root n ∨ tree.mem n = initialized
  | .deleteNode _ freeContainer, tree => freeContainer = true → tree.dtor = true
  | .findNode _, _ | .hasNode _, _ => True

/-- A deletion names a stored key, or the tree is empty. -/
def DeletesStored (cmp : ν → ν → Ordering) : Call ν → AvlTree ν → Prop
  | .deleteNode k _, tree => tree.count = 0 ∨ ∃ a, Reachable tree.mem.ch tree.root a ∧ cmp k a = .eq
  | _, _ => True

section KeyedSet

variable [DecidableEq ν] (cmp : ν → ν → Ordering)

/-- A call on a finite set of nodes that has at most one node of each key. -/
def KeyedSet.Step (c : Call ν) (S : Finset ν) (r : Answer ν) (S' : Finset ν) : Prop :=
  match c with
  | .insertNode n =>
    (∃ a ∈ S, cmp n a = .eq) ∧ r = .flag false ∧ S' = S ∨
      (∀ a ∈ S, cmp n a ≠ .eq) ∧ r = .flag true ∧ S' = insert n S
  | .findOrInsertNode n =>
    (∃ a ∈ S, cmp n a = .eq ∧ r = .node (some a)) ∧ S' = S ∨
      (∀ a ∈ S, cmp n a ≠ .eq) ∧ r = .node none ∧ S' = insert n S
  | .findNode k =>
    S' = S ∧ ((∃ a ∈ S, cmp k a = .eq ∧ r = .node (some a)) ∨
      (∀ a ∈ S, cmp k a ≠ .eq) ∧ r = .node none)
  | .hasNode k =>
    S' = S ∧ ((∃ a ∈ S, cmp k a = .eq) ∧ r = .flag true ∨
      (∀ a ∈ S, cmp k a ≠ .eq) ∧ r = .flag false)
  | .deleteNode k _ =>
    (∃ a ∈ S, cmp k a = .eq ∧ S' = S.erase a) ∧ r = .flag true ∨
      (∀ a ∈ S, cmp k a ≠ .eq) ∧ r = .flag false ∧ S' = S

/-- No two nodes of the set have the same key. -/
def KeyedSet.Keyed (S : Finset ν) : Prop := ∀ a ∈ S, ∀ b ∈ S, cmp a b = .eq → a = b

/-- The nodes of the tree are those of the set. -/
def Stores (tree : AvlTree ν) (S : Finset ν) : Prop :=
  (∀ a, a ∈ S ↔ Reachable tree.mem.ch tree.root a) ∧ tree.count = S.card

/-- A call on the tree does what it does on the set, and a deletion that reports `false`
does nothing at all. -/
def Refines (c : Call ν) (tree : AvlTree ν) (r : Answer ν) (tree' : AvlTree ν) : Prop :=
  (∃ S S', Stores tree S ∧ Stores tree' S' ∧ KeyedSet.Keyed cmp S' ∧ KeyedSet.Step cmp c S r S') ∧
    ∀ k freeContainer, c = .deleteNode k freeContainer → r = .flag false → tree' = tree

end KeyedSet

variable {cmp : ν → ν → Ordering} {tree : AvlTree ν} {t : BinaryTree ν} {rounds : ℕ}

theorem Valid.reachable_iff (hv : Valid cmp tree t) {a : ν} :
    Reachable tree.mem.ch tree.root a ↔ a ∈ inorder t := hv.linked.reachable_iff

variable [Std.TransCmp cmp]

theorem Valid.wellFormed (hv : Valid cmp tree t) : WellFormed cmp tree :=
  ⟨t, hv.linked, hv.sorted, hv.balanced, by rw [hv.linked.ncard_reachable hv.sorted.nodup, hv.count]⟩

variable [DecidableEq ν]

theorem Valid.stores (hv : Valid cmp tree t) : Stores tree (inorder t).toFinset := by
  refine ⟨fun a => by rw [List.mem_toFinset, hv.reachable_iff], ?_⟩
  rw [List.toFinset_card_of_nodup hv.sorted.nodup, length_inorder, hv.count]

theorem Valid.keyed (hv : Valid cmp tree t) : KeyedSet.Keyed cmp (inorder t).toFinset := by
  intro a ha b hb hab
  rw [List.mem_toFinset] at ha hb
  exact eq_unique hv.sorted ha hb Std.ReflCmp.compare_self hab

/-- What a call does to the nodes of a valid tree. A deletion that finds no node with its
key takes out another one. -/
def Effect (cmp : ν → ν → Ordering) (c : Call ν) (t : BinaryTree ν) (r : Answer ν) (t' : BinaryTree ν) :
    Prop :=
  match c with
  | .insertNode n =>
    (∃ a ∈ inorder t, cmp n a = .eq) ∧ r = .flag false ∧ t' = t ∨
      (∀ a ∈ inorder t, cmp n a ≠ .eq) ∧ r = .flag true ∧ (inorder t').Perm (n :: inorder t)
  | .findOrInsertNode n =>
    (∃ a ∈ inorder t, cmp n a = .eq ∧ r = .node (some a)) ∧ t' = t ∨
      (∀ a ∈ inorder t, cmp n a ≠ .eq) ∧ r = .node none ∧ (inorder t').Perm (n :: inorder t)
  | .findNode k =>
    t' = t ∧ ((∃ a ∈ inorder t, cmp k a = .eq ∧ r = .node (some a)) ∨
      (∀ a ∈ inorder t, cmp k a ≠ .eq) ∧ r = .node none)
  | .hasNode k =>
    t' = t ∧ ((∃ a ∈ inorder t, cmp k a = .eq) ∧ r = .flag true ∨
      (∀ a ∈ inorder t, cmp k a ≠ .eq) ∧ r = .flag false)
  | .deleteNode k _ =>
    (∃ a, victim cmp t k = some a ∧ (inorder t).Perm (a :: inorder t')) ∧ r = .flag true ∨
      t = .nil ∧ r = .flag false ∧ t' = t

omit [Std.TransCmp cmp] [DecidableEq ν] in
theorem insert_ready {n : ν} (hv : Valid cmp tree t) (hc : ¬cacheHit cmp tree n = true)
    (h : cacheHit cmp tree n = true ∨ ¬Reachable tree.mem.ch tree.root n ∨ tree.mem n = initialized) :
    n ∈ inorder t → tree.mem n = initialized := by
  rcases h with h | h | h
  · exact absurd h hc
  · rw [hv.reachable_iff] at h
    exact fun hn => absurd hn h
  · exact fun _ => h

omit [DecidableEq ν] in
/-- A cache hit names a node of the tree equal to the key. -/
theorem Valid.cacheHit (hv : Valid cmp tree t) {n : ν} (hc : cacheHit cmp tree n = true) :
    ∃ a ∈ inorder t, cmp n a = .eq ∧ tree.cached = some a := by
  unfold Avl.cacheHit at hc
  split at hc
  · rename_i a ha
    exact ⟨a, hv.cached a ha, Std.OrientedCmp.eq_symm (by simpa using hc), ha⟩
  · cases hc

theorem exec_insertNode {n : ν} (hv : Valid cmp tree t) (hr : t.height ≤ rounds)
    (h : Harmless cmp (.insertNode n) tree) :
    ∃ tree' r t', exec cmp rounds (.insertNode n) tree = .ok (tree', r) ∧ Valid cmp tree' t' ∧
      Effect cmp (.insertNode n) t r t' := by
  simp only [exec, insertNode]
  by_cases hc : cacheHit cmp tree n = true
  · obtain ⟨a, ha, hk, -⟩ := hv.cacheHit hc
    rw [if_pos hc]
    exact ⟨tree, .flag false, t, rfl, hv, .inl ⟨⟨a, ha, hk⟩, rfl, rfl⟩⟩
  rw [if_neg hc]
  rcases avlTryInsert_spec hv hr (insert_ready hv hc h) with
    ⟨a, path, ha, hk, he, hv'⟩ | ⟨hne, mem, root, t', he, hv', hperm⟩
  · rw [he]
    exact ⟨_, .flag false, t, rfl, hv', .inl ⟨⟨a, ha, hk⟩, rfl, rfl⟩⟩
  · rw [he]
    exact ⟨_, .flag true, t', rfl, hv', .inr ⟨hne, rfl, hperm⟩⟩

theorem exec_findOrInsertNode {n : ν} (hv : Valid cmp tree t) (hr : t.height ≤ rounds)
    (h : Harmless cmp (.findOrInsertNode n) tree) :
    ∃ tree' r t', exec cmp rounds (.findOrInsertNode n) tree = .ok (tree', r) ∧ Valid cmp tree' t' ∧
      Effect cmp (.findOrInsertNode n) t r t' := by
  simp only [exec, findOrInsertNode]
  by_cases hc : cacheHit cmp tree n = true
  · obtain ⟨a, ha, hk, hcached⟩ := hv.cacheHit hc
    rw [if_pos hc, hcached]
    exact ⟨tree, .node (some a), t, rfl, hv, .inl ⟨⟨a, ha, hk, rfl⟩, rfl⟩⟩
  rw [if_neg hc]
  rcases avlTryInsert_spec hv hr (insert_ready hv hc h) with
    ⟨a, path, ha, hk, he, hv'⟩ | ⟨hne, mem, root, t', he, hv', hperm⟩
  · rw [he]
    refine ⟨_, .node (some a), t, rfl, ⟨hv'.linked, hv'.sorted, hv'.balanced, hv'.count, ?_⟩,
      .inl ⟨⟨a, ha, hk, rfl⟩, rfl⟩⟩
    rintro b hb
    obtain rfl : a = b := Option.some.inj hb
    exact ha
  · rw [he]
    exact ⟨_, .node none, t', rfl, hv', .inr ⟨hne, rfl, hperm⟩⟩

theorem exec_findNode {k : ν} (hv : Valid cmp tree t) (hr : t.height ≤ rounds) :
    ∃ tree' r t', exec cmp rounds (.findNode k) tree = .ok (tree', r) ∧ Valid cmp tree' t' ∧
      Effect cmp (.findNode k) t r t' := by
  obtain ⟨p, cached, hf, hv', hp⟩ := findNode_spec hv hr k
  refine ⟨_, .node p, t, by simp only [exec, hf]; rfl, hv', rfl, ?_⟩
  cases p with
  | some a => exact .inl ⟨a, hp.1, hp.2, rfl⟩
  | none => exact .inr ⟨hp, rfl⟩

theorem exec_hasNode {k : ν} (hv : Valid cmp tree t) (hr : t.height ≤ rounds) :
    ∃ tree' r t', exec cmp rounds (.hasNode k) tree = .ok (tree', r) ∧ Valid cmp tree' t' ∧
      Effect cmp (.hasNode k) t r t' := by
  obtain ⟨p, cached, hf, hv', hp⟩ := findNode_spec hv hr k
  refine ⟨_, .flag p.isSome, t, by simp only [exec, hasNode, hf]; rfl, hv', rfl, ?_⟩
  cases p with
  | some a => exact .inl ⟨⟨a, hp.1, hp.2⟩, rfl⟩
  | none => exact .inr ⟨hp, rfl⟩

/-- **One call.** Of a deletion that reports `false` more is true: it changes nothing. -/
theorem exec_spec {c : Call ν} (hv : Valid cmp tree t) (hr : t.height ≤ rounds)
    (h : Harmless cmp c tree) : ∃ tree' r t', exec cmp rounds c tree = .ok (tree', r) ∧
      Valid cmp tree' t' ∧ Effect cmp c t r t' ∧
      ∀ k freeContainer, c = .deleteNode k freeContainer → r = .flag false → tree' = tree := by
  cases c with
  | insertNode n =>
    obtain ⟨tree', r, t', he, hv', heff⟩ := exec_insertNode hv hr h
    exact ⟨tree', r, t', he, hv', heff, by simp⟩
  | findOrInsertNode n =>
    obtain ⟨tree', r, t', he, hv', heff⟩ := exec_findOrInsertNode hv hr h
    exact ⟨tree', r, t', he, hv', heff, by simp⟩
  | findNode k =>
    obtain ⟨tree', r, t', he, hv', heff⟩ := exec_findNode (k := k) hv hr
    exact ⟨tree', r, t', he, hv', heff, by simp⟩
  | hasNode k =>
    obtain ⟨tree', r, t', he, hv', heff⟩ := exec_hasNode (k := k) hv hr
    exact ⟨tree', r, t', he, hv', heff, by simp⟩
  | deleteNode k freeContainer =>
    rcases deleteNode_spec (k := k) hv hr h with ⟨ht, hd⟩ | ⟨a, mem, root, t', hvic, hd, hv', hperm⟩
    · exact ⟨tree, .flag false, t, by simp only [exec, hd]; rfl, hv, .inr ⟨ht, rfl, rfl⟩, fun _ _ _ _ => rfl⟩
    · refine ⟨_, .flag true, t', by simp only [exec, hd]; rfl, hv', .inl ⟨⟨a, hvic, hperm⟩, rfl⟩, ?_⟩
      simp

omit [Std.TransCmp cmp] [DecidableEq ν] in
/-- A call adds one node at most. -/
theorem Effect.numNodes_le {c : Call ν} {r : Answer ν} {t' : BinaryTree ν} (h : Effect cmp c t r t') :
    t'.numNodes ≤ t.numNodes + 1 := by
  have key : ∀ n, (inorder t').Perm (n :: inorder t) → t'.numNodes ≤ t.numNodes + 1 := fun n hp => by
    have := hp.length_eq
    rw [List.length_cons, length_inorder, length_inorder] at this; omega
  cases c with
  | insertNode n =>
    rcases h with ⟨-, -, rfl⟩ | ⟨-, -, hp⟩
    · omega
    · exact key n hp
  | findOrInsertNode n =>
    rcases h with ⟨-, rfl⟩ | ⟨-, -, hp⟩
    · omega
    · exact key n hp
  | findNode k => rw [h.1]; omega
  | hasNode k => rw [h.1]; omega
  | deleteNode k f =>
    rcases h with ⟨⟨a, -, hp⟩, -⟩ | ⟨-, -, rfl⟩
    · have := hp.length_eq
      rw [List.length_cons, length_inorder, length_inorder] at this; omega
    · omega

/-- The state between the calls of a run: `n` of them were made. -/
def Reached (cmp : ν → ν → Ordering) (n : ℕ) (tree : AvlTree ν) : Prop :=
  ∃ t, Valid cmp tree t ∧ t.numNodes ≤ n

theorem Reached.step {n : ℕ} {c : Call ν} (h : Reached cmp n tree) (hn : n ≤ rounds)
    (hc : Harmless cmp c tree) : ∃ tree' r t t', exec cmp rounds c tree = .ok (tree', r) ∧
      Reached cmp (n + 1) tree' ∧ Valid cmp tree t ∧ Valid cmp tree' t' ∧ Effect cmp c t r t' ∧
      ∀ k freeContainer, c = .deleteNode k freeContainer → r = .flag false → tree' = tree := by
  obtain ⟨t, hv, ht⟩ := h
  obtain ⟨tree', r, t', he, hv', heff, hdel⟩ :=
    exec_spec hv (le_trans (t.height_le_numNodes.trans ht) hn) hc
  exact ⟨tree', r, t, t', he, ⟨t', hv', heff.numNodes_le.trans (by omega)⟩, hv, hv', heff, hdel⟩

omit [Std.TransCmp cmp] [DecidableEq ν] in
theorem reached_initializer (mem : Mem ν) (dtor : Bool) : Reached cmp 0 (avlInitializer mem dtor) :=
  ⟨.nil, valid_initializer mem dtor, le_rfl⟩

/-- **After every call of a run whose insertions do no harm, the tree is a balanced search
tree with correct factors and a correct count.** Deletions may name any key. -/
theorem wellFormed_after (mem : Mem ν) (dtor : Bool) (cs : List (Call ν)) (hr : cs.length ≤ rounds)
    (hm : Meets (exec cmp rounds) (Harmless cmp) cs (avlInitializer mem dtor)) :
    After (exec cmp rounds) (WellFormed cmp) cs (avlInitializer mem dtor) := by
  refine after_of_step (Reached cmp) ?_ ?_ (reached_initializer mem dtor) hm
  · intro n c tree hn hi hc
    obtain ⟨tree', r, -, -, he, hi', -⟩ := hi.step (hn.le.trans hr) hc
    exact ⟨tree', r, he, hi'⟩
  · rintro n tree ⟨t, hv, -⟩
    exact hv.wellFormed

theorem wellFormed_after_four : After (exec (compare : ℕ → ℕ → Ordering) 4) (WellFormed compare)
    [.insertNode 1, .insertNode 2, .insertNode 3, .deleteNode 2 false]
    (avlInitializer (fun _ => initialized) false) := by
  refine wellFormed_after _ _ _ (by decide) (.cons (.inr (.inr rfl)) rfl ?_)
  refine .cons (.inr (.inr rfl)) rfl ?_
  refine .cons (.inr (.inr rfl)) rfl ?_
  exact .last (by rintro ⟨⟩)

/-- Inserting the root a second time cuts off its child: two nodes are counted, one is left. -/
theorem reinserted_root : ∃ s rs, runCalls (exec (compare : ℕ → ℕ → Ordering) 3)
      [.insertNode 1, .insertNode 2, .insertNode 1] (avlInitializer (fun _ => initialized) false) =
        .ok (s, rs) ∧ ¬WellFormed compare s := by
  refine ⟨_, _, rfl, ?_⟩
  rintro ⟨t, hl, -, -, hc⟩
  have ht : t = .node 1 .nil .nil := hl.unique ⟨rfl, rfl, rfl⟩
  rw [ht] at hl
  rw [hl.ncard_reachable (by simp)] at hc
  exact absurd hc (by decide)

omit [DecidableEq ν] in
/-- A deletion of a stored key takes out the node that has it. -/
theorem victim_eq {k a b : ν} (hs : Sorted cmp (inorder t)) (ha : a ∈ inorder t) (hk : cmp k a = .eq)
    (hb : victim cmp t k = some b) : b = a := by
  rcases locate_cases hs k with ⟨c, hloc, rfl, hbef, haft⟩ | ⟨c, d, l, r, hloc, rfl, hd⟩
  · exact absurd hk (not_eq_of_locate_nil hbef haft a ha)
  · rw [victim, hloc] at hb
    obtain rfl : d = b := Option.some.inj hb
    exact eq_unique hs (by rw [inorder_plug]; simp) ha hd hk

theorem Effect.keyedSet {c : Call ν} {r : Answer ν} {t' : BinaryTree ν} (h : Effect cmp c t r t')
    (hs : Sorted cmp (inorder t)) (hd : ∀ k f, c = .deleteNode k f → t = .nil ∨ ∃ a ∈ inorder t, cmp k a = .eq) :
    KeyedSet.Step cmp c (inorder t).toFinset r (inorder t').toFinset := by
  have hins : ∀ n, (inorder t').Perm (n :: inorder t) →
      (inorder t').toFinset = insert n (inorder t).toFinset := fun n hp => by
    rw [List.toFinset_eq_of_perm _ _ hp, List.toFinset_cons]
  cases c with
  | insertNode n =>
    rcases h with ⟨⟨a, ha, hk⟩, hr, rfl⟩ | ⟨hne, hr, hp⟩
    · exact .inl ⟨⟨a, by simpa using ha, hk⟩, hr, rfl⟩
    · exact .inr ⟨by simpa using hne, hr, hins n hp⟩
  | findOrInsertNode n =>
    rcases h with ⟨⟨a, ha, hk, hr⟩, rfl⟩ | ⟨hne, hr, hp⟩
    · exact .inl ⟨⟨a, by simpa using ha, hk, hr⟩, rfl⟩
    · exact .inr ⟨by simpa using hne, hr, hins n hp⟩
  | findNode k =>
    obtain ⟨rfl, ⟨a, ha, hk, hr⟩ | ⟨hne, hr⟩⟩ := h
    · exact ⟨rfl, .inl ⟨a, by simpa using ha, hk, hr⟩⟩
    · exact ⟨rfl, .inr ⟨by simpa using hne, hr⟩⟩
  | hasNode k =>
    obtain ⟨rfl, ⟨⟨a, ha, hk⟩, hr⟩ | ⟨hne, hr⟩⟩ := h
    · exact ⟨rfl, .inl ⟨⟨a, by simpa using ha, hk⟩, hr⟩⟩
    · exact ⟨rfl, .inr ⟨by simpa using hne, hr⟩⟩
  | deleteNode k f =>
    rcases h with ⟨⟨b, hvic, hp⟩, hr⟩ | ⟨rfl, hr, rfl⟩
    · rcases hd k f rfl with rfl | ⟨a, ha, hk⟩
      · exact absurd hp.length_eq (by simp)
      · obtain rfl := victim_eq hs ha hk hvic
        refine .inl ⟨⟨b, by simpa using ha, hk, ?_⟩, hr⟩
        have hnd : (b :: inorder t').Nodup := hp.nodup_iff.1 hs.nodup
        rw [List.toFinset_eq_of_perm _ _ hp, List.toFinset_cons,
          Finset.erase_insert (by simpa using (List.nodup_cons.1 hnd).1)]
    · exact .inr ⟨by simp, hr, rfl⟩

/-- **Every call of a run does what it does on the set of the nodes stored**, where
insertions do no harm and deletions name stored keys. -/
theorem refines_keyedSet (mem : Mem ν) (dtor : Bool) (cs : List (Call ν)) (hr : cs.length ≤ rounds)
    (hm : Meets (exec cmp rounds) (fun c tree => Harmless cmp c tree ∧ DeletesStored cmp c tree) cs
      (avlInitializer mem dtor)) :
    Each (exec cmp rounds) (Refines cmp) cs (avlInitializer mem dtor) := by
  refine each_of_step (Reached cmp) ?_ (reached_initializer mem dtor) hm
  intro n c tree hn hi hc
  obtain ⟨tree', r, t, t', he, hi', hv, hv', heff, hdel⟩ := hi.step (hn.le.trans hr) hc.1
  refine ⟨tree', r, he, hi', ⟨_, _, hv.stores, hv'.stores, hv'.keyed, heff.keyedSet hv.sorted ?_⟩, hdel⟩
  rintro k f rfl
  refine hc.2.imp hv.count_eq_zero.1 ?_
  rintro ⟨a, ha, hk⟩
  exact ⟨a, hv.reachable_iff.1 ha, hk⟩

theorem refines_keyedSet_four : Each (exec (compare : ℕ → ℕ → Ordering) 4) (Refines compare)
    [.insertNode 1, .insertNode 2, .findNode 2, .deleteNode 2 false]
    (avlInitializer (fun _ => initialized) false) := by
  refine refines_keyedSet _ _ _ (by decide) (.cons ⟨.inr (.inr rfl), trivial⟩ rfl ?_)
  refine .cons ⟨.inr (.inr rfl), trivial⟩ rfl ?_
  refine .cons ⟨trivial, trivial⟩ rfl ?_
  refine .last ⟨by rintro ⟨⟩, .inr ⟨2, ⟨1, rfl, ?_⟩, by decide⟩⟩
  exact .single ⟨.right, rfl⟩

/-- A deletion of a key that is not stored takes out another node and reports success. -/
theorem deleted_absent : ¬Each (exec (compare : ℕ → ℕ → Ordering) 2) (Refines compare)
    [.insertNode 1, .deleteNode 2 false] (avlInitializer (fun _ => initialized) false) := by
  intro h
  obtain ⟨s₁, rs, s₂, r, h₁, h₂, ⟨S, S', hS, -, -, hstep⟩, -⟩ := h [.insertNode 1] _ (List.prefix_refl _)
  cases h₁
  cases h₂
  rcases hstep with ⟨⟨a, ha, hk, -⟩, -⟩ | ⟨-, hr, -⟩
  · have hmem : a ∈ inorder (.node 1 .nil .nil : BinaryTree ℕ) :=
      (Linked.reachable_iff (by exact ⟨rfl, rfl, rfl⟩)).1 ((hS.1 a).1 ha)
    obtain rfl : a = 1 := by simpa using hmem
    exact absurd hk (by decide)
  · cases hr

/-- The tree has no more levels than a Fibonacci tree of as many nodes. -/
def Flat (tree : AvlTree ν) : Prop :=
  ∃ t, Linked tree.mem.ch tree.root t ∧ Nat.fib (t.height + 2) ≤ tree.count + 1

omit [Std.TransCmp cmp] [DecidableEq ν] in
theorem Valid.flat (hv : Valid cmp tree t) : Flat tree :=
  ⟨t, hv.linked, hv.count ▸ hv.balanced.fib_le⟩

/-- The check of the tree ends, and does not reject it. -/
def Passes (tree : AvlTree ν) : Prop := ∃ n, ∀ rounds, n ≤ rounds → isavl rounds tree = .ok true

omit [Std.TransCmp cmp] [DecidableEq ν] in
theorem Valid.passes (hv : Valid cmp tree t) : Passes tree := ⟨t.height, fun _ hr => isavl_of_valid hv hr⟩

/-- **Every call of a run ends within as many rounds as a Fibonacci tree of as many nodes has
levels**, on each way down, however many calls were made before, and leaves a tree that passes the check. -/
theorem logarithmic_rounds (mem : Mem ν) (dtor : Bool) (cs : List (Call ν))
    (hm : Meets (exec cmp rounds) (fun c tree => Harmless cmp c tree ∧ tree.count + 1 < Nat.fib (rounds + 3)) cs
      (avlInitializer mem dtor)) :
    After (exec cmp rounds) (fun tree => WellFormed cmp tree ∧ Flat tree ∧ Passes tree) cs
      (avlInitializer mem dtor) := by
  refine after_of_step (fun _ tree => ∃ t, Valid cmp tree t) ?_ ?_ ⟨.nil, valid_initializer mem dtor⟩ hm
  · rintro n c tree - ⟨t, hv⟩ ⟨hc, hfew⟩
    have hlow : t.height ≤ rounds := hv.balanced.height_le (hv.count ▸ hfew)
    obtain ⟨tree', r, t', he, hv', -, -⟩ := exec_spec hv hlow hc
    exact ⟨tree', r, he, t', hv'⟩
  · rintro n tree ⟨t, hv⟩
    exact ⟨hv.wellFormed, hv.flat, hv.passes⟩

theorem logarithmic_rounds_four : After (exec (compare : ℕ → ℕ → Ordering) 2)
    (fun tree => WellFormed compare tree ∧ Flat tree ∧ Passes tree)
      [.insertNode 1, .insertNode 2, .insertNode 3, .findNode 3]
    (avlInitializer (fun _ => initialized) false) := by
  refine logarithmic_rounds _ _ _ (.cons ⟨.inr (.inr rfl), by decide⟩ rfl ?_)
  refine .cons ⟨.inr (.inr rfl), by decide⟩ rfl ?_
  refine .cons ⟨.inr (.inr rfl), by decide⟩ rfl ?_
  exact .last ⟨trivial, by decide⟩

end Libtarp.Avl
