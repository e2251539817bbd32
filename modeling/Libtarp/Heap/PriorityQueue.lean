import Libtarp.Heap.ExplicitRuns
import Libtarp.Heap.ImplicitRuns
import Mathlib.Data.Finset.Card

/-!
# Both heaps as priority queues

The two heaps get the same calls, and are compared with a queue that is a set of nodes with their priorities. No two
nodes in it have the same priority, so that a pop has one node to return.

* `Proper`: what callers keep to.
* `Sound`: the condition under which both heaps do what the queue does.
* `heaps_implement_queue`: they then return the same node at every pop and hold the nodes of the queue throughout.
* `removed_of_two`: of two nodes the last is removed, and the implicit heap ends the process.
-/

namespace Libtarp.PriorityQueue

open Function Lib BinHeap Vec

variable {ν κ : Type}

/-- A priority queue. -/
structure Queue (ν κ : Type) where
  nodes : Finset ν
  prio : ν → κ

/-- A call to both heaps. -/
inductive Call (ν κ : Type)
  | push (node : ν) (prio : κ)
  | popRoot
  | removeNode (node : ν) (freeContainer : Bool)
  | priorityChanged (node : ν) (prio : κ)

def Call.implicit : Call ν κ → Implicit.Call ν κ
  | .push node prio => .pushNode node prio
  | .popRoot => .popRoot
  | .removeNode node freeContainer => .removeNode node freeContainer
  | .priorityChanged node prio => .priochange node prio

def Call.explicit : Call ν κ → Explicit.Call ν κ
  | .push node prio => .pushNode node prio
  | .popRoot => .popRoot
  | .removeNode node freeContainer => .removeNode node freeContainer
  | .priorityChanged node prio => .priochange node prio

structure Heaps (ν κ : Type) where
  implicit : Implicit.Heap ν κ
  explicit : Explicit.XHeap ν κ

/-- The answers of the two. -/
abbrev Answer (ν : Type) := Implicit.Answer ν × Option ν

variable [DecidableEq ν]

/-- Both heaps answer a call. -/
def exec (cmp : κ → κ → Ordering) (rounds : ℕ) (c : Call ν κ) (s : Heaps ν κ) :
    Except Fault (Heaps ν κ × Answer ν) := do
  let (h, r) ← Implicit.exec cmp rounds c.implicit s.implicit
  let (xh, top) ← Explicit.exec cmp rounds c.explicit s.explicit
  pure (⟨h, xh⟩, r, top)

/-- What the queue does, with the answers that both heaps should give. -/
inductive Step (type : HeapOrder) (cmp : κ → κ → Ordering) : Call ν κ → Queue ν κ → Answer ν → Queue ν κ → Prop
  | push {q : Queue ν κ} (node : ν) (prio : κ) : Step type cmp (.push node prio) q (.code none, none)
      ⟨insert node q.nodes, update q.prio node prio⟩
  | popRoot {q : Queue ν κ} {top : ν} (mem : top ∈ q.nodes) (first : ∀ x ∈ q.nodes, ¬outranks type cmp q.prio x top) :
      Step type cmp .popRoot q (.node top, some top) { q with nodes := q.nodes.erase top }
  | removeNode {q : Queue ν κ} (node : ν) (freeContainer : Bool) :
      Step type cmp (.removeNode node freeContainer) q (.done, none) { q with nodes := q.nodes.erase node }
  | priorityChanged {q : Queue ν κ} (node : ν) (prio : κ) :
      Step type cmp (.priorityChanged node prio) q (.done, none) { q with prio := update q.prio node prio }

omit [DecidableEq ν] in
/-- Both heaps hold the nodes of the queue, each once, and report their number. -/
structure Holds (s : Heaps ν κ) (q : Queue ν κ) : Prop where
  implicit : ∃ v, s.implicit.v = some v ∧ v.occupied = q.nodes.card ∧ ∀ x, x ∈ q.nodes ↔ Among v.bytes v.occupied x
  explicit : s.explicit.count = q.nodes.card ∧ ∀ x, x ∈ q.nodes ↔ Explicit.InHeap s.explicit x

/-- A node that is pushed is a new one, the others are in the heap; there is a node to pop; and no two nodes get the
same priority. A container is freed only where a destructor was given. -/
def Proper (cmp : κ → κ → Ordering) (c : Call ν κ) (s : Heaps ν κ) : Prop :=
  ∃ v, s.implicit.v = some v ∧
    match c with
    | .push node prio => ∀ i < v.occupied, v.bytes i ≠ node ∧ cmp (s.implicit.prio (v.bytes i)) prio ≠ .eq
    | .popRoot => v.occupied ≠ 0
    | .removeNode node freeContainer => (∃ i < v.occupied, v.bytes i = node) ∧
      (freeContainer = true → s.implicit.dtor = true ∧ s.explicit.dtor = true)
    | .priorityChanged node prio => (∃ i < v.occupied, v.bytes i = node) ∧
      ∀ i < v.occupied, v.bytes i ≠ node → cmp (s.implicit.prio (v.bytes i)) prio ≠ .eq

/-- The vector has room for the node, or can grow; a node that is named knows its position; and where it is taken out,
the last node fits in its place, in both heaps. -/
def Sound (cmp : κ → κ → Ordering) (c : Call ν κ) (s : Heaps ν κ) : Prop :=
  ∃ v, s.implicit.v = some v ∧
    match c with
    | .push node _ => (vectPushb v node).2 = none
    | .popRoot => True
    | .removeNode node _ => (∃ i < v.occupied, v.bytes i = node ∧ s.implicit.idx node = i ∧
        Implicit.Fits cmp s.implicit v i) ∧ Explicit.FitsBelow cmp s.explicit node
    | .priorityChanged node _ => ∃ i < v.occupied, v.bytes i = node ∧ s.implicit.idx node = i

/-- Two empty heaps. -/
def Heaps.init (type : HeapOrder) (dtor : Bool) (bytes : ℕ → ν) (idx : ν → ℕ) (mem : Explicit.Mem ν) (prio : ν → κ) :
    Heaps ν κ :=
  ⟨Implicit.heapInit type dtor bytes idx prio, Explicit.xheapInit type dtor mem prio⟩

/-! ## The invariant -/

/-- The vector `v` and the tree `f` hold the nodes of the queue, in order. -/
structure Joint (type : HeapOrder) (cmp : κ → κ → Ordering) (n : ℕ) (s : Heaps ν κ) (q : Queue ν κ) (v : Vect ν)
    (f : ℕ → ν) : Prop where
  held : Implicit.Held cmp s.implicit v
  kept : Explicit.Kept cmp s.explicit f n
  types : s.implicit.type = type ∧ s.explicit.type = type
  prios : s.implicit.prio = q.prio ∧ s.explicit.prio = q.prio
  counts : v.occupied = q.nodes.card ∧ s.explicit.count = q.nodes.card
  nodes : ∀ x, (Among v.bytes v.occupied x ↔ x ∈ q.nodes) ∧ (Among f s.explicit.count x ↔ x ∈ q.nodes)
  distinct : ∀ x ∈ q.nodes, ∀ y ∈ q.nodes, cmp (q.prio x) (q.prio y) = .eq → x = y

variable {type : HeapOrder} {cmp : κ → κ → Ordering} {n rounds : ℕ} {s : Heaps ν κ} {q : Queue ν κ} {v : Vect ν}
  {f : ℕ → ν}

omit [DecidableEq ν] in
theorem Joint.holds (hj : Joint type cmp n s q v f) : Holds s q :=
  ⟨⟨v, hj.held.vec, hj.counts.1, fun x => (hj.nodes x).1.symm⟩, hj.counts.2,
    fun x => (hj.kept.shaped.inHeap_iff.trans (hj.nodes x).2).symm⟩

omit [DecidableEq ν] in
theorem joint_init (type : HeapOrder) (dtor : Bool) (bytes : ℕ → ν) (idx : ν → ℕ) (mem : Explicit.Mem ν) (prio : ν → κ) :
    ∃ v, Joint type cmp 0 (Heaps.init type dtor bytes idx mem prio) ⟨∅, prio⟩ v bytes := by
  obtain ⟨v, hk⟩ : ∃ v, Implicit.Kept cmp (Implicit.heapInit type dtor bytes idx prio) v 0 :=
    Implicit.kept_heapInit type dtor bytes idx prio
  have h0 : v.occupied = 0 := Nat.le_zero.1 hk.count
  refine ⟨v, hk.held, Explicit.kept_xheapInit bytes type dtor mem prio, ⟨rfl, rfl⟩, ⟨rfl, rfl⟩, ⟨h0, rfl⟩, ?_, ?_⟩
  · intro x
    have hno : ∀ g : ℕ → ν, ¬Among g 0 x := by
      rintro g ⟨i, hi, -⟩
      exact absurd hi (Nat.not_lt_zero i)
    rw [h0]
    exact ⟨iff_of_false (hno _) (Finset.notMem_empty x), iff_of_false (hno _) (Finset.notMem_empty x)⟩
  · intro x hx
    exact absurd hx (Finset.notMem_empty x)

variable [Std.TransCmp cmp]

omit [DecidableEq ν] in
/-- **Both heaps have the same node on top**, and none outranks it. -/
theorem Joint.top (hj : Joint type cmp n s q v f) (h0 : v.occupied ≠ 0) :
    f 0 = v.bytes 0 ∧ v.bytes 0 ∈ q.nodes ∧ ∀ x ∈ q.nodes, ¬outranks type cmp q.prio x (v.bytes 0) := by
  obtain ⟨ht, htx⟩ := hj.types
  obtain ⟨hp, hpx⟩ := hj.prios
  obtain ⟨hc, hcx⟩ := hj.counts
  have R := ranking_outranks cmp type q.prio
  have hordered := hj.held.ordered
  have hxordered := hj.kept.ordered
  rw [ht, hp] at hordered
  rw [htx, hpx] at hxordered
  have hmem : v.bytes 0 ∈ q.nodes := (hj.nodes _).1.1 ⟨0, by omega, rfl⟩
  have hxmem : f 0 ∈ q.nodes := (hj.nodes _).2.1 ⟨0, by omega, rfl⟩
  have hfirst : ∀ x ∈ q.nodes, ¬outranks type cmp q.prio x (v.bytes 0) := by
    intro x hx
    obtain ⟨i, hi, rfl⟩ := (hj.nodes x).1.2 hx
    exact hordered.root R hi
  have hxfirst : ¬outranks type cmp q.prio (v.bytes 0) (f 0) := by
    obtain ⟨i, hi, he⟩ := (hj.nodes _).2.2 hmem
    rw [← he]
    exact hxordered.root R hi
  exact ⟨hj.distinct _ hxmem _ hmem (eq_of_not_outranks (hfirst _ hxmem) hxfirst), hmem, hfirst⟩

omit [Std.TransCmp cmp] in
/-- One node with a new priority, which no other node has. -/
theorem distinct_update {nodes : Finset ν} {prio : ν → κ} {node : ν} {k : κ} [Std.OrientedCmp cmp]
    (hd : ∀ x ∈ nodes, ∀ y ∈ nodes, cmp (prio x) (prio y) = .eq → x = y)
    (hk : ∀ x ∈ nodes, x ≠ node → cmp (prio x) k ≠ .eq) :
    ∀ x ∈ insert node nodes, ∀ y ∈ insert node nodes,
      cmp (update prio node k x) (update prio node k y) = .eq → x = y := by
  intro x hx y hy he
  by_cases hxn : x = node <;> by_cases hyn : y = node
  · rw [hxn, hyn]
  · rw [hxn, update_self, update_of_ne hyn] at he
    exact absurd (Std.OrientedCmp.eq_symm he) (hk y (Finset.mem_of_mem_insert_of_ne hy hyn) hyn)
  · rw [hyn, update_self, update_of_ne hxn] at he
    exact absurd he (hk x (Finset.mem_of_mem_insert_of_ne hx hxn) hxn)
  · rw [update_of_ne hxn, update_of_ne hyn] at he
    exact hd x (Finset.mem_of_mem_insert_of_ne hx hxn) y (Finset.mem_of_mem_insert_of_ne hy hyn) he

theorem push_joint {node : ν} {prio : κ} (hj : Joint type cmp n s q v f) (hr : n < rounds)
    (hp : Proper cmp (.push node prio) s) (hs : Sound cmp (.push node prio) s) :
    ∃ s' v' f', exec cmp rounds (.push node prio) s = .ok (s', .code none, none) ∧
      Joint type cmp (n + 1) s' ⟨insert node q.nodes, update q.prio node prio⟩ v' f' := by
  have hle := hj.kept.count
  obtain ⟨hc, hcx⟩ := hj.counts
  obtain ⟨w, hw, hroom⟩ := hs
  obtain rfl := Option.some.inj (hj.held.vec.symm.trans hw)
  obtain ⟨w, hw, hnew⟩ := hp
  obtain rfl := Option.some.inj (hj.held.vec.symm.trans hw)
  -- a node that was pushed already would have the same place
  have hnew' : node ∉ q.nodes := by
    intro hm
    obtain ⟨i, hi, he⟩ := (hj.nodes node).1.2 hm
    exact (hnew i hi).1 he
  obtain ⟨h', v', he, hh, hsame, -, -, hwith⟩ := Implicit.pushNode_held prio hj.held (show v.occupied < rounds by omega)
    fun hm => hnew' ((hj.nodes node).1.1 hm)
  obtain ⟨xh', g, hx, hshaped, hxsame, horder, hxwith⟩ := Explicit.pushNode_shaped cmp prio hj.kept.shaped
    (show s.explicit.count < rounds by omega) fun i hi he => hnew' ((hj.nodes node).2.1 ⟨i, hi, he⟩)
  have hk := hshaped.kept horder hj.kept
  have hv := hwith hroom
  rw [hroom] at he
  refine ⟨⟨h', xh'⟩, v', g, ?_, hh, hk, ⟨hsame.type.trans hj.types.1, hxsame.type.trans hj.types.2⟩, ⟨?_, ?_⟩, ⟨?_, ?_⟩, ?_, ?_⟩
  · simp only [exec, Call.implicit, Call.explicit, Implicit.exec, Explicit.exec, he, hx]
    rfl
  · rw [← hj.prios.1]
    exact hsame.prio
  · rw [← hj.prios.2]
    exact hxsame.prio
  · rw [hv.count, hc, Finset.card_insert_of_notMem hnew']
  · rw [hxwith.count, hcx, Finset.card_insert_of_notMem hnew']
  · intro x
    rw [Finset.mem_insert, hv.values, hxwith.values, (hj.nodes x).1, (hj.nodes x).2]
    exact ⟨or_comm, or_comm⟩
  · refine distinct_update hj.distinct fun x hx _ => ?_
    obtain ⟨i, hi, rfl⟩ := (hj.nodes x).1.2 hx
    rw [← hj.prios.1]
    exact (hnew i hi).2

omit [Std.TransCmp cmp] in
/-- The same node is taken out of both heaps. -/
theorem Joint.without {node : ν} {s' : Heaps ν κ} {v' : Vect ν} {g : ℕ → ν} (hj : Joint type cmp n s q v f)
    (hn : node ∈ q.nodes) (hh : Implicit.Held cmp s'.implicit v') (hk : Explicit.Kept cmp s'.explicit g n)
    (hsame : Implicit.Same s.implicit s'.implicit) (hxsame : Explicit.Same s.explicit s'.explicit)
    (hv : Without node v.bytes v.occupied v'.bytes v'.occupied)
    (hf : Without node f s.explicit.count g s'.explicit.count) :
    Joint type cmp (n + 1) s' { q with nodes := q.nodes.erase node } v' g := by
  have hcard := Finset.card_erase_add_one hn
  have hvcount := hv.count
  have hfcount := hf.count
  obtain ⟨hc, hcx⟩ := hj.counts
  have hle := hk.count
  refine ⟨hh, hk.weaken (by omega), ⟨hsame.type.trans hj.types.1, hxsame.type.trans hj.types.2⟩,
    ⟨hsame.prio.trans hj.prios.1, hxsame.prio.trans hj.prios.2⟩, ⟨?_, ?_⟩, fun x => ?_, ?_⟩
  · show v'.occupied = (q.nodes.erase node).card
    omega
  · show s'.explicit.count = (q.nodes.erase node).card
    omega
  · rw [hv.values, hf.values, (hj.nodes x).1, (hj.nodes x).2, Finset.mem_erase]
    exact ⟨and_comm, and_comm⟩
  · intro x hx y hy he
    exact hj.distinct x (Finset.mem_of_mem_erase hx) y (Finset.mem_of_mem_erase hy) he

theorem popRoot_joint (hj : Joint type cmp n s q v f) (hr : n < rounds) (h0 : v.occupied ≠ 0) :
    ∃ s' v' f', exec cmp rounds .popRoot s = .ok (s', .node (v.bytes 0), some (v.bytes 0)) ∧
      Joint type cmp (n + 1) s' { q with nodes := q.nodes.erase (v.bytes 0) } v' f' := by
  have hle := hj.kept.count
  obtain ⟨hc, hcx⟩ := hj.counts
  obtain ⟨htop, hmem, -⟩ := hj.top h0
  obtain ⟨h', v', he, hh, hsame, hwithout, -⟩ := Implicit.popRoot_held hj.held (show v.occupied ≤ rounds by omega) (by omega)
  obtain ⟨xh', g, hx, hshaped, hxsame, horder, hxwithout⟩ := Explicit.popRoot_shaped cmp hj.kept.shaped
    (show s.explicit.count ≤ rounds by omega)
  have hk := hshaped.kept horder hj.kept
  have hf := hxwithout (by omega)
  rw [htop] at hf
  rw [Explicit.slot_lt (by omega), htop] at hx
  refine ⟨⟨h', xh'⟩, v', g, ?_, hj.without hmem hh hk hsame hxsame hwithout hf⟩
  simp only [exec, Call.implicit, Call.explicit, Implicit.exec, Explicit.exec, he, hx]
  rfl

theorem removeNode_joint {node : ν} {freeContainer : Bool} (hj : Joint type cmp n s q v f) (hr : n < rounds)
    (hp : Proper cmp (.removeNode node freeContainer) s) (hs : Sound cmp (.removeNode node freeContainer) s) :
    ∃ s' v' f', exec cmp rounds (.removeNode node freeContainer) s = .ok (s', .done, none) ∧
      Joint type cmp (n + 1) s' { q with nodes := q.nodes.erase node } v' f' := by
  have hle := hj.kept.count
  obtain ⟨hc, hcx⟩ := hj.counts
  obtain ⟨w, hw, ⟨i, hi, hat, hidx, hfits⟩, hbelow⟩ := hs
  obtain rfl := Option.some.inj (hj.held.vec.symm.trans hw)
  obtain ⟨-, -, -, hfree⟩ := hp
  have hmem := (hj.nodes node).1.1 ⟨i, hi, hat⟩
  obtain ⟨k, hk, hkat⟩ := (hj.nodes node).2.2 hmem
  rw [← hat] at hidx
  rw [← hkat] at hbelow
  obtain ⟨h', v', he, hh, hsame, hwithout, -⟩ := Implicit.removeNode_held hj.held (show v.occupied ≤ rounds by omega) hi
    hidx hfits fun hfc => (hfree hfc).1
  obtain ⟨xh', g, hx, hshaped, hxsame, horder, hf⟩ := Explicit.removeNode_shaped cmp hj.kept.shaped
    (show s.explicit.count ≤ rounds by omega) hk fun hfc => (hfree hfc).2
  have hk' := hshaped.kept (horder hbelow) hj.kept
  rw [hat] at he hwithout
  rw [hkat] at hx hf
  refine ⟨⟨h', xh'⟩, v', g, ?_, hj.without hmem hh hk' hsame hxsame hwithout hf⟩
  simp only [exec, Call.implicit, Call.explicit, Implicit.exec, Explicit.exec, he, hx]
  rfl

theorem priorityChanged_joint {node : ν} {prio : κ} (hj : Joint type cmp n s q v f) (hr : n < rounds)
    (hp : Proper cmp (.priorityChanged node prio) s) (hs : Sound cmp (.priorityChanged node prio) s) :
    ∃ s' v' f', exec cmp rounds (.priorityChanged node prio) s = .ok (s', .done, none) ∧
      Joint type cmp (n + 1) s' { q with prio := update q.prio node prio } v' f' := by
  have hle := hj.kept.count
  obtain ⟨hc, hcx⟩ := hj.counts
  obtain ⟨w, hw, i, hi, hat, hidx⟩ := hs
  obtain rfl := Option.some.inj (hj.held.vec.symm.trans hw)
  obtain ⟨w, hw, -, hdiff⟩ := hp
  obtain rfl := Option.some.inj (hj.held.vec.symm.trans hw)
  have hmem := (hj.nodes node).1.1 ⟨i, hi, hat⟩
  obtain ⟨k, hk, hkat⟩ := (hj.nodes node).2.2 hmem
  rw [← hat] at hidx
  obtain ⟨h', v', he, hh, hsame, hocc, hvalues, -⟩ := Implicit.priochange_held prio hj.held
    (show v.occupied ≤ rounds by omega) hi hidx
  obtain ⟨xh', g, hx, hshaped, hxsame, horder, hcount, hxvalues⟩ := Explicit.priochange_shaped cmp prio hj.kept.shaped
    (show s.explicit.count ≤ rounds by omega) hk
  have hk' := hshaped.kept horder hj.kept
  rw [hat] at he hsame
  rw [hkat] at hx hxsame
  refine ⟨⟨h', xh'⟩, v', g, ?_, hh, hk'.weaken (by have := hk'.count; omega),
    ⟨hsame.type.trans hj.types.1, hxsame.type.trans hj.types.2⟩, ⟨?_, ?_⟩, ⟨hocc.trans hc, hcount.trans hcx⟩, ?_, ?_⟩
  · simp only [exec, Call.implicit, Call.explicit, Implicit.exec, Explicit.exec, he, hx]
    rfl
  · rw [← hj.prios.1]
    exact hsame.prio
  · rw [← hj.prios.2]
    exact hxsame.prio
  · intro x
    rw [hocc, hcount, hvalues, hxvalues]
    exact hj.nodes x
  · have hother : ∀ x ∈ q.nodes, x ≠ node → cmp (q.prio x) prio ≠ .eq := by
      intro x hx hne
      obtain ⟨j, hj', rfl⟩ := (hj.nodes x).1.2 hx
      rw [← hj.prios.1]
      exact hdiff j hj' hne
    have hd := distinct_update hj.distinct hother
    rwa [Finset.insert_eq_of_mem hmem] at hd

/-- **One call**: both heaps do what the queue does. -/
theorem exec_joint {c : Call ν κ} (hj : Joint type cmp n s q v f) (hr : n < rounds) (hp : Proper cmp c s)
    (hs : Sound cmp c s) : ∃ s' r q', exec cmp rounds c s = .ok (s', r) ∧ Step type cmp c q r q' ∧
      ∃ v' f', Joint type cmp (n + 1) s' q' v' f' := by
  cases c with
  | push node prio =>
    obtain ⟨s', v', f', he, hj'⟩ := push_joint hj hr hp hs
    exact ⟨s', _, _, he, .push node prio, v', f', hj'⟩
  | popRoot =>
    obtain ⟨w, hw, h0⟩ := hp
    obtain rfl := Option.some.inj (hj.held.vec.symm.trans hw)
    obtain ⟨-, hmem, hfirst⟩ := hj.top h0
    obtain ⟨s', v', f', he, hj'⟩ := popRoot_joint hj hr h0
    exact ⟨s', _, _, he, .popRoot hmem hfirst, v', f', hj'⟩
  | removeNode node freeContainer =>
    obtain ⟨s', v', f', he, hj'⟩ := removeNode_joint hj hr hp hs
    exact ⟨s', _, _, he, .removeNode node freeContainer, v', f', hj'⟩
  | priorityChanged node prio =>
    obtain ⟨s', v', f', he, hj'⟩ := priorityChanged_joint hj hr hp hs
    exact ⟨s', _, _, he, .priorityChanged node prio, v', f', hj'⟩

/-- **In a run whose calls are sound both heaps do what one and the same priority queue does.** -/
theorem heaps_implement_queue (type : HeapOrder) (dtor : Bool) (bytes : ℕ → ν) (idx : ν → ℕ) (mem : Explicit.Mem ν)
    (prio : ν → κ) (cs : List (Call ν κ)) (hr : cs.length ≤ rounds)
    (hm : Meets (exec cmp rounds) (fun c s => Proper cmp c s ∧ Sound cmp c s) cs
      (Heaps.init type dtor bytes idx mem prio)) :
    Simulates (exec cmp rounds) (Step type cmp) Holds cs (Heaps.init type dtor bytes idx mem prio) ⟨∅, prio⟩ := by
  obtain ⟨v, hj⟩ : ∃ v, Joint type cmp 0 (Heaps.init type dtor bytes idx mem prio) ⟨∅, prio⟩ v bytes :=
    joint_init type dtor bytes idx mem prio
  refine simulates_of_step (fun n s q => ∃ v f, Joint type cmp n s q v f) ?_ ?_ ⟨v, bytes, hj⟩ hm
  · rintro n c s q hn ⟨v, f, hj⟩ ⟨hp, hs⟩
    exact exec_joint hj (show n < rounds by omega) hp hs
  · rintro n s q ⟨v, f, hj⟩
    exact hj.holds

theorem heaps_implement_queue_six : Simulates (exec (compare : ℕ → ℕ → Ordering) 6) (Step .min compare) Holds
    [.push 1 10, .push 2 20, .push 3 30, .priorityChanged 1 25, .removeNode 3 false, .popRoot]
    (Heaps.init .min false (fun _ => 0) (fun _ => 0) (fun _ => ⟨none, none, none⟩) (fun _ => 0)) ⟨∅, fun _ => 0⟩ := by
  refine heaps_implement_queue _ _ _ _ _ _ _ (by decide) (.cons ⟨⟨_, rfl, by decide⟩, ⟨_, rfl, by decide⟩⟩ rfl ?_)
  refine .cons ⟨⟨_, rfl, by decide⟩, ⟨_, rfl, by decide⟩⟩ rfl ?_
  refine .cons ⟨⟨_, rfl, by decide⟩, ⟨_, rfl, by decide⟩⟩ rfl ?_
  refine .cons ⟨⟨_, rfl, by decide⟩, ⟨_, rfl, 0, by decide⟩⟩ rfl ?_
  refine .cons ⟨⟨_, rfl, by decide⟩, ⟨_, rfl, ⟨2, by decide, by decide, by decide, by decide, by decide⟩, ?_⟩⟩ rfl ?_
  · intro last p hl hp
    cases hl
    cases hp
    decide
  exact .last ⟨⟨_, rfl, by decide⟩, ⟨_, rfl, trivial⟩⟩

/-- Two nodes are pushed, and the last of them is removed: the implicit heap ends the process. -/
theorem removed_of_two : ¬∀ cs : List (Call ℕ ℕ),
    Meets (exec compare cs.length) (Proper compare) cs
      (Heaps.init .min false (fun _ => 0) (fun _ => 0) (fun _ => ⟨none, none, none⟩) (fun _ => 0)) →
    Simulates (exec compare cs.length) (Step .min compare) Holds cs
      (Heaps.init .min false (fun _ => 0) (fun _ => 0) (fun _ => ⟨none, none, none⟩) (fun _ => 0))
      ⟨∅, fun _ => 0⟩ := by
  intro h
  have hm := h [.push 1 10, .push 2 20, .removeNode 2 false] ?_
  · obtain ⟨s, rs, -, he, -⟩ := hm _ (List.prefix_refl _)
    cases he
  refine .cons ⟨_, rfl, by decide⟩ rfl ?_
  refine .cons ⟨_, rfl, by decide⟩ rfl ?_
  exact .last ⟨_, rfl, by decide⟩

end Libtarp.PriorityQueue
