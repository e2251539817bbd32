import Libtarp.Heap.ImplicitRuns

/-!
# What is left in the implicit heap

The nodes as a multiset, whatever their order. `Heap_remove_node` knows the node it is given only by its field `idx`:
it takes out the one that is there.

* `Exact`: a call stays within the vector, and the nodes are then those that they should be.
* `Locates`: the node to remove is where its `idx` says, and is not the last of two.
* `exec_exact_iff`: for one call these are the same.
* `exact_iff_locates`: and so for a run.
-/

namespace Libtarp.Implicit

open Function Vec Lib BinHeap

variable {ν κ : Type} {h : Heap ν κ} {v : Vect ν} {rounds : ℕ}

/-- The nodes in the heap. -/
def Heap.nodes (h : Heap ν κ) : Multiset ν :=
  match h.v with
  | some v => contents v.bytes v.occupied
  | none => 0

theorem Stored.nodes_eq (hs : Stored h v) : h.nodes = contents v.bytes v.occupied := by
  unfold Heap.nodes
  rw [hs.vec]

theorem Stored.mem_nodes (hs : Stored h v) {x : ν} : x ∈ h.nodes ↔ Among v.bytes v.occupied x := by
  rw [hs.nodes_eq, mem_contents]

theorem Stored.nodup (hs : Stored h v) : h.nodes.Nodup := by
  rw [hs.nodes_eq]
  exact hs.distinct.nodup

/-- A node that is pushed is a new one, one that is removed is in the heap, and its container is freed only where a
destructor was given. A node whose priority has changed is where its `idx` says. -/
def Proper (c : Call ν κ) (h : Heap ν κ) : Prop :=
  match c with
  | .pushNode node _ => node ∉ h.nodes
  | .popRoot => True
  | .removeNode node freeContainer => node ∈ h.nodes ∧ (freeContainer = true → h.dtor = true)
  | .priochange node _ => ∃ v, h.v = some v ∧ ∃ i < v.occupied, v.bytes i = node ∧ h.idx node = i

/-- Where a node is removed, it is where its `idx` says, and is not the last of two. -/
def Locates (c : Call ν κ) (h : Heap ν κ) : Prop :=
  match c with
  | .removeNode node _ => ∃ v, h.v = some v ∧
      ∃ i < v.occupied, v.bytes i = node ∧ h.idx node = i ∧ ¬(v.occupied = 2 ∧ i = 1)
  | _ => True

variable [DecidableEq ν]

/-- The nodes before a call, its answer, and the nodes after it. A push can be refused. -/
inductive Step : Call ν κ → Multiset ν → Answer ν → Multiset ν → Prop
  | pushNode {s : Multiset ν} (node : ν) (prio : κ) : Step (.pushNode node prio) s (.code none) (node ::ₘ s)
  | refused {s : Multiset ν} (node : ν) (prio : κ) (rc : ErrorCode) : Step (.pushNode node prio) s (.code (some rc)) s
  | popRoot {s : Multiset ν} {top : ν} (mem : top ∈ s) : Step .popRoot s (.node top) (s.erase top)
  | removeNode {s : Multiset ν} (node : ν) (freeContainer : Bool) :
      Step (.removeNode node freeContainer) s .done (s.erase node)
  | priochange {s : Multiset ν} (node : ν) (prio : κ) : Step (.priochange node prio) s .done s

theorem Step.nodes_erase {s s' : Multiset ν} {r : Answer ν} {node : ν} {freeContainer : Bool}
    (h : Step (.removeNode node freeContainer : Call ν κ) s r s') : s' = s.erase node := by
  cases h
  rfl

/-- A call is answered, and the nodes are those that they should be. Only to pop from an empty heap is refused, and
ends the process before anything was read. -/
def Exact (cmp : κ → κ → Ordering) (rounds : ℕ) (c : Call ν κ) (h : Heap ν κ) : Prop :=
  (∃ h' r, exec cmp rounds c h = .ok (h', r) ∧ Step c h.nodes r h'.nodes) ∨
    c = .popRoot ∧ h.nodes = 0 ∧ exec cmp rounds c h = .error (.thrown .empty)

theorem Left.nodes_eq {cmp : κ → κ → Ordering} {h' : Heap ν κ} {v' : Vect ν} {i : ℕ} (hs : Stored h v)
    (hl : Left cmp h v i h' v') : h'.nodes = h.nodes.erase (v.bytes i) := by
  rw [hs.nodes_eq, hl.stored.nodes_eq]
  exact hl.without.contents_erase hs.distinct hl.stored.distinct

variable {cmp : κ → κ → Ordering}

/-- Past the end of the vector there is nothing to replace, and from the last of two places the loop of `bubble_down`
starts past the end, as its bound is the node above the root. -/
theorem removeNode_outside {node : ν} {freeContainer : Bool} (hs : Stored h v) (hr : 0 < rounds) (h0 : 0 < v.occupied)
    (hidx : v.occupied ≤ h.idx node ∨ v.occupied = 2 ∧ h.idx node = 1) :
    removeNode cmp rounds h node freeContainer = .error (.thrown .outOfBounds) := by
  have hback : vectBack v = .ok (v.bytes (v.occupied - 1)) := if_neg (by omega)
  unfold removeNode
  rw [if_neg (by omega)]
  simp only [handle, hs.vec, hback, bind, Except.bind]
  rcases hidx with hge | ⟨h2, h1⟩
  · have hset : vectSet v (h.idx node) (v.bytes (v.occupied - 1)) = .error (.thrown .outOfBounds) := if_pos hge
    simp only [hset]
  · rw [vectSet_ok (by omega)]
    set v₁ : Vect ν := { v with bytes := update v.bytes (h.idx node) (v.bytes (v.occupied - 1)) } with hv₁
    obtain ⟨w, hpop, -, hwo, -⟩ := vectPopb_spec (v := v₁) ⟨hs.valid.occupied, hs.valid.capacity, hs.valid.room⟩ h0
    have hw1 : w.occupied = 1 := by
      rw [hwo]
      show v.occupied - 1 = 1
      omega
    obtain ⟨n, rfl⟩ : ∃ n, rounds = n + 1 := ⟨rounds - 1, by omega⟩
    have hget : vectGet w 1 = .error (.thrown .outOfBounds) := if_pos (by omega)
    simp only [hpop]
    unfold bubbleDown
    rw [if_neg (by omega), hw1, h1, swapDownWhileUnordered, if_pos (by decide)]
    simp only [hget, bind, Except.bind]

/-- **A removal** is exact if and only if it locates the node. -/
theorem removeNode_exact_iff {node : ν} {freeContainer : Bool} (hs : Stored h v) (hr : v.occupied ≤ rounds)
    (hp : Proper (.removeNode node freeContainer) h) :
    Exact cmp rounds (.removeNode node freeContainer) h ↔ Locates (.removeNode node freeContainer) h := by
  obtain ⟨hm, hf⟩ := hp
  obtain ⟨i, hi, hat⟩ := hs.mem_nodes.1 hm
  constructor
  · rintro (⟨h', r, he, hstep⟩ | ⟨hc, -⟩)
    · have hidx : ¬(v.occupied ≤ h.idx node ∨ v.occupied = 2 ∧ h.idx node = 1) := by
        intro hout
        simp only [exec, removeNode_outside hs (show 0 < rounds by omega) (by omega) hout, bind, Except.bind] at he
        cases he
      push Not at hidx
      -- what was taken out is where `idx` says
      obtain ⟨g, v', hrem, hl⟩ := removeNode_left cmp hs hr hidx.1 rfl (fun h2 => hidx.2 h2.1 h2.2) hf
      simp only [exec, hrem, bind, Except.bind, pure, Except.pure, Except.ok.injEq, Prod.mk.injEq] at he
      obtain ⟨rfl, rfl⟩ := he
      have hsame : h.nodes.erase (v.bytes (h.idx node)) = h.nodes.erase node :=
        (hl.nodes_eq hs).symm.trans hstep.nodes_erase
      have hat : v.bytes (h.idx node) = node :=
        eq_of_erase_eq hs.nodup (hs.mem_nodes.2 ⟨_, hidx.1, rfl⟩) hsame
      exact ⟨v, hs.vec, h.idx node, hidx.1, hat, rfl, fun h2 => hidx.2 h2.1 h2.2⟩
    · cases hc
  · rintro ⟨w, hw, i, hi, rfl, hidx, hstart⟩
    obtain rfl := Option.some.inj (hs.vec.symm.trans hw)
    obtain ⟨h', v', hrem, hl⟩ := removeNode_left cmp hs hr hi hidx hstart hf
    refine .inl ⟨h', .done, ?_, ?_⟩
    · simp only [exec, hrem]
      rfl
    · rw [hl.nodes_eq hs]
      exact .removeNode _ _

/-- A call that locates the node it removes is exact, and so is every other call. -/
theorem exec_exact {c : Call ν κ} (hs : Stored h v) (hr : v.occupied < rounds) (hp : Proper c h) (hl : Locates c h) :
    Exact cmp rounds c h ∧ ∀ h' r, exec cmp rounds c h = .ok (h', r) →
      ∃ v', Stored h' v' ∧ v'.occupied ≤ v.occupied + 1 := by
  cases c with
  | pushNode node prio =>
    have hnew : ¬Among v.bytes v.occupied node := fun hm => hp (hs.mem_nodes.2 hm)
    obtain ⟨h', v', he, hs', -, -, hle, hwith, hfull, -⟩ := pushNode_stored cmp prio hs hr hnew
    have hexec : exec cmp rounds (.pushNode node prio) h = .ok (h', .code (vectPushb v node).2) := by
      simp only [exec, he]
      rfl
    refine ⟨.inl ⟨h', _, hexec, ?_⟩, fun g r hg => ?_⟩
    · -- a vector of the largest capacity refuses
      cases hrc : (vectPushb v node).2 with
      | none =>
        rw [hs.nodes_eq, hs'.nodes_eq, (hwith hrc).contents_cons hs.distinct hs'.distinct hnew]
        exact .pushNode node prio
      | some rc =>
        rw [hs.nodes_eq, hs'.nodes_eq, hfull (by rw [hrc]; exact Option.some_ne_none rc)]
        exact .refused node prio rc
    · rw [hexec] at hg
      cases hg
      exact ⟨v', hs', hle⟩
  | popRoot =>
    by_cases h0 : v.occupied = 0
    · -- `Vect_front` ends the process
      have hfront : vectFront v = .error (.thrown .empty) := if_pos h0
      have hexec : exec cmp rounds .popRoot h = .error (.thrown .empty) := by
        simp only [exec, popRoot, handle, hs.vec, hfront, bind, Except.bind]
      refine ⟨.inr ⟨rfl, ?_, hexec⟩, fun g r hg => ?_⟩
      · rw [hs.nodes_eq, h0]
        rfl
      · rw [hexec] at hg
        cases hg
    · obtain ⟨h', v', he, hl⟩ := popRoot_left cmp hs (show v.occupied ≤ rounds by omega) (by omega)
      have hexec : exec cmp rounds .popRoot h = .ok (h', .node (v.bytes 0)) := by
        simp only [exec, he]
        rfl
      refine ⟨.inl ⟨h', _, hexec, ?_⟩, fun g r hg => ?_⟩
      · rw [hl.nodes_eq hs]
        exact .popRoot (hs.mem_nodes.2 ⟨0, by omega, rfl⟩)
      · rw [hexec] at hg
        cases hg
        exact ⟨v', hl.stored, by have := hl.without.count; omega⟩
  | removeNode node freeContainer =>
    refine ⟨(removeNode_exact_iff hs (by omega) hp).2 hl, fun g r hg => ?_⟩
    obtain ⟨w, hw, i, hi, rfl, hidx, hstart⟩ := hl
    obtain rfl := Option.some.inj (hs.vec.symm.trans hw)
    obtain ⟨h', v', hrem, hl⟩ := removeNode_left cmp hs (show v.occupied ≤ rounds by omega) hi hidx hstart hp.2
    simp only [exec, hrem] at hg
    cases hg
    exact ⟨v', hl.stored, by have := hl.without.count; omega⟩
  | priochange node prio =>
    obtain ⟨w, hw, i, hi, rfl, hidx⟩ := hp
    obtain rfl := Option.some.inj (hs.vec.symm.trans hw)
    obtain ⟨h', v', he, hs', -, hocc, hvalues, -⟩ := priochange_stored cmp prio hs (show v.occupied ≤ rounds by omega) hi
      hidx
    have hexec : exec cmp rounds (.priochange (v.bytes i) prio) h = .ok (h', .done) := by
      simp only [exec, he]
      rfl
    refine ⟨.inl ⟨h', _, hexec, ?_⟩, fun g r hg => ?_⟩
    · have hd := hs'.distinct
      rw [hocc] at hd
      rw [hs'.nodes_eq, hocc, hvalues.contents_eq hs.distinct hd, ← hs.nodes_eq]
      exact .priochange _ prio
    · rw [hexec] at hg
      cases hg
      exact ⟨v', hs', by omega⟩

/-- **One call** is exact if and only if it locates the node that it removes. -/
theorem exec_exact_iff {c : Call ν κ} (hs : Stored h v) (hr : v.occupied < rounds) (hp : Proper c h) :
    Exact cmp rounds c h ↔ Locates c h := by
  cases c with
  | removeNode node freeContainer => exact removeNode_exact_iff hs (by omega) hp
  | _ => exact iff_of_true (exec_exact hs hr hp trivial).1 trivial

/-- **The calls of a run are exact if and only if they locate the nodes that they remove.** -/
theorem exact_iff_locates (cmp : κ → κ → Ordering) (type : HeapOrder) (dtor : Bool) (bytes : ℕ → ν) (idx : ν → ℕ)
    (prio : ν → κ) (cs : List (Call ν κ)) (hr : cs.length ≤ rounds)
    (hp : Meets (exec cmp rounds) Proper cs (heapInit type dtor bytes idx prio)) :
    Meets (exec cmp rounds) (Exact cmp rounds) cs (heapInit type dtor bytes idx prio) ↔
      Meets (exec cmp rounds) Locates cs (heapInit type dtor bytes idx prio) := by
  refine meets_iff_meets (fun n h => ∃ v, Stored h v ∧ v.occupied ≤ n) ?_ ?_ hp
  · rintro n c h hn ⟨v, hs, hle⟩ hp
    have hiff : Exact cmp rounds c h ↔ Locates c h := exec_exact_iff hs (by omega) hp
    refine ⟨hiff, fun hx h' r he => ?_⟩
    obtain ⟨v', hs', hle'⟩ := (exec_exact hs (by omega) hp (hiff.1 hx)).2 h' r he
    exact ⟨v', hs', by omega⟩
  · obtain ⟨v, hk⟩ : ∃ v, Kept cmp (heapInit type dtor bytes idx prio) v 0 := kept_heapInit type dtor bytes idx prio
    exact ⟨v, hk.held.stored, hk.count⟩

theorem exact_iff_locates_five : Meets (exec (compare : ℕ → ℕ → Ordering) 5) (Exact compare 5)
    [.pushNode 1 10, .pushNode 2 20, .pushNode 3 30, .removeNode 2 false, .popRoot]
    (heapInit .min false (fun _ => 0) (fun _ => 0) (fun _ => 0)) := by
  refine (exact_iff_locates _ _ _ _ _ _ _ (by decide) ?_).2 ?_
  · refine .cons (by unfold Proper; decide) rfl ?_
    refine .cons (by unfold Proper; decide) rfl ?_
    refine .cons (by unfold Proper; decide) rfl ?_
    refine .cons ⟨by decide, nofun⟩ rfl ?_
    exact .last trivial
  · refine .cons trivial rfl ?_
    refine .cons trivial rfl ?_
    refine .cons trivial rfl ?_
    refine .cons ⟨_, rfl, 1, by decide⟩ rfl ?_
    exact .last trivial

/-- Of two nodes the last is removed: the vector is read past its end. -/
theorem removed_last_of_two : ¬∀ cs : List (Call ℕ ℕ),
    Meets (exec compare cs.length) Proper cs (heapInit .min false (fun _ => 0) (fun _ => 0) (fun _ => 0)) →
    Meets (exec compare cs.length) (Exact compare cs.length) cs
      (heapInit .min false (fun _ => 0) (fun _ => 0) (fun _ => 0)) := by
  intro hall
  have hm := hall [.pushNode 1 10, .pushNode 2 20, .removeNode 2 false] ?_
  · obtain ⟨-, hm⟩ := hm
    obtain ⟨-, hm⟩ := hm _ _ rfl
    obtain ⟨hx, -⟩ := hm _ _ rfl
    rcases hx with ⟨h', r, he, -⟩ | ⟨hc, -⟩
    · cases he
    · cases hc
  refine .cons (by unfold Proper; decide) rfl ?_
  refine .cons (by unfold Proper; decide) rfl ?_
  exact .last ⟨by decide, nofun⟩

/-- The place of the second node goes to the third, whose `idx` stays 2. The fourth gets that place, and is taken out
when the third is to be. -/
example : endsIn (exec (compare : ℕ → ℕ → Ordering) 6) (fun h => decide (h.nodes = {1, 3}))
    [.pushNode 1 10, .pushNode 2 20, .pushNode 3 30, .removeNode 2 false, .pushNode 4 40, .removeNode 3 false]
    (heapInit .min false (fun _ => 0) (fun _ => 0) (fun _ => 0)) = true := by
  decide +kernel

end Libtarp.Implicit
