import Libtarp.Heap.PriorityQueue
import Libtarp.Lib.BreadthFirst

/-!
# The tree of an explicit heap: its numbers, and its end (`find_nth_node`, `XHeap_clear`)

Where the nodes are found by their numbers, the heaps need not be in order: a node may have been taken out whose place
the last one does not fit in.  A node that is not in a heap is somebody else's, as in other containers.

* `linked_numbered`: the tree in memory is the complete one.
* `findNthNode_after`: after every call each number leads to the node that comes so far in the breadth-first order.
* `xheapClear_spec`: the recursion of `xheap_destroy__` is as deep as the count has bits, and reads no destroyed node.
* `heap_shares_memory`: the calls, and the clearing of a heap, do what they do on a priority queue, whatever is written
  to other nodes.
-/

namespace Libtarp.Explicit

open Function Lib BinHeap PriorityQueue

variable {ν κ : Type} {cmp : κ → κ → Ordering} {xh : XHeap ν κ} {f : ℕ → ν} {n m rounds : ℕ}

/-- The nodes are linked as a complete tree of as many as are counted, and each is found by its number, which is 1 for
the first in breadth-first order. -/
def FindsNodes (xh : XHeap ν κ) : Prop :=
  ∃ f, Linked (children xh.mem) xh.root (numbered f xh.count 0) ∧
    ∀ nth, 0 < nth → nth ≤ xh.count → ∃ node, (breadthFirst [numbered f xh.count 0])[nth - 1]? = some node ∧
      findNthNode xh.mem xh.root xh.count nth = .ok (some node)

/-- What is linked as a complete tree is that tree. -/
theorem linked_numbered {mem : Mem ν} (h : Complete mem f n) (i : ℕ) :
    Linked (children mem) (slot f n i) (numbered f n i) := by
  induction hm : n - i using Nat.strongRecOn generalizing i with
  | ind m ih =>
    by_cases hi : i < n
    · rw [slot_lt hi, numbered_lt hi, linked_node]
      unfold children
      rw [h.links i hi]
      exact ⟨rfl, ih _ (by omega) (2 * i + 1) rfl, ih _ (by omega) (2 * i + 2) rfl⟩
    · rw [slot_ge (by omega), numbered_ge (by omega)]
      rfl

theorem Shaped.findsNodes (hs : Shaped xh f m) : FindsNodes xh := by
  refine ⟨f, ?_, ?_⟩
  · rw [hs.root]
    exact linked_numbered hs.complete 0
  · intro nth hpos hle
    refine ⟨f (nth - 1), ?_, ?_⟩
    · rw [breadthFirst_numbered, List.getElem?_map, List.getElem?_range (by omega)]
      rfl
    · rw [hs.root, slot_lt (by omega)]
      exact findNthNode_spec hs.complete xh.count nth hpos hle hle

/-- **After every call of a run each number up to the count leads to the node with this number.** -/
theorem findNthNode_after [DecidableEq ν] [Nonempty ν] (type : HeapOrder) (dtor : Bool) (mem : Mem ν) (prio : ν → κ)
    (cs : List (Call ν κ)) (hr : cs.length ≤ rounds)
    (hm : Meets (exec cmp rounds) Valid cs (xheapInit type dtor mem prio)) :
    After (exec cmp rounds) FindsNodes cs (xheapInit type dtor mem prio) := by
  obtain ⟨x⟩ := ‹Nonempty ν›
  refine after_of_step (fun n xh => ∃ f, Shaped xh f n) ?_ ?_ ⟨fun _ => x, shaped_xheapInit _ type dtor mem prio⟩ hm
  · rintro n c xh hn ⟨f, hs⟩ hc
    obtain ⟨xh', g, r, he, hs', -⟩ := exec_shaped cmp hs (show n < rounds by omega) hc
    exact ⟨xh', r, he, g, hs'⟩
  · rintro n xh ⟨f, hs⟩
    exact hs.findsNodes

theorem findNthNode_after_three : After (exec (compare : ℕ → ℕ → Ordering) 3) FindsNodes
    [.pushNode 1 10, .pushNode 2 20, .priochange 2 5]
    (xheapInit .min false (fun _ => ⟨none, none, none⟩) (fun _ => 0)) := by
  refine findNthNode_after _ _ _ _ _ (by decide) (.cons ?_ rfl ?_)
  · rintro ⟨b, hb, -⟩
    cases hb
  refine .cons ?_ rfl ?_
  · rintro ⟨b, hb, hr⟩
    cases hb
    cases hr.cases_head with
    | inl he => cases he
    | inr hr =>
      obtain ⟨c, ⟨s, hs⟩, -⟩ := hr
      cases s <;> cases hs
  exact .last ⟨1, rfl, .single ⟨.left, rfl⟩⟩

/-! ## Clearing -/

section Clear

variable [DecidableEq ν]

/-- `xheap_destroy__`, with the nodes destroyed so far.  The memory of a destroyed node holds `junk`. -/
def xheapDestroy (junk : Mem ν) : ℕ → Option ν → Mem ν × List ν → Except Fault (Mem ν × List ν) :=
  destroyTree children (fun mem node => update mem node (junk node)) Fault.rounds

/-- `XHeap_clear`, with the nodes that it destroys. -/
def xheapClear (junk : Mem ν) (rounds : ℕ) (xh : XHeap ν κ) (freeContainers : Bool) :
    Except Fault (XHeap ν κ × List ν) :=
  if freeContainers then
    if xh.dtor then do
      let (mem, destroyed) ← xheapDestroy junk rounds xh.root (xh.mem, [])
      pure ({ xh with root := none, count := 0, mem }, destroyed)
    else .error (.thrown .misconfigured)
  else .ok ({ xh with root := none, count := 0 }, [])

/-- The nodes a cleared heap destroys: all of them, and none before one below it. -/
structure Cleared (xh : XHeap ν κ) (freeContainers : Bool) (destroyed : List ν) : Prop where
  all : ∀ a, a ∈ destroyed ↔ freeContainers = true ∧ InHeap xh a
  later : destroyed.Pairwise fun a b => ¬Reachable (children xh.mem) (some a) b

omit [DecidableEq ν] in
theorem Complete.nodup {mem : Mem ν} (h : Complete mem f n) : (inorder (numbered f n 0)).Nodup := by
  refine (inorder_numbered f n).nodup_iff.2 (List.Nodup.map_on ?_ List.nodup_range)
  intro i hi j hj he
  exact h.distinct i (List.mem_range.1 hi) j (List.mem_range.1 hj) he

/-- **The recursion is as deep as the count has bits.** -/
theorem xheapClear_spec (junk : Mem ν) {freeContainers : Bool} (hs : Shaped xh f m) (hr : xh.count.size ≤ rounds)
    (hd : freeContainers = true → xh.dtor = true) :
    ∃ mem destroyed, xheapClear junk rounds xh freeContainers =
      .ok ({ xh with root := none, count := 0, mem }, destroyed) ∧ Cleared xh freeContainers destroyed := by
  cases freeContainers with
  | false => exact ⟨xh.mem, [], rfl, by simp, List.Pairwise.nil⟩
  | true =>
    have hl : Linked (children xh.mem) xh.root (numbered f xh.count 0) := by
      rw [hs.root]
      exact linked_numbered hs.complete 0
    have hn := hs.complete.nodup
    have hscrap : ∀ (mem : Mem ν) a b, b ≠ a → children (update mem a (junk a)) b = children mem b := by
      intro mem a b hb
      funext side
      cases side <;> simp only [children, update_of_ne hb]
    obtain ⟨mem, hdestroy, -⟩ := destroyTree_spec Fault.rounds hscrap hl hn ((height_numbered f xh.count).trans hr) []
    rw [List.nil_append] at hdestroy
    refine ⟨mem, postorder (numbered f xh.count 0), ?_, fun a => ?_, hl.postorder_later hn⟩
    · unfold xheapClear xheapDestroy
      rw [if_pos rfl, if_pos (hd rfl), hdestroy]
      rfl
    · rw [mem_postorder, InHeap, hl.reachable_iff]
      simp

/-! ## Whatever is written to other nodes -/

/-- What happens to a heap: a call, its clearing, or something to the memory and the containers of other nodes. -/
inductive Event (ν κ : Type)
  | call (c : Call ν κ)
  | clear (freeContainers : Bool) (junk : Mem ν)
  | others (mem : Mem ν) (prio : ν → κ)

/-- What is seen of it. -/
inductive Seen (ν : Type)
  | answer (top : Option ν)
  | destroyed (nodes : List ν)
  | nothing

def execEvent (cmp : κ → κ → Ordering) (rounds : ℕ) : Event ν κ → XHeap ν κ → Except Fault (XHeap ν κ × Seen ν)
  | .call c, xh => (exec cmp rounds c xh).map fun p => (p.1, .answer p.2)
  | .clear freeContainers junk, xh =>
    (xheapClear junk xh.count.size xh freeContainers).map fun p => (p.1, .destroyed p.2)
  | .others mem prio, xh => .ok ({ xh with mem, prio }, .nothing)

/-- What a caller and the other users of the memory have to see to. -/
def Allowed (cmp : κ → κ → Ordering) : Event ν κ → XHeap ν κ → Prop
  | .call c, xh => Harmless cmp c xh
  | .clear freeContainers _, xh => freeContainers = true → xh.dtor = true
  | .others mem prio, xh => ∀ a, InHeap xh a → mem a = xh.mem a ∧ prio a = xh.prio a

/-- What happens to the queue.  Of several nodes that nothing outranks a pop may return any. -/
def OnQueue (cmp : κ → κ → Ordering) (e : Event ν κ) (xh : XHeap ν κ) (q : Queue ν κ) (r : Seen ν) (q' : Queue ν κ) :
    Prop :=
  match e with
  | .call (.pushNode node prio) => r = .answer none ∧ q' = ⟨insert node q.nodes, update q.prio node prio⟩
  | .call .popRoot =>
    q.nodes = ∅ ∧ r = .answer none ∧ q' = q ∨
      ∃ top ∈ q.nodes, (∀ x ∈ q.nodes, ¬outranks xh.type cmp q.prio x top) ∧ r = .answer (some top) ∧
        q' = { q with nodes := q.nodes.erase top }
  | .call (.removeNode node _) => r = .answer none ∧ q' = { q with nodes := q.nodes.erase node }
  | .call (.priochange node prio) => r = .answer none ∧ q' = { q with prio := update q.prio node prio }
  | .clear freeContainers _ =>
    ∃ destroyed, r = .destroyed destroyed ∧ Cleared xh freeContainers destroyed ∧ q' = { q with nodes := ∅ }
  | .others _ prio => r = .nothing ∧ q' = { q with prio } ∧ ∀ x ∈ q.nodes, prio x = q.prio x

/-- The nodes of the heap and their priorities are those of the queue. -/
structure Represents (xh : XHeap ν κ) (q : Queue ν κ) : Prop where
  nodes : ∀ x, x ∈ q.nodes ↔ InHeap xh x
  count : xh.count = q.nodes.card
  prio : xh.prio = q.prio

/-- The queue of a heap. -/
def queueOf (xh : XHeap ν κ) (f : ℕ → ν) : Queue ν κ := ⟨(Finset.range xh.count).image f, xh.prio⟩

theorem mem_queueOf {x : ν} : x ∈ (queueOf xh f).nodes ↔ Among f xh.count x := by
  simp [queueOf, Among]

theorem Shaped.represents (hs : Shaped xh f m) : Represents xh (queueOf xh f) where
  nodes x := mem_queueOf.trans hs.inHeap_iff.symm
  count := by
    rw [queueOf, Finset.card_image_of_injOn, Finset.card_range]
    intro i hi j hj he
    exact hs.complete.distinct i (by simpa using hi) j (by simpa using hj) he
  prio := rfl

/-- The queue of the heap after a call, by its nodes. -/
theorem queueOf_eq {xh' : XHeap ν κ} {g : ℕ → ν} {nodes : Finset ν} {prio : ν → κ}
    (hnodes : ∀ x, Among g xh'.count x ↔ x ∈ nodes) (hprio : xh'.prio = prio) : queueOf xh' g = ⟨nodes, prio⟩ := by
  have hsame : (queueOf xh' g).nodes = nodes := Finset.ext fun x => mem_queueOf.trans (hnodes x)
  rw [← hsame, ← hprio]
  rfl

variable [Std.TransCmp cmp]

/-- **One call.** -/
theorem exec_onQueue {c : Call ν κ} (hk : Kept cmp xh f m) (hr : xh.count < rounds) (hc : Harmless cmp c xh) :
    ∃ xh' g r, exec cmp rounds c xh = .ok (xh', r) ∧ Kept cmp xh' g xh'.count ∧
      OnQueue cmp (.call c) xh (queueOf xh f) (.answer r) (queueOf xh' g) := by
  have hs := hk.shaped
  cases c with
  | pushNode node prio =>
    obtain ⟨xh', g, he, hs', hsame, horder, hwith⟩ := pushNode_shaped cmp prio hs hr
      fun i hi hin => hc (hs.inHeap_iff.2 ⟨i, hi, hin⟩)
    refine ⟨xh', g, none, by simp only [exec, he]; rfl, (hs'.kept horder hk).weaken le_rfl, rfl, ?_⟩
    refine queueOf_eq (fun x => ?_) hsame.prio
    rw [hwith.values, Finset.mem_insert, mem_queueOf]
    exact or_comm
  | popRoot =>
    obtain ⟨xh', g, he, hs', hsame, horder, hwithout⟩ := popRoot_shaped cmp hs hr.le
    refine ⟨xh', g, _, he, (hs'.kept horder hk).weaken le_rfl, ?_⟩
    by_cases h0 : xh.count = 0
    · left
      have hempty : (queueOf xh f).nodes = ∅ := by simp [queueOf, h0]
      have hsame' : xh' = xh := by
        rw [popRoot, if_pos h0] at he
        exact (Prod.mk.inj (Except.ok.inj he)).1.symm
      refine ⟨hempty, by rw [h0]; rfl, queueOf_eq (fun x => ?_) hsame.prio⟩
      rw [hsame', h0]
      simp [Among]
    · right
      have hwithout := hwithout (Nat.pos_of_ne_zero h0)
      refine ⟨f 0, mem_queueOf.2 ⟨0, Nat.pos_of_ne_zero h0, rfl⟩, fun x hx => ?_, ?_, ?_⟩
      · obtain ⟨i, hi, rfl⟩ := mem_queueOf.1 hx
        exact hk.ordered.root (ranking_outranks cmp xh.type xh.prio) hi
      · rw [slot_lt (Nat.pos_of_ne_zero h0)]
      · refine queueOf_eq (fun x => ?_) hsame.prio
        rw [hwithout.values, Finset.mem_erase, mem_queueOf]
        exact and_comm
  | removeNode node freeContainer =>
    obtain ⟨hf, hin, hfits⟩ := hc
    obtain ⟨i, hi, rfl⟩ := hs.inHeap_iff.1 hin
    obtain ⟨xh', g, he, hs', hsame, horder, hwithout⟩ := removeNode_shaped cmp hs hr.le hi hf
    refine ⟨xh', g, none, by simp only [exec, he]; rfl, (hs'.kept (horder hfits) hk).weaken le_rfl, rfl, ?_⟩
    refine queueOf_eq (fun x => ?_) hsame.prio
    rw [hwithout.values, Finset.mem_erase, mem_queueOf]
    exact and_comm
  | priochange node prio =>
    obtain ⟨i, hi, rfl⟩ := hs.inHeap_iff.1 hc
    obtain ⟨xh', g, he, hs', hsame, horder, hcount, hvalues⟩ := priochange_shaped cmp prio hs hr.le hi
    refine ⟨xh', g, none, by simp only [exec, he]; rfl, (hs'.kept horder hk).weaken le_rfl, rfl, ?_⟩
    refine queueOf_eq (fun x => ?_) hsame.prio
    rw [hcount, hvalues, mem_queueOf]

/-- **One event.** -/
theorem execEvent_onQueue {e : Event ν κ} (hk : Kept cmp xh f m) (hr : xh.count < rounds) (he : Allowed cmp e xh) :
    ∃ xh' g r, execEvent cmp rounds e xh = .ok (xh', r) ∧ Kept cmp xh' g xh'.count ∧
      OnQueue cmp e xh (queueOf xh f) r (queueOf xh' g) := by
  cases e with
  | call c =>
    obtain ⟨xh', g, r, hexec, hk', hq⟩ := exec_onQueue hk hr he
    exact ⟨xh', g, .answer r, by simp only [execEvent, hexec]; rfl, hk', hq⟩
  | clear freeContainers junk =>
    obtain ⟨mem, destroyed, hclear, hcleared⟩ := xheapClear_spec junk hk.shaped le_rfl he
    refine ⟨{ xh with root := none, count := 0, mem }, f, .destroyed destroyed, ?_, ?_, destroyed, rfl, hcleared, ?_⟩
    · simp only [execEvent, hclear]
      rfl
    · exact kept_xheapInit f xh.type xh.dtor mem xh.prio
    · exact queueOf_eq (fun x => by simp [Among]) rfl
  | others mem prio =>
    have hin : ∀ i < xh.count, mem (f i) = xh.mem (f i) ∧ prio (f i) = xh.prio (f i) :=
      fun i hi => he _ (hk.shaped.inHeap_iff.2 ⟨i, hi, rfl⟩)
    refine ⟨{ xh with mem, prio }, f, .nothing, rfl, ⟨⟨fun i hi => ?_, hk.complete.distinct⟩, hk.root, le_rfl, ?_⟩, rfl,
      rfl, fun x hx => ?_⟩
    · exact (hin i hi).1.trans (hk.complete.links i hi)
    · intro i hpos hi
      have hlt : i < xh.count := hi
      have hup := up_lt hpos
      have hsame : outranks xh.type cmp prio (f i) (f (up i)) = outranks xh.type cmp xh.prio (f i) (f (up i)) := by
        unfold outranks
        rw [(hin i hlt).2, (hin (up i) (by omega)).2]
      show ¬outranks xh.type cmp prio (f i) (f (up i)) = true
      rw [hsame]
      exact hk.ordered i hpos hlt
    · obtain ⟨i, hi, rfl⟩ := mem_queueOf.1 hx
      exact (hin i hi).2

/-- **A heap shares the memory with others.**  Whatever is written to nodes that are not in the heap, be it that they
were destroyed, and to their containers, everything that happens to the heap is as on a priority queue. -/
theorem heap_shares_memory [Nonempty ν] (type : HeapOrder) (dtor : Bool) (mem : Mem ν) (prio : ν → κ)
    (es : List (Event ν κ)) (hm : Meets (execEvent cmp rounds) (fun e xh => Allowed cmp e xh ∧ xh.count < rounds) es
      (xheapInit type dtor mem prio)) :
    Each (execEvent cmp rounds) (fun e xh r xh' => ∃ q q', Represents xh q ∧ Represents xh' q' ∧
      OnQueue cmp e xh q r q') es (xheapInit type dtor mem prio) := by
  obtain ⟨x⟩ := ‹Nonempty ν›
  refine each_of_step (fun _ xh => ∃ f, Kept cmp xh f xh.count) ?_ ⟨fun _ => x, kept_xheapInit _ type dtor mem prio⟩ hm
  rintro n e xh - ⟨f, hk⟩ ⟨he, hr⟩
  obtain ⟨xh', g, r, hexec, hk', hq⟩ := execEvent_onQueue hk hr he
  exact ⟨xh', r, hexec, ⟨g, hk'⟩, _, _, hk.shaped.represents, hk'.shaped.represents, hq⟩

theorem heap_shares_memory_four : Each (execEvent (compare : ℕ → ℕ → Ordering) 3)
    (fun e xh r xh' => ∃ q q', Represents xh q ∧ Represents xh' q' ∧ OnQueue compare e xh q r q')
    [.call (.pushNode 1 10), .others (update (fun _ => ⟨some 7, some 7, some 7⟩) 1 ⟨none, none, none⟩) fun _ => 10,
      .call (.pushNode 2 5), .clear true fun _ => ⟨some 7, some 7, some 7⟩]
    (xheapInit .min true (fun _ => ⟨none, none, none⟩) (fun _ => 0)) := by
  have honly : ∀ xh : XHeap ℕ ℕ, xh.root = some 1 → xh.mem 1 = ⟨none, none, none⟩ → ∀ a, InHeap xh a → a = 1 := by
    rintro xh hroot hleaf a ⟨b, hb, hr⟩
    obtain rfl : 1 = b := Option.some.inj (hroot.symm.trans hb)
    cases hr.cases_head with
    | inl he => exact he.symm
    | inr hr =>
      obtain ⟨c, ⟨s, hs⟩, -⟩ := hr
      unfold children at hs
      rw [hleaf] at hs
      cases s <;> cases hs
  refine heap_shares_memory _ _ _ _ _ (.cons ⟨?_, by decide⟩ rfl ?_)
  · rintro ⟨b, hb, -⟩
    cases hb
  refine .cons ⟨?_, by decide⟩ rfl (.cons ⟨?_, by decide⟩ rfl (.last ⟨fun _ => rfl, by decide⟩))
  · intro a ha
    obtain rfl := honly _ rfl rfl a ha
    exact ⟨rfl, rfl⟩
  · intro h
    exact absurd (honly _ rfl rfl 2 h) (by decide)

end Clear

end Libtarp.Explicit
