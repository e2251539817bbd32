import Libtarp.Heap.ExplicitBubble
import Libtarp.Lib.Linked

/-!
# Runs of calls on an explicit heap

* `exec_shaped`: one call keeps the tree complete, and the order where the call does no harm.
* `xheap_wellFormed_after`: after every call of a run the nodes are linked as a complete tree, in
  order.

Taking a node out of the middle exchanges it with the last one, which is then only moved
down. Where it outranks the node above it would have to move up.
-/

namespace Libtarp.Explicit

open Function Lib BinHeap

variable {ν κ : Type} {cmp : κ → κ → Ordering} {xh : XHeap ν κ} {f : ℕ → ν} {n m rounds : ℕ}

/-- What holds between calls: the nodes are linked as a complete tree, of as many as are
counted, and no node outranks the one above it. -/
def WellFormed (cmp : κ → κ → Ordering) (xh : XHeap ν κ) : Prop :=
  ∃ f, Complete xh.mem f xh.count ∧ xh.root = slot f xh.count 0 ∧
    Ordered (outranks xh.type cmp xh.prio) f xh.count

def children (mem : Mem ν) (x : ν) : Side → Option ν
  | .left => (mem x).l
  | .right => (mem x).r

/-- A node of the heap. -/
def InHeap (xh : XHeap ν κ) (x : ν) : Prop := Reachable (children xh.mem) xh.root x

/-- The last node does not outrank the parent of `node`. -/
def FitsBelow (cmp : κ → κ → Ordering) (xh : XHeap ν κ) (node : ν) : Prop :=
  ∀ last p, findNthNode xh.mem xh.root xh.count xh.count = .ok (some last) → (xh.mem node).p = some p →
    ¬outranks xh.type cmp xh.prio last p

/-- A call does no harm: it pushes a node that is not in the heap, or names one that is, and
what it takes out leaves a place that the last node fits in. A container is freed only where
a destructor was given. -/
def Harmless (cmp : κ → κ → Ordering) (c : Call ν κ) (xh : XHeap ν κ) : Prop :=
  match c with
  | .pushNode node _ => ¬InHeap xh node
  | .popRoot => True
  | .removeNode node freeContainer => (freeContainer = true → xh.dtor = true) ∧ InHeap xh node ∧
      FitsBelow cmp xh node
  | .priochange node _ => InHeap xh node

/-- The nodes `f 0`, …, in level order, of a heap that need not be in order; `m` bounds their number. -/
structure Shaped (xh : XHeap ν κ) (f : ℕ → ν) (m : ℕ) : Prop where
  complete : Complete xh.mem f xh.count
  root : xh.root = slot f xh.count 0
  count : xh.count ≤ m

/-- The nodes `f 0`, …, in level order, of a heap in order; `m` bounds their number. -/
structure Kept (cmp : κ → κ → Ordering) (xh : XHeap ν κ) (f : ℕ → ν) (m : ℕ) : Prop where
  complete : Complete xh.mem f xh.count
  root : xh.root = slot f xh.count 0
  count : xh.count ≤ m
  ordered : Ordered (outranks xh.type cmp xh.prio) f xh.count

theorem Kept.wellFormed (hk : Kept cmp xh f m) : WellFormed cmp xh := ⟨f, hk.complete, hk.root, hk.ordered⟩

theorem Kept.shaped (hk : Kept cmp xh f m) : Shaped xh f m := ⟨hk.complete, hk.root, hk.count⟩

theorem Shaped.weaken (hs : Shaped xh f m) (hn : xh.count ≤ n) : Shaped xh f n := ⟨hs.complete, hs.root, hn⟩

theorem Kept.weaken (hk : Kept cmp xh f m) (hn : xh.count ≤ n) : Kept cmp xh f n :=
  ⟨hk.complete, hk.root, hn, hk.ordered⟩

theorem shaped_xheapInit (f : ℕ → ν) (type : HeapOrder) (dtor : Bool) (mem : Mem ν) (prio : ν → κ) :
    Shaped (xheapInit type dtor mem prio) f 0 :=
  ⟨complete_zero _ _, rfl, le_rfl⟩

/-- The order of the nodes `f 0`, … of one heap becomes that of the nodes `g 0`, … of another, where the comparator is
one. -/
def KeepsOrder (cmp : κ → κ → Ordering) (xh : XHeap ν κ) (f : ℕ → ν) (xh' : XHeap ν κ) (g : ℕ → ν) : Prop :=
  Std.TransCmp cmp → Ordered (outranks xh.type cmp xh.prio) f xh.count →
    Ordered (outranks xh'.type cmp xh'.prio) g xh'.count

theorem Shaped.kept {xh' : XHeap ν κ} {g : ℕ → ν} [hcmp : Std.TransCmp cmp] (hs : Shaped xh' g m)
    (horder : KeepsOrder cmp xh f xh' g) (hk : Kept cmp xh f n) : Kept cmp xh' g m :=
  ⟨hs.complete, hs.root, hs.count, horder hcmp hk.ordered⟩

theorem kept_xheapInit (f : ℕ → ν) (type : HeapOrder) (dtor : Bool) (mem : Mem ν) (prio : ν → κ) :
    Kept cmp (xheapInit type dtor mem prio) f 0 :=
  ⟨complete_zero _ _, rfl, le_rfl, fun i _ hi => absurd hi (by simp [xheapInit])⟩

/-- The nodes of a complete tree are those that can be reached. -/
theorem Complete.reachable_iff {mem : Mem ν} (h : Complete mem f n) {x : ν} :
    Reachable (children mem) (slot f n 0) x ↔ ∃ i < n, f i = x := by
  constructor
  · rintro ⟨b, hb, hr⟩
    obtain ⟨h0, rfl⟩ := slot_eq_some hb
    induction hr with
    | refl => exact ⟨0, h0, rfl⟩
    | tail _ hxy ih =>
      obtain ⟨i, hi, rfl⟩ := ih
      obtain ⟨s, hs⟩ := hxy
      cases s with
      | left => exact (h.fits.left _ _ ⟨i, hi, rfl⟩ hs).1
      | right => exact (h.fits.right _ _ ⟨i, hi, rfl⟩ hs).1
  · rintro ⟨i, hi, rfl⟩
    refine ⟨f 0, slot_lt (by omega), ?_⟩
    -- every node but the root is the child of one of a smaller number
    induction i using Nat.strongRecOn with
    | ind i ih =>
      by_cases h0 : i = 0
      · rw [h0]
      · have hlt := up_lt (show 0 < i by omega)
        refine (ih (up i) hlt (by omega)).tail ?_
        have hlink := h.links (up i) (by omega)
        rcases (up_eq_iff (show 0 < i by omega)).1 rfl with hc | hc
        · refine ⟨.left, ?_⟩
          unfold children
          rw [hlink]
          simp only [linksAt, ← hc]
          exact slot_lt hi
        · refine ⟨.right, ?_⟩
          unfold children
          rw [hlink]
          simp only [linksAt, ← hc]
          exact slot_lt hi

theorem Shaped.inHeap_iff (hs : Shaped xh f m) {x : ν} : InHeap xh x ↔ ∃ i < xh.count, f i = x := by
  unfold InHeap
  rw [hs.root]
  exact hs.complete.reachable_iff

/-- What a call leaves alone. -/
structure Same (xh xh' : XHeap ν κ) : Prop where
  type : xh'.type = xh.type
  dtor : xh'.dtor = xh.dtor
  prio : xh'.prio = xh.prio

variable [DecidableEq ν]

/-- **`bubble_down`** puts everything in order below `k`. The number of nodes is not the one
counted while a node is taken out. -/
theorem bubbleDown_spec (cmp : κ → κ → Ordering) (xh : XHeap ν κ) {k : ℕ} (hc : Complete xh.mem f n)
    (hroot : xh.root = some (f 0)) (h0 : xh.count ≠ 0) (hk : k < n) (hr : n ≤ rounds) :
    ∃ mem' g, bubbleDown cmp rounds xh (some (f k)) = .ok { xh with mem := mem', root := some (g 0) } ∧
      Complete mem' g n ∧ SameValues f g n ∧
      (Std.TransCmp cmp → DownOrder (outranks xh.type cmp xh.prio) f n k →
        Ordered (outranks xh.type cmp xh.prio) g n) := by
  obtain ⟨mem', he, hc'⟩ := swapDownWhileUnordered_spec (outranks xh.type cmp xh.prio) hc hk
    (show n ≤ rounds + k by omega)
  refine ⟨mem', _, ?_, hc', siftDown_same, ?_⟩
  · unfold bubbleDown
    simp only [if_neg h0, hroot, he]
    rfl
  · intro hcmp ho
    exact siftDown_ordered (ranking_outranks cmp xh.type xh.prio) ho (by omega)

/-- **`bubble_up`** puts everything in order above `k`. -/
theorem bubbleUp_spec (cmp : κ → κ → Ordering) (xh : XHeap ν κ) {k : ℕ} (hc : Complete xh.mem f n)
    (hroot : xh.root = some (f 0)) (h0 : xh.count ≠ 0) (hk : k < n) (hr : n ≤ rounds) :
    ∃ mem' g, bubbleUp cmp rounds xh (f k) = .ok { xh with mem := mem', root := some (g 0) } ∧
      Complete mem' g n ∧ SameValues f g n ∧
      (Std.TransCmp cmp → UpOrder (outranks xh.type cmp xh.prio) f n k →
        Ordered (outranks xh.type cmp xh.prio) g n) := by
  obtain ⟨mem', he, hc', hroot'⟩ := swapUpLoop_spec (outranks xh.type cmp xh.prio) hc hk
    (show k ≤ rounds by omega)
  refine ⟨mem', _, ?_, hc', siftUp_same hk, ?_⟩
  · unfold bubbleUp swapUpWhileUnordered
    simp only [if_neg h0, hroot, he, bind, Except.bind, pure, Except.pure, hroot']
  · intro hcmp ho
    exact siftUp_ordered (ranking_outranks cmp xh.type xh.prio) ho (by omega)

omit [DecidableEq ν] in
/-- The node at `i` changes places with the last one and is gone. -/
theorem without_exchange {g : ℕ → ν} {i : ℕ} (hd : Distinct f (n + 1)) (hi : i ≤ n) (hg : g = exchange f i n) :
    Without (f i) f (n + 1) g n := by
  subst hg
  exact hd.without_last hi (fun j hj hji => exchange_of_ne f hji (by omega)) fun _ => exchange_left f i n

omit [DecidableEq ν] in
/-- The last node takes the place `i`, and the node there is gone. -/
theorem Ordered.exchange_last [Std.TransCmp cmp] {i : ℕ} (ho : Ordered (outranks xh.type cmp xh.prio) f (n + 1)) (hi : i < n)
    (hlast : 0 < i → ¬outranks xh.type cmp xh.prio (f n) (f (up i))) :
    DownOrder (outranks xh.type cmp xh.prio) (exchange f i n) n i := by
  refine ho.downOrder (ranking_outranks cmp xh.type xh.prio) (by omega) ?_ ?_
  · intro a ha b hb hai hbi
    rw [exchange_of_ne f hai (by omega), exchange_of_ne f hbi (by omega)]
  · intro h0 _
    have := up_lt h0
    rw [exchange_left, exchange_of_ne f (by omega) (by omega)]
    exact hlast h0

/-- The last node takes the place of the root, and goes down from there. -/
theorem popRoot_last (cmp : κ → κ → Ordering) (hc : Complete xh.mem f (n + 1)) (hroot : xh.root = some (f 0))
    (hcount : xh.count = n + 1) (h0 : 0 < n) (hr : n ≤ rounds) :
    ∃ mem' g, popRoot cmp rounds xh = .ok ({ xh with mem := mem', root := some (g 0), count := n }, some (f 0)) ∧
      Complete mem' g n ∧ Without (f 0) f (n + 1) g n ∧
      (Std.TransCmp cmp → Ordered (outranks xh.type cmp xh.prio) f (n + 1) →
        Ordered (outranks xh.type cmp xh.prio) g n) := by
  have hfind : findNthNode xh.mem (some (f 0)) xh.count xh.count = .ok (some (f n)) := by
    have := findNthNode_spec hc xh.count xh.count (by omega) (by omega) le_rfl
    rwa [show xh.count - 1 = n by omega] at this
  obtain ⟨mem₁, hswap, hc₁⟩ := hc.swapNodes (i := n) (j := 0) (by omega) (by omega) (by omega) (by omega)
  obtain ⟨hp, hc₂⟩ := hc₁.cutLeaf h0
  rw [exchange_left] at hp hc₂
  have hcomm : exchange f n 0 = exchange f 0 n := by unfold exchange; rw [Equiv.swap_comm]
  set g := exchange f n 0 with hg
  have hg0 : f n = g 0 := (exchange_right f n 0).symm
  -- the count is still the old one while the node goes down
  obtain ⟨mem', g', hb, hc', hvalues, ho'⟩ := bubbleDown_spec cmp (k := 0)
    { xh with root := some (f n), mem := cutLeaf mem₁ (g (up n)) (f 0) } hc₂ (by rw [hg0])
    (by show xh.count ≠ 0; omega) h0 hr
  have hlast : ¬((xh.mem (f n)).p.isNone = true ∨ childless (xh.mem (f 0)) = true) := by
    rw [hc.links n (by omega), hc.links 0 (by omega), childless_linksAt]
    simp [linksAt]; omega
  rw [← hg0] at hb
  refine ⟨mem', g', ?_, hc', (without_exchange hc.distinct (Nat.zero_le n) (hg.trans hcomm)).same hvalues, ?_⟩
  · unfold popRoot
    rw [if_neg (by omega), if_neg (by omega)]
    simp only [hroot, hfind, bind, Except.bind]
    rw [if_neg hlast]
    simp only [hswap, hp, hb, show xh.count - 1 = n by omega]
    rfl
  · intro hcmp ho
    refine ho' hcmp ?_
    rw [hcomm]
    exact Ordered.exchange_last ho h0 fun h => absurd h (by omega)

omit [DecidableEq ν] in
theorem shaped_of_complete {mem' : Mem ν} (hc : Complete mem' f n) (h0 : 0 < n) :
    Shaped { xh with mem := mem', root := some (f 0), count := n } f n :=
  ⟨hc, (slot_lt h0).symm, le_rfl⟩

theorem popRoot_shaped (cmp : κ → κ → Ordering) (hs : Shaped xh f m) (hr : xh.count ≤ rounds) :
    ∃ xh' g, popRoot cmp rounds xh = .ok (xh', slot f xh.count 0) ∧ Shaped xh' g m ∧ Same xh xh' ∧
      KeepsOrder cmp xh f xh' g ∧ (0 < xh.count → Without (f 0) f xh.count g xh'.count) := by
  have hle := hs.count
  have hc := hs.complete
  have hroot := hs.root
  obtain h0 | h1 | ⟨n, hn, hpos⟩ : xh.count = 0 ∨ xh.count = 1 ∨ ∃ n, xh.count = n + 1 ∧ 0 < n := by
    rcases Nat.lt_or_ge xh.count 2 with h | h
    · omega
    · exact .inr (.inr ⟨xh.count - 1, by omega, by omega⟩)
  · refine ⟨xh, f, ?_, hs, ⟨rfl, rfl, rfl⟩, fun _ ho => ho, fun hpos => absurd h0 (by omega)⟩
    unfold popRoot
    rw [if_pos h0, slot_ge (by omega)]
  · refine ⟨{ xh with root := none, count := 0 }, f, ?_, ⟨complete_zero _ _, rfl, Nat.zero_le m⟩, ⟨rfl, rfl, rfl⟩, ?_, ?_⟩
    · unfold popRoot
      rw [if_neg (by omega), if_pos h1, hroot, h1]
    · intro _ _ i _ hi
      exact absurd hi (Nat.not_lt_zero i)
    · intro _
      rw [h1]
      exact without_only _ _
  · rw [hn] at hc hroot
    rw [slot_lt (by omega)] at hroot
    obtain ⟨mem', g, hpop, hc', hwithout, ho'⟩ := popRoot_last cmp hc hroot hn hpos (by omega : n ≤ rounds)
    refine ⟨_, g, ?_, (shaped_of_complete hc' hpos).weaken (by show n ≤ m; omega), ⟨rfl, rfl, rfl⟩, ?_, ?_⟩
    · rw [hpop, slot_lt (by omega)]
    · intro hcmp ho
      rw [hn] at ho
      exact ho' hcmp ho
    · intro _
      rw [hn]
      exact hwithout

/-- A node other than the root changes places with the last one and is cut off. -/
theorem removeNode_middle (cmp : κ → κ → Ordering) {i : ℕ} (hc : Complete xh.mem f (n + 1)) (hroot : xh.root = some (f 0))
    (hcount : xh.count = n + 1) (hr : n ≤ rounds) (h0 : 0 < i) (hi : i ≤ n) :
    ∃ mem₁ p mem' g, swapNodes xh.mem (f i) (f n) = .ok mem₁ ∧ (mem₁ (f i)).p = some p ∧
      bubbleDown cmp rounds { xh with mem := cutLeaf mem₁ p (f i) } (some (f n)) =
        .ok { xh with mem := mem', root := some (g 0) } ∧
      Complete mem' g n ∧ Without (f i) f (n + 1) g n ∧
      (Std.TransCmp cmp → Ordered (outranks xh.type cmp xh.prio) f (n + 1) →
        ¬outranks xh.type cmp xh.prio (f n) (f (up i)) → Ordered (outranks xh.type cmp xh.prio) g n) := by
  rcases Nat.lt_or_eq_of_le hi with hin | rfl
  · obtain ⟨mem₁, hswap, hc₁⟩ := hc.swapNodes (i := i) (j := n) (by omega) (by omega) (by omega) (by omega)
    obtain ⟨hp, hc₂⟩ := hc₁.cutLeaf (by omega)
    rw [exchange_right] at hp hc₂
    have hg0 : exchange f i n 0 = f 0 := exchange_of_ne f (by omega) (by omega)
    obtain ⟨mem', g, hb, hc', hvalues, ho'⟩ := bubbleDown_spec cmp (k := i)
      { xh with mem := cutLeaf mem₁ (exchange f i n (up n)) (f i) } hc₂ (by rw [hg0]; exact hroot)
      (by show xh.count ≠ 0; omega) hin hr
    rw [exchange_left] at hb
    refine ⟨mem₁, _, mem', g, hswap, hp, hb, hc', (without_exchange hc.distinct hi rfl).same hvalues, ?_⟩
    intro hcmp ho hlast
    exact ho' hcmp (Ordered.exchange_last ho hin fun _ => hlast)
  · -- the last node itself: it is not in the tree any more, but has no children to go below
    obtain ⟨hp, hc₂⟩ := hc.cutLeaf h0
    refine ⟨xh.mem, _, _, f, swapNodes_self hc.fits ⟨i, by omega, rfl⟩, hp, ?_, hc₂,
      hc.distinct.without_last le_rfl (fun _ _ _ => rfl) fun _ => rfl, fun _ ho _ j hj hji => ho j hj (by omega)⟩
    have hne : f i ≠ f (up i) := fun he => by
      have := up_lt h0
      have := hc.distinct i (by omega) _ (by omega) he; omega
    have hat : cutLeaf xh.mem (f (up i)) (f i) (f i) = linksAt f (i + 1) i := by
      rw [← hc.links i (by omega)]
      unfold cutLeaf
      split_ifs <;> rw [update_of_ne hne]
    have hloop : ∀ root, swapDownWhileUnordered (outranks xh.type cmp xh.prio) (f i) rounds
        (cutLeaf xh.mem (f (up i)) (f i)) root = .ok (cutLeaf xh.mem (f (up i)) (f i), root) := fun root => by
      have hleaf : childless (cutLeaf xh.mem (f (up i)) (f i) (f i)) = true := by
        rw [hat, childless_linksAt]; simp; omega
      cases rounds <;> rw [swapDownWhileUnordered, if_pos hleaf]
    unfold bubbleDown
    simp only
    rw [if_neg (by omega), hloop, hroot]
    rfl

/-- The order is kept where the last node fits in. -/
theorem removeNode_shaped (cmp : κ → κ → Ordering) {i : ℕ} (hs : Shaped xh f m) (hr : xh.count ≤ rounds) (hi : i < xh.count)
    {freeContainer : Bool} (hf : freeContainer = true → xh.dtor = true) :
    ∃ xh' g, removeNode cmp rounds xh (f i) freeContainer = .ok xh' ∧ Shaped xh' g m ∧ Same xh xh' ∧
      (FitsBelow cmp xh (f i) → KeepsOrder cmp xh f xh' g) ∧ Without (f i) f xh.count g xh'.count := by
  have hle := hs.count
  have hdtor : ∀ xh' : XHeap ν κ, xh'.dtor = xh.dtor → ¬(freeContainer && !xh'.dtor) = true := by
    intro xh' hd' hc
    rw [Bool.and_eq_true] at hc
    rw [hd', hf hc.1] at hc
    exact absurd hc.2 (by simp)
  obtain ⟨n, hn⟩ : ∃ n, xh.count = n + 1 := ⟨xh.count - 1, by omega⟩
  have hc := hs.complete
  rw [hn] at hc
  have hroot : xh.root = some (f 0) := by rw [hs.root, slot_lt (by omega)]
  have hfind : findNthNode xh.mem xh.root xh.count xh.count = .ok (some (f n)) := by
    have := findNthNode_spec hc xh.count xh.count (by omega) (by omega) le_rfl
    rwa [show xh.count - 1 = n by omega, ← hroot] at this
  unfold removeNode
  rw [if_neg (by omega)]
  simp only [hfind, bind, Except.bind]
  -- the root is popped, and any other node changes places with the last
  by_cases h0 : i = 0
  · obtain ⟨xh', g, hpop, hs', hsame, horder, hwithout⟩ := popRoot_shaped cmp hs hr
    rw [if_pos (by rw [h0, hroot])]
    simp only [hpop, pure, Except.pure]
    rw [h0]
    exact ⟨xh', g, if_neg (hdtor xh' hsame.dtor), hs', hsame, fun _ => horder, hwithout (by omega)⟩
  · have hpi : (xh.mem (f i)).p = some (f (up i)) := by
      rw [hc.links i (by omega)]
      simp only [linksAt]
      rw [if_neg h0]
    obtain ⟨mem₁, p, mem', g, hswap, hp, hb, hc', hwithout, ho'⟩ := removeNode_middle cmp (i := i) hc hroot hn
      (show n ≤ rounds by omega) (by omega) (by omega)
    rw [if_neg fun he => h0 (hc.distinct i (by omega) 0 (by omega) (by rw [hroot] at he; exact Option.some.inj he))]
    simp only [hswap, hp, hb, pure, Except.pure, show xh.count - 1 = n by omega]
    refine ⟨_, g, if_neg (hdtor _ rfl), (shaped_of_complete hc' (by omega)).weaken (by show n ≤ m; omega), ⟨rfl, rfl, rfl⟩,
      ?_, ?_⟩
    · intro hfit hcmp ho
      rw [hn] at ho
      exact ho' hcmp ho (hfit _ _ hfind hpi)
    · rw [hn]
      exact hwithout

theorem complete_one (mem : Mem ν) (node : ν) : Complete (update mem node ⟨none, none, none⟩) (fun _ => node) 1 := by
  constructor
  · intro i hi
    obtain rfl : i = 0 := by omega
    simp [linksAt, slot]
  · intro a ha b hb _
    omega

theorem pushNode_shaped (cmp : κ → κ → Ordering) {node : ν} (prio : κ) (hs : Shaped xh f m) (hr : xh.count < rounds)
    (hn : ∀ i < xh.count, f i ≠ node) :
    ∃ xh' g, pushNode cmp rounds (xh.setPrio node prio) node = .ok xh' ∧ Shaped xh' g (m + 1) ∧
      Same (xh.setPrio node prio) xh' ∧ KeepsOrder cmp xh f xh' g ∧ With node f xh.count g xh'.count := by
  have hle := hs.count
  have hag : ∀ a < xh.count, ∀ b < xh.count, outranks xh.type cmp (update xh.prio node prio) (f a) (f b) =
      outranks xh.type cmp xh.prio (f a) (f b) :=
    fun a ha b hb => outranks_update prio (hn a ha) (hn b hb)
  have hcount : (xh.setPrio node prio).count = xh.count := rfl
  simp only [pushNode]
  by_cases h0 : xh.count = 0
  · rw [if_pos (by omega)]
    refine ⟨_, fun _ => node, rfl, ⟨?_, ?_, ?_⟩, ⟨rfl, rfl, rfl⟩, ?_, ?_⟩
    · show Complete _ (fun _ => node) (xh.count + 1)
      rw [h0]
      exact complete_one xh.mem node
    · simp [slot]
    · show xh.count + 1 ≤ m + 1
      omega
    · intro _ _ i hi hin
      have hin' : i < xh.count + 1 := hin
      omega
    · show With node f xh.count (fun _ => node) (xh.count + 1)
      exact with_last (g := fun _ => node) (n := xh.count) fun j hj => absurd hj (by omega)
  · have hlt := up_lt (show 0 < xh.count by omega)
    have hroot : xh.root = some (f 0) := by rw [hs.root, slot_lt (by omega)]
    -- counted from 1, the new node's parent has half its number
    have hhalf : (xh.count + 1) >>> 1 = up xh.count + 1 := by
      rw [Nat.shiftRight_eq_div_pow, pow_one]; unfold up; omega
    have hfind := findNthNode_spec hs.complete (xh.count + 1) ((xh.count + 1) >>> 1)
      (by omega) (by omega) (by omega)
    rw [hhalf, Nat.add_sub_cancel] at hfind
    have hc := hs.complete.addLeaf (by omega) hn
    obtain ⟨mem', g, hb, hc', hvalues, ho'⟩ := bubbleUp_spec cmp (k := xh.count)
      { xh with
        prio := update xh.prio node prio, count := xh.count + 1, mem := addLeaf xh.mem (f (up xh.count)) node } hc
      (by rw [update_of_ne (by omega)]; exact hroot) (by simp) (by omega)
      (show xh.count + 1 ≤ rounds by omega)
    rw [update_self] at hb
    rw [if_neg (by omega)]
    simp only [XHeap.setPrio, hhalf, hroot, hfind, bind, Except.bind]
    rw [hroot] at hb
    refine ⟨_, g, hb, ⟨hc', by simp [slot], by show xh.count + 1 ≤ m + 1; omega⟩, ⟨rfl, rfl, rfl⟩, ?_, ?_⟩
    · intro hcmp ho
      refine ho' hcmp (Ordered.append ho fun a ha b hb => ?_)
      rw [update_of_ne (by omega), update_of_ne (by omega)]
      exact hag a ha b hb
    · have hwith := with_last (f := f) (g := update f xh.count node) (n := xh.count) fun j hj => update_of_ne (by omega) ..
      rw [update_self] at hwith
      exact hwith.same hvalues

theorem priochange_shaped (cmp : κ → κ → Ordering) {i : ℕ} (prio : κ) (hs : Shaped xh f m) (hr : xh.count ≤ rounds)
    (hi : i < xh.count) :
    ∃ xh' g, priochange cmp rounds (xh.setPrio (f i) prio) (f i) = .ok xh' ∧ Shaped xh' g m ∧
      Same (xh.setPrio (f i) prio) xh' ∧ KeepsOrder cmp xh f xh' g ∧ xh'.count = xh.count ∧
      SameValues f g xh.count := by
  set node := f i with hnode
  have hne : ∀ a < xh.count, a ≠ i → f a ≠ node := fun a ha hai he =>
    hai (hs.complete.distinct a ha i hi he)
  have hag : ∀ a < xh.count, ∀ b < xh.count, a ≠ i → b ≠ i →
      outranks xh.type cmp (update xh.prio node prio) (f a) (f b) =
        outranks xh.type cmp xh.prio (f a) (f b) :=
    fun a ha b hb hai hbi => outranks_update prio (hne a ha hai) (hne b hb hbi)
  have hroot : xh.root = some (f 0) := by rw [hs.root, slot_lt (by omega)]
  have hle := hs.count
  -- down, where the node does not outrank the one above
  have hdown : (0 < i → ¬outranks xh.type cmp (update xh.prio node prio) node (f (up i))) →
      ∃ xh' g, bubbleDown cmp rounds (xh.setPrio node prio) (some node) = .ok xh' ∧ Shaped xh' g m ∧
        Same (xh.setPrio node prio) xh' ∧ KeepsOrder cmp xh f xh' g ∧ xh'.count = xh.count ∧
        SameValues f g xh.count := by
    intro hab
    obtain ⟨mem', g, hb, hc', hvalues, ho'⟩ := bubbleDown_spec cmp (xh.setPrio node prio) hs.complete hroot
      (by show xh.count ≠ 0; omega) hi hr
    refine ⟨_, g, hb, ⟨hc', (slot_lt (by show 0 < xh.count; omega)).symm, hle⟩, ⟨rfl, rfl, rfl⟩, ?_, rfl, hvalues⟩
    intro hcmp ho
    exact ho' hcmp (ho.downOrder (ranking_outranks cmp xh.type xh.prio) le_rfl hag fun h0 _ => hab h0)
  -- up, where it does
  have hup : 0 < i → outranks xh.type cmp (update xh.prio node prio) node (f (up i)) →
      ∃ xh' g, bubbleUp cmp rounds (xh.setPrio node prio) node = .ok xh' ∧ Shaped xh' g m ∧
        Same (xh.setPrio node prio) xh' ∧ KeepsOrder cmp xh f xh' g ∧ xh'.count = xh.count ∧
        SameValues f g xh.count := by
    intro h0 hab
    obtain ⟨mem', g, hb, hc', hvalues, ho'⟩ := bubbleUp_spec cmp (xh.setPrio node prio) hs.complete hroot
      (by show xh.count ≠ 0; omega) hi hr
    refine ⟨_, g, hb, ⟨hc', (slot_lt (by show 0 < xh.count; omega)).symm, hle⟩, ⟨rfl, rfl, rfl⟩, ?_, rfl, hvalues⟩
    intro hcmp ho
    have R' := ranking_outranks cmp xh.type (update xh.prio node prio)
    exact ho' hcmp (ho.upOrder (ranking_outranks cmp xh.type xh.prio) R' h0 hag (R'.asymm hab))
  -- nowhere, where neither outranks the other
  have hstay : 0 < i → cmp (update xh.prio node prio node) (update xh.prio node prio (f (up i))) = .eq →
      KeepsOrder cmp xh f (xh.setPrio node prio) f := by
    intro h0 heq hcmp ho
    have R' := ranking_outranks cmp xh.type (update xh.prio node prio)
    have hab : ¬outranks xh.type cmp (update xh.prio node prio) node (f (up i)) := by
      unfold outranks; rw [heq]; cases xh.type <;> decide
    have hba : ¬outranks xh.type cmp (update xh.prio node prio) (f (up i)) node := by
      unfold outranks; rw [Std.OrientedCmp.eq_symm heq]; cases xh.type <;> decide
    exact (ho.upOrder (ranking_outranks cmp xh.type xh.prio) R' h0 hag hba).ordered fun _ => hab
  have hp : ((xh.setPrio node prio).mem node).p = if i = 0 then none else some (f (up i)) := by
    show (xh.mem node).p = _
    rw [hnode, hs.complete.links i hi]
    rfl
  unfold priochange
  simp only [hp, show (xh.setPrio node prio).type = xh.type from rfl,
    show (xh.setPrio node prio).prio = update xh.prio node prio from rfl]
  by_cases h0 : i = 0
  · rw [if_pos h0]
    cases xh.type <;> exact hdown fun h0' => absurd h0' (by omega)
  · rw [if_neg h0]
    simp only
    cases hc : cmp (update xh.prio node prio node) (update xh.prio node prio (f (up i))) with
    | eq =>
      cases xh.type <;>
        exact ⟨_, f, rfl, ⟨hs.complete, hs.root, hle⟩, ⟨rfl, rfl, rfl⟩, hstay (by omega) hc, rfl, .refl _ _⟩
    | lt =>
      cases ht : xh.type with
      | min => exact hup (by omega) (by simp only [outranks, ht, hc]; decide)
      | max => exact hdown fun _ => by simp only [outranks, ht, hc]; decide
    | gt =>
      cases ht : xh.type with
      | min => exact hdown fun _ => by simp only [outranks, ht, hc]; decide
      | max => exact hup (by omega) (by simp only [outranks, ht, hc]; decide)

/-- What a caller has to see to, whatever the order: a node that is pushed is not in the heap, one that is named is, and
a container is freed only where a destructor was given. -/
def Valid (c : Call ν κ) (xh : XHeap ν κ) : Prop :=
  match c with
  | .pushNode node _ => ¬InHeap xh node
  | .popRoot => True
  | .removeNode node freeContainer => (freeContainer = true → xh.dtor = true) ∧ InHeap xh node
  | .priochange node _ => InHeap xh node

omit [DecidableEq ν] in
theorem Harmless.valid {c : Call ν κ} (h : Harmless cmp c xh) : Valid c xh := by
  cases c with
  | pushNode => exact h
  | popRoot => trivial
  | removeNode => exact ⟨h.1, h.2.1⟩
  | priochange => exact h

/-- **One call** keeps the heap complete, and in order where it does no harm. -/
theorem exec_shaped (cmp : κ → κ → Ordering) {c : Call ν κ} (hs : Shaped xh f m) (hr : m < rounds) (hc : Valid c xh) :
    ∃ xh' g r, exec cmp rounds c xh = .ok (xh', r) ∧ Shaped xh' g (m + 1) ∧
      (Harmless cmp c xh → KeepsOrder cmp xh f xh' g) := by
  have hle := hs.count
  cases c with
  | pushNode node prio =>
    obtain ⟨xh', g, he, hs', -, horder, -⟩ := pushNode_shaped cmp prio hs (show xh.count < rounds by omega)
      fun i hi hin => hc (hs.inHeap_iff.2 ⟨i, hi, hin⟩)
    exact ⟨xh', g, none, by simp only [exec, he]; rfl, hs', fun _ => horder⟩
  | popRoot =>
    obtain ⟨xh', g, he, hs', -, horder, -⟩ := popRoot_shaped cmp hs (show xh.count ≤ rounds by omega)
    exact ⟨xh', g, _, he, hs'.weaken (by have := hs'.count; omega), fun _ => horder⟩
  | removeNode node freeContainer =>
    obtain ⟨hf, hin⟩ := hc
    obtain ⟨i, hi, rfl⟩ := hs.inHeap_iff.1 hin
    obtain ⟨xh', g, he, hs', -, horder, -⟩ := removeNode_shaped cmp hs (show xh.count ≤ rounds by omega) hi hf
    exact ⟨xh', g, none, by simp only [exec, he]; rfl, hs'.weaken (by have := hs'.count; omega), fun h => horder h.2.2⟩
  | priochange node prio =>
    obtain ⟨i, hi, rfl⟩ := hs.inHeap_iff.1 hc
    obtain ⟨xh', g, he, hs', -, horder, -⟩ := priochange_shaped cmp prio hs (show xh.count ≤ rounds by omega) hi
    exact ⟨xh', g, none, by simp only [exec, he]; rfl, hs'.weaken (by have := hs'.count; omega), fun _ => horder⟩

theorem exec_kept [Std.TransCmp cmp] {c : Call ν κ} (hk : Kept cmp xh f m) (hr : m < rounds) (hc : Harmless cmp c xh) :
    ∃ xh' g r, exec cmp rounds c xh = .ok (xh', r) ∧ Kept cmp xh' g (m + 1) := by
  obtain ⟨xh', g, r, he, hs', horder⟩ := exec_shaped cmp hk.shaped hr hc.valid
  exact ⟨xh', g, r, he, hs'.kept (horder hc) hk⟩

/-- **After every call of a run whose calls do no harm, the nodes are linked as a complete
tree of as many as are counted, in order.** -/
theorem xheap_wellFormed_after [Std.TransCmp cmp] [Nonempty ν] (type : HeapOrder) (dtor : Bool) (mem : Mem ν) (prio : ν → κ)
    (cs : List (Call ν κ)) (hr : cs.length ≤ rounds)
    (hm : Meets (exec cmp rounds) (Harmless cmp) cs (xheapInit type dtor mem prio)) :
    After (exec cmp rounds) (WellFormed cmp) cs (xheapInit type dtor mem prio) := by
  obtain ⟨x⟩ := ‹Nonempty ν›
  refine after_of_step (fun n xh => ∃ f, Kept cmp xh f n) ?_ ?_
    ⟨fun _ => x, kept_xheapInit _ type dtor mem prio⟩ hm
  · rintro n c xh hn ⟨f, hk⟩ hc
    obtain ⟨xh', g, r, he, hk'⟩ := exec_kept hk (show n < rounds by omega) hc
    exact ⟨xh', r, he, g, hk'⟩
  · rintro n xh ⟨f, hk⟩
    exact hk.wellFormed

theorem xheap_wellFormed_after_three : After (exec (compare : ℕ → ℕ → Ordering) 3) (WellFormed compare)
    [.pushNode 1 10, .pushNode 2 20, .removeNode 2 false]
    (xheapInit .min false (fun _ => ⟨none, none, none⟩) (fun _ => 0)) := by
  refine xheap_wellFormed_after _ _ _ _ _ (by decide) (.cons ?_ rfl ?_)
  · rintro ⟨b, hb, -⟩
    cases hb
  refine .cons ?_ rfl ?_
  · rintro ⟨b, hb, hr⟩
    cases hb
    cases hr.cases_head with
    | inl he => cases he
    | inr hr =>
      obtain ⟨c, ⟨s, hs⟩, -⟩ := hr
      cases s <;> cases hs
  refine .last ⟨by simp, ⟨1, rfl, .single ⟨.left, rfl⟩⟩, ?_⟩
  intro last p hl hp
  cases hl
  cases hp
  decide

/-- The last node, from the other side of the root, takes the place of a node it does not
fit in: it outranks the node above. -/
theorem removed_middle : ∃ s rs, runCalls (exec (compare : ℕ → ℕ → Ordering) 7)
      [.pushNode 0 0, .pushNode 1 10, .pushNode 2 1, .pushNode 3 11, .pushNode 4 12, .pushNode 5 2,
        .removeNode 3 false]
      (xheapInit .min false (fun _ => ⟨none, none, none⟩) (fun _ => 0)) = .ok (s, rs) ∧
    ¬WellFormed compare s := by
  have hends : endsIn (exec (compare : ℕ → ℕ → Ordering) 7)
      (fun s => s.count == 5 && s.root == some 0 && (s.mem 0).l == some 1 && (s.mem 1).l == some 5 &&
        outranks s.type compare s.prio 5 1)
      [.pushNode 0 0, .pushNode 1 10, .pushNode 2 1, .pushNode 3 11, .pushNode 4 12, .pushNode 5 2,
        .removeNode 3 false]
      (xheapInit .min false (fun _ => ⟨none, none, none⟩) (fun _ => 0)) = true := by decide +kernel
  obtain ⟨s, rs, hrun, hs⟩ := exists_of_endsIn hends
  simp only [Bool.and_eq_true, beq_iff_eq] at hs
  obtain ⟨⟨⟨⟨hcount, hroot⟩, h01⟩, h15⟩, hout⟩ := hs
  refine ⟨s, rs, hrun, ?_⟩
  rintro ⟨f, hc, hr, ho⟩
  rw [hcount] at hc hr ho
  -- the nodes of numbers 0, 1 and 3
  have h0 : f 0 = 0 := Option.some.inj (hr.symm.trans hroot)
  have h1 : f 1 = 1 := by
    have := hc.links 0 (by decide)
    rw [h0] at this
    rw [this] at h01
    exact Option.some.inj h01
  have h3 : f 3 = 5 := by
    have := hc.links 1 (by decide)
    rw [h1] at this
    rw [this] at h15
    exact Option.some.inj h15
  have := ho 3 (by decide) (by decide)
  rw [show up 3 = 1 from rfl, h1, h3] at this
  exact this hout

end Libtarp.Explicit
