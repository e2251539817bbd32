import Libtarp.Heap.ImplicitBubble

/-!
# Runs of calls on an implicit heap

* `popRoot_left`, `removeNode_left`, `pushNode_stored`, `priochange_stored`: what the calls do, also where some nodes do
  not know their position and where the order does not hold: the nodes are those that they should be.
* `popRoot_held`, `removeNode_held`, `pushNode_held`, `priochange_held`: and the order stays where there was one.
* `exec_kept`: what one call keeps.
* `heap_wellFormed_after`: after every call of a run no node outranks the one above it, and every
  node knows its position.

Taking a node out puts the last one in its place, without telling it. Only the exchanges of
`bubble_down` set its field `idx` right, so some child there must outrank it; and then it
cannot outrank the node above either, which nothing would check. Of two nodes the last
cannot be removed at all: the loop then runs past the end.
-/

namespace Libtarp.Implicit

open Function Vec Lib BinHeap

variable {ν κ : Type} {cmp : κ → κ → Ordering} {h : Heap ν κ} {v : Vect ν} {m rounds : ℕ}

/-- What holds between calls: the order, and every node knows its position. -/
def WellFormed (cmp : κ → κ → Ordering) (h : Heap ν κ) : Prop :=
  ∃ v, h.v = some v ∧ Ordered (outranks h.type cmp h.prio) v.bytes v.occupied ∧
    Placed h.idx v.bytes v.occupied

/-- The last node would go down from `i`: a child there, other than itself, outranks it. -/
def Sinks (cmp : κ → κ → Ordering) (h : Heap ν κ) (v : Vect ν) (i : ℕ) : Prop :=
  ∃ c, 0 < c ∧ c + 1 < v.occupied ∧ up c = i ∧
    outranks h.type cmp h.prio (v.bytes c) (v.bytes (v.occupied - 1))

/-- The node at `i` is the only one, or the last of three or more, or the last node would go
down from there. -/
def Vacates (cmp : κ → κ → Ordering) (h : Heap ν κ) (v : Vect ν) (i : ℕ) : Prop :=
  v.occupied = 1 ∨ Sinks cmp h v i ∨ 2 ≤ i ∧ i + 1 = v.occupied

/-- A call does no harm: it pushes a node that is not in the heap, or names one that is, and
what it takes out leaves a place that the last node can fill. A container is freed only
where a destructor was given. -/
def Harmless (cmp : κ → κ → Ordering) (c : Call ν κ) (h : Heap ν κ) : Prop :=
  ∃ v, h.v = some v ∧
    match c with
    | .pushNode node _ => ∀ i < v.occupied, v.bytes i ≠ node
    | .popRoot => Vacates cmp h v 0
    | .removeNode node freeContainer => (freeContainer = true → h.dtor = true) ∧
        ∃ i < v.occupied, v.bytes i = node ∧ Vacates cmp h v i
    | .priochange node _ => ∃ i < v.occupied, v.bytes i = node

/-- The vector `v` of a heap, with no node in it twice. -/
structure Stored (h : Heap ν κ) (v : Vect ν) : Prop where
  vec : h.v = some v
  valid : Valid v
  itemsz : v.itemsz = 8
  distinct : Distinct v.bytes v.occupied

/-- The vector `v` of a heap in order, with no node in it twice. -/
structure Held (cmp : κ → κ → Ordering) (h : Heap ν κ) (v : Vect ν) : Prop where
  vec : h.v = some v
  valid : Valid v
  itemsz : v.itemsz = 8
  ordered : Ordered (outranks h.type cmp h.prio) v.bytes v.occupied
  distinct : Distinct v.bytes v.occupied

/-- The vector `v` of a heap in order; `m` bounds its length. -/
structure Kept (cmp : κ → κ → Ordering) (h : Heap ν κ) (v : Vect ν) (m : ℕ) : Prop where
  vec : h.v = some v
  valid : Valid v
  itemsz : v.itemsz = 8
  count : v.occupied ≤ m
  ordered : Ordered (outranks h.type cmp h.prio) v.bytes v.occupied
  placed : Placed h.idx v.bytes v.occupied

theorem occupied_lt (hv : Valid v) (hi : v.itemsz = 8) : v.occupied < 2 ^ 62 := by
  have h₁ := hv.occupied
  have h₂ := hv.capacity
  rw [hi] at h₂
  have h₃ : vectMaxcap 8 < 2 ^ 62 := by decide
  omega

theorem Held.stored (hh : Held cmp h v) : Stored h v := ⟨hh.vec, hh.valid, hh.itemsz, hh.distinct⟩

theorem Stored.held (hs : Stored h v) (ho : Ordered (outranks h.type cmp h.prio) v.bytes v.occupied) : Held cmp h v :=
  ⟨hs.vec, hs.valid, hs.itemsz, ho, hs.distinct⟩

theorem Kept.held (hk : Kept cmp h v m) : Held cmp h v :=
  ⟨hk.vec, hk.valid, hk.itemsz, hk.ordered, hk.placed.distinct⟩

theorem Held.kept (hh : Held cmp h v) (hp : Placed h.idx v.bytes v.occupied) (hm : v.occupied ≤ m) :
    Kept cmp h v m :=
  ⟨hh.vec, hh.valid, hh.itemsz, hm, hh.ordered, hp⟩

theorem Kept.wellFormed (hk : Kept cmp h v m) : WellFormed cmp h := ⟨v, hk.vec, hk.ordered, hk.placed⟩

theorem kept_heapInit (type : HeapOrder) (dtor : Bool) (bytes : ℕ → ν) (idx : ν → ℕ) (prio : ν → κ) :
    ∃ v, Kept cmp (heapInit type dtor bytes idx prio) v 0 := by
  refine ⟨_, rfl, ⟨Nat.zero_le _, ?_, le_rfl⟩, rfl, le_rfl, ?_, ?_⟩
  · show minCapacity ≤ vectMaxcap 8
    decide
  · intro i _ hi
    exact absurd hi (by simp)
  · intro i hi
    exact absurd hi (by simp)

/-- Where the last node goes down from `i`, it does not outrank the node above `i`. -/
theorem Sinks.not_above (R : Ranking (outranks h.type cmp h.prio)) {i : ℕ}
    (ho : Ordered (outranks h.type cmp h.prio) v.bytes v.occupied) (hs : Sinks cmp h v i) (hi : 0 < i) :
    ¬outranks h.type cmp h.prio (v.bytes (v.occupied - 1)) (v.bytes (up i)) := by
  obtain ⟨c, hc, hcn, rfl, hout⟩ := hs
  have hlt := up_lt hc
  intro hup
  exact R.negTrans (ho c hc (by omega)) (ho (up c) hi (by omega)) (R.trans hout hup)

/-- The last node can take the place `i`: a place that the loop of `bubble_down` finds, and where it does not outrank
the node above. -/
def Fits (cmp : κ → κ → Ordering) (h : Heap ν κ) (v : Vect ν) (i : ℕ) : Prop :=
  ¬(v.occupied = 2 ∧ i = 1) ∧
    (0 < i → i + 1 < v.occupied → ¬outranks h.type cmp h.prio (v.bytes (v.occupied - 1)) (v.bytes (up i)))

theorem Vacates.fits (R : Ranking (outranks h.type cmp h.prio)) {i : ℕ}
    (ho : Ordered (outranks h.type cmp h.prio) v.bytes v.occupied) (hi : i < v.occupied) (hv : Vacates cmp h v i) :
    Fits cmp h v i := by
  rcases hv with h1 | hs | ⟨h2i, hlast⟩
  · exact ⟨fun h2 => by omega, fun h0 => by omega⟩
  · refine ⟨fun h2 => ?_, fun h0 _ => hs.not_above R ho h0⟩
    obtain ⟨c, hc, hcn, rfl, -⟩ := hs
    have := up_lt hc
    omega
  · exact ⟨fun h2 => by omega, fun _ hlt => by omega⟩

/-- What a call leaves alone. -/
structure Same (h h' : Heap ν κ) : Prop where
  type : h'.type = h.type
  dtor : h'.dtor = h.dtor
  prio : h'.prio = h.prio

/-- The node at `i` was taken out of the vector `v`, and the last one put in its place. -/
structure Left (cmp : κ → κ → Ordering) (h : Heap ν κ) (v : Vect ν) (i : ℕ) (h' : Heap ν κ) (v' : Vect ν) :
    Prop where
  stored : Stored h' v'
  same : Same h h'
  without : Without (v.bytes i) v.bytes v.occupied v'.bytes v'.occupied
  placed : Placed h.idx v.bytes v.occupied → Vacates cmp h v i → Placed h'.idx v'.bytes v'.occupied
  ordered : Std.TransCmp cmp → Ordered (outranks h.type cmp h.prio) v.bytes v.occupied → Fits cmp h v i →
    Ordered (outranks h'.type cmp h'.prio) v'.bytes v'.occupied

variable [DecidableEq ν]

/-- **`bubble_down`** puts everything in order below `k`. -/
theorem bubbleDown_stored (cmp : κ → κ → Ordering) {k : ℕ} (hv : Valid v) (hi : v.itemsz = 8)
    (hstart : 2 ≤ v.occupied ∨ k < v.occupied) (hr : v.occupied ≤ rounds) (hd : Distinct v.bytes v.occupied) :
    ∃ h' v', bubbleDown cmp rounds h v k = .ok h' ∧ Stored h' v' ∧ Same h h' ∧ v'.occupied = v.occupied ∧
      SameValues v.bytes v'.bytes v.occupied ∧
      (PlacedBut h.idx v.bytes v.occupied k →
        best (outranks h.type cmp h.prio) v.bytes v.occupied k ≠ k ∨ Placed h.idx v.bytes v.occupied →
        Placed h'.idx v'.bytes v'.occupied) ∧
      (Std.TransCmp cmp → DownOrder (outranks h.type cmp h.prio) v.bytes v.occupied k →
        Ordered (outranks h'.type cmp h'.prio) v'.bytes v'.occupied) := by
  obtain ⟨idx', he, -, hpl⟩ := swapDownWhileUnordered_spec (outranks h.type cmp h.prio)
    (occupied_lt hv hi) hstart hd (show v.occupied ≤ rounds + k by omega)
  set w : Vect ν := { v with bytes := siftDown (outranks h.type cmp h.prio) v.occupied rounds k v.bytes }
  refine ⟨{ h with v := some w, idx := idx' }, w, ?_,
    ⟨rfl, ⟨hv.occupied, hv.capacity, hv.room⟩, hi, siftDown_distinct hd⟩, ⟨rfl, rfl, rfl⟩, rfl, siftDown_same, hpl, ?_⟩
  · unfold bubbleDown
    rw [if_neg (by omega), he]
    rfl
  · intro _ ho
    exact siftDown_ordered (ranking_outranks cmp h.type h.prio) ho (by omega)

/-- **`bubble_up`** puts everything in order above `k`. -/
theorem bubbleUp_stored (cmp : κ → κ → Ordering) {k : ℕ} (hv : Valid v) (hi : v.itemsz = 8) (hk : k < v.occupied)
    (hr : v.occupied ≤ rounds) (hd : Distinct v.bytes v.occupied) :
    ∃ h' v', bubbleUp cmp rounds h v k = .ok h' ∧ Stored h' v' ∧ Same h h' ∧ v'.occupied = v.occupied ∧
      SameValues v.bytes v'.bytes v.occupied ∧
      (Placed h.idx v.bytes v.occupied → Placed h'.idx v'.bytes v'.occupied) ∧
      (Std.TransCmp cmp → UpOrder (outranks h.type cmp h.prio) v.bytes v.occupied k →
        Ordered (outranks h'.type cmp h'.prio) v'.bytes v'.occupied) := by
  obtain ⟨idx', he, hpl⟩ := swapUpWhileUnordered_spec (outranks h.type cmp h.prio)
    (occupied_lt hv hi) hk (show k ≤ rounds by omega)
  set w : Vect ν := { v with bytes := siftUp (outranks h.type cmp h.prio) rounds k v.bytes }
  refine ⟨{ h with v := some w, idx := idx' }, w, ?_,
    ⟨rfl, ⟨hv.occupied, hv.capacity, hv.room⟩, hi, siftUp_distinct hd hk⟩, ⟨rfl, rfl, rfl⟩, rfl, siftUp_same hk, hpl, ?_⟩
  · unfold bubbleUp
    rw [if_neg (by omega), he]
    rfl
  · intro _ ho
    exact siftUp_ordered (ranking_outranks cmp h.type h.prio) ho (by omega)

/-- **The last node takes the place `i`**; `w` is the vector without it at the end. -/
theorem bubbleDown_last (cmp : κ → κ → Ordering) {w : Vect ν} {i : ℕ} (hs : Stored h v) (hr : v.occupied ≤ rounds)
    (hin : i < v.occupied) (h2 : 2 ≤ v.occupied) (hstart : ¬(v.occupied = 2 ∧ i = 1)) (hw : Valid w)
    (hwo : w.occupied = v.occupied - 1) (hwi : w.itemsz = v.itemsz)
    (hwb : w.bytes = update v.bytes i (v.bytes (v.occupied - 1))) :
    ∃ h' v', bubbleDown cmp rounds h w i = .ok h' ∧ Left cmp h v i h' v' := by
  obtain ⟨n, hn⟩ : ∃ n, v.occupied = n + 1 := ⟨v.occupied - 1, by omega⟩
  have hdistinct := hs.distinct
  rw [hn] at hdistinct hin hstart
  rw [hn, Nat.add_sub_cancel] at hwo hwb
  have hoff : ∀ j, j ≠ i → w.bytes j = v.bytes j := fun j hj => by rw [hwb, update_of_ne hj]
  have hat : w.bytes i = v.bytes n := by rw [hwb, update_self]
  have hd : Distinct w.bytes w.occupied := by
    rw [hwo]
    exact hdistinct.of_last (by omega) (fun j _ hj => hoff j hj) fun _ => hat
  obtain ⟨h', v', he, hs', hsame, hocc, hvalues, hpl, hord⟩ := bubbleDown_stored cmp (h := h) (k := i) hw
    (hwi.trans hs.itemsz) (by omega) (show w.occupied ≤ rounds by omega) hd
  refine ⟨h', v', he, hs', hsame, ?_, fun hp hv => hpl (fun j hj hji => ?_) ?_, fun ht ho hfits => hord ht ?_⟩
  · have hwithout : Without (v.bytes i) v.bytes (n + 1) w.bytes n :=
      hdistinct.without_last (by omega) (fun j _ hj => hoff j hj) fun _ => hat
    rw [hwo] at hvalues
    rw [hocc, hn, hwo]
    exact hwithout.same hvalues
  · rw [hoff j hji]
    exact hp j (by omega)
  · -- the last node is put right by the exchanges, if it moves
    rcases hv with h1 | ⟨c, hc, hcn, hup, hout⟩ | ⟨h2i, hlast⟩
    · omega
    · refine .inl fun hb => ?_
      rcases best_cases (outranks h.type cmp h.prio) w.bytes w.occupied i with ⟨-, hno⟩ | ⟨hpos, -, hup'⟩
      · have := up_lt hc
        refine hno c hc (by omega) hup ?_
        rw [hat, hoff c (by omega)]
        rwa [hn, Nat.add_sub_cancel] at hout
      · have := up_lt hpos
        omega
    · refine .inr fun j hj => ?_
      rw [hoff j (by omega)]
      exact hp j (by omega)
  · obtain ⟨-, habove⟩ := hfits
    rw [hn] at ho habove
    rw [Nat.add_sub_cancel] at habove
    have hag : ∀ a < w.occupied, ∀ b < w.occupied, a ≠ i → b ≠ i → outranks h.type cmp h.prio
        (w.bytes a) (w.bytes b) = outranks h.type cmp h.prio (v.bytes a) (v.bytes b) :=
      fun a _ b _ ha hb => by rw [hoff a ha, hoff b hb]
    refine ho.downOrder (ranking_outranks cmp h.type h.prio) (by omega) hag fun h0 hlt => ?_
    have := up_lt h0
    rw [hat, hoff (up i) (by omega)]
    exact habove h0 (by omega)

theorem popRoot_left (cmp : κ → κ → Ordering) (hs : Stored h v) (hr : v.occupied ≤ rounds) (h0 : 0 < v.occupied) :
    ∃ h' v', popRoot cmp rounds h = .ok (h', v.bytes 0) ∧ Left cmp h v 0 h' v' := by
  obtain ⟨w, hpop, hw, hwo, hwi, hwb⟩ := vectPopb_spec hs.valid h0
  have hfront : vectFront v = .ok (v.bytes 0) := if_neg (by omega)
  unfold popRoot
  simp only [handle, hs.vec, hfront, hpop, bind, Except.bind]
  by_cases he : v.bytes 0 = v.bytes (v.occupied - 1)
  · -- the only one
    have h1 := hs.distinct 0 h0 (v.occupied - 1) (by omega) he
    have hone : v.occupied = 1 := by omega
    rw [if_pos he]
    refine ⟨_, w, rfl, ⟨rfl, hw, hwi.trans hs.itemsz, ?_⟩, ⟨rfl, rfl, rfl⟩, ?_, ?_, ?_⟩
    · intro i hi
      omega
    · rw [hwo, hone]
      exact without_only _ _
    · intro _ _ i hi
      omega
    · intro _ _ _ i _ hi
      omega
  · have h2 : 2 ≤ v.occupied := by
      by_contra hlt
      exact he (by rw [show v.occupied - 1 = 0 by omega])
    rw [if_neg he, vectSet_ok (by omega)]
    obtain ⟨h', v', hb, hl⟩ := bubbleDown_last cmp
      (w := { w with bytes := update w.bytes 0 (v.bytes (v.occupied - 1)) }) hs hr h0 h2 (by omega)
      ⟨hw.occupied, hw.capacity, hw.room⟩ hwo hwi (by simp only [hwb])
    simp only [hb]
    exact ⟨h', v', rfl, hl⟩

/-- **`Heap_remove_node`** takes out the node that is where `idx` says. -/
theorem removeNode_left (cmp : κ → κ → Ordering) {node : ν} {i : ℕ} (hs : Stored h v) (hr : v.occupied ≤ rounds)
    (hi : i < v.occupied) (hidx : h.idx node = i) (hstart : ¬(v.occupied = 2 ∧ i = 1)) {freeContainer : Bool}
    (hf : freeContainer = true → h.dtor = true) :
    ∃ h' v', removeNode cmp rounds h node freeContainer = .ok h' ∧ Left cmp h v i h' v' := by
  have hdtor : ∀ h' : Heap ν κ, h'.dtor = h.dtor → ¬(freeContainer && !h'.dtor) = true := by
    intro h' hd' hc
    rw [Bool.and_eq_true] at hc
    rw [hd', hf hc.1] at hc
    exact absurd hc.2 (by simp)
  unfold removeNode
  simp only [hidx, bind, Except.bind]
  by_cases h0 : i = 0
  · subst h0
    obtain ⟨h', v', hpop, hl⟩ := popRoot_left cmp hs hr hi
    simp only [if_true, hpop, pure, Except.pure]
    exact ⟨h', v', if_neg (hdtor h' hl.same.dtor), hl⟩
  · have hback : vectBack v = .ok (v.bytes (v.occupied - 1)) := if_neg (by omega)
    rw [if_neg h0]
    simp only [handle, hs.vec, hback, vectSet_ok hi]
    set v₁ : Vect ν := { v with bytes := update v.bytes i (v.bytes (v.occupied - 1)) } with hv₁
    obtain ⟨w, hpop, hw, hwo, hwi, hwb⟩ := vectPopb_spec (v := v₁) ⟨hs.valid.occupied, hs.valid.capacity,
      hs.valid.room⟩ (by show 0 < v.occupied; omega)
    obtain ⟨h', v', hb, hl⟩ := bubbleDown_last cmp hs hr hi (by omega) hstart hw hwo hwi hwb
    simp only [hpop, hb]
    exact ⟨h', v', if_neg (hdtor h' hl.same.dtor), hl⟩

/-- A node is pushed, unless the vector cannot grow. -/
theorem pushNode_stored (cmp : κ → κ → Ordering) {node : ν} (prio : κ) (hs : Stored h v) (hr : v.occupied < rounds)
    (hn : ¬Among v.bytes v.occupied node) :
    ∃ h' v', pushNode cmp rounds (h.setPrio node prio) node = .ok (h', (vectPushb v node).2) ∧ Stored h' v' ∧
      Same (h.setPrio node prio) h' ∧
      (Placed h.idx v.bytes v.occupied → Placed h'.idx v'.bytes v'.occupied) ∧ v'.occupied ≤ v.occupied + 1 ∧
      ((vectPushb v node).2 = none → With node v.bytes v.occupied v'.bytes v'.occupied) ∧
      ((vectPushb v node).2 ≠ none → v' = v) ∧
      (Std.TransCmp cmp → Ordered (outranks h.type cmp h.prio) v.bytes v.occupied →
        Ordered (outranks h'.type cmp h'.prio) v'.bytes v'.occupied) := by
  have hne : ∀ i < v.occupied, v.bytes i ≠ node := fun i hi he => hn ⟨i, hi, he⟩
  have hag : ∀ a < v.occupied, ∀ b < v.occupied, outranks h.type cmp (update h.prio node prio) (v.bytes a)
      (v.bytes b) = outranks h.type cmp h.prio (v.bytes a) (v.bytes b) :=
    fun a ha b hb => outranks_update prio (hne a ha) (hne b hb)
  unfold pushNode
  simp only [handle, Heap.setPrio, hs.vec, bind, Except.bind]
  rcases vectPushb_spec hs.valid node with hp | ⟨w, hp, hw, hwo, hwi, hwb⟩
  · rw [hp]
    refine ⟨_, v, rfl, ⟨rfl, hs.valid, hs.itemsz, hs.distinct⟩, ⟨rfl, rfl, rfl⟩, fun hpl => hpl, by omega, nofun,
      fun _ => rfl, ?_⟩
    -- the vector has not grown, and the new node is not in it
    intro _ ho i hi hin
    show ¬outranks h.type cmp (update h.prio node prio) _ _ = true
    rw [hag i hin (up i) (by have := up_lt hi; omega)]
    exact ho i hi hin
  · rw [hp]
    have hoff : ∀ j < v.occupied, w.bytes j = v.bytes j := fun j hj => by
      rw [hwb, update_of_ne (by omega)]
    have hlast : w.bytes v.occupied = node := by rw [hwb, update_self]
    have hd : Distinct w.bytes w.occupied := by
      intro a ha b hb hab
      rw [hwo] at ha hb
      rcases Nat.lt_succ_iff_lt_or_eq.1 ha with ha' | rfl <;> rcases Nat.lt_succ_iff_lt_or_eq.1 hb with hb' | rfl
      · rw [hoff a ha', hoff b hb'] at hab
        exact hs.distinct a ha' b hb' hab
      · rw [hoff a ha', hlast] at hab
        exact absurd hab (hne a ha')
      · rw [hoff b hb', hlast] at hab
        exact absurd hab.symm (hne b hb')
      · rfl
    -- the node is the last, with its index, before it goes up
    have hwith : With node v.bytes v.occupied w.bytes w.occupied := by
      rw [hwo, ← hlast]
      exact with_last hoff
    obtain ⟨h', v', hb, hs', hsame, hocc, hsv, hpl, hord⟩ := bubbleUp_stored cmp
      (h := { h with prio := update h.prio node prio, idx := update h.idx node (w.occupied - 1) })
      (k := w.occupied - 1) hw (hwi.trans hs.itemsz) (by omega) (show w.occupied ≤ rounds by omega) hd
    simp only [hs.vec] at hb
    simp only [hb]
    refine ⟨h', v', rfl, hs', ⟨hsame.type, hsame.dtor, hsame.prio⟩, fun hplaced => hpl fun i hi => ?_, by omega,
      fun _ => ?_, fun hx => absurd rfl hx, fun ht ho => hord ht ?_⟩
    · by_cases hi' : i = v.occupied
      · rw [hi', hlast]
        show update h.idx node _ _ = _
        rw [update_self]
        omega
      · rw [hoff i (by omega)]
        show update h.idx node _ _ = _
        rw [update_of_ne (hne i (by omega))]
        exact hplaced i (by omega)
    · rw [hocc]
      exact hwith.same hsv
    · rw [hwo, Nat.add_sub_cancel]
      exact ho.append fun a ha b hb => by rw [hoff a ha, hoff b hb]; exact hag a ha b hb

/-- **`Heap_priochange`** moves the node at `i` down where it does not outrank the one above, up where it does, and
leaves it where it is the equal of that one. -/
theorem priochange_cases (cmp : κ → κ → Ordering) (rounds : ℕ) {i : ℕ} (hs : Stored h v) (hi : i < v.occupied)
    (hidx : h.idx (v.bytes i) = i) :
    priochange cmp rounds h (v.bytes i) = bubbleDown cmp rounds h v i ∧
        (0 < i → ¬outranks h.type cmp h.prio (v.bytes i) (v.bytes (up i))) ∨
      0 < i ∧ priochange cmp rounds h (v.bytes i) = bubbleUp cmp rounds h v i ∧
        outranks h.type cmp h.prio (v.bytes i) (v.bytes (up i)) ∨
      0 < i ∧ priochange cmp rounds h (v.bytes i) = .ok h ∧
        cmp (h.prio (v.bytes i)) (h.prio (v.bytes (up i))) = .eq := by
  have hlt := occupied_lt hs.valid hs.itemsz
  unfold priochange
  simp only [hs.vec, handle, counted, ite_self, bind, Except.bind, hidx]
  by_cases h0 : 0 < i
  · have hlt' := up_lt h0
    rw [if_pos (by simpa [Position.hasParent] using h0), Position.parent_eq h0 (by omega), vectGet_ok (by omega)]
    simp only [pure, Except.pure]
    cases hc : cmp (h.prio (v.bytes i)) (h.prio (v.bytes (up i))) with
    | eq => cases h.type <;> exact .inr (.inr ⟨h0, rfl, rfl⟩)
    | lt =>
      cases ht : h.type with
      | min => exact .inr (.inl ⟨h0, rfl, by simp only [outranks, hc]; decide⟩)
      | max => exact .inl ⟨rfl, fun _ => by simp only [outranks, hc]; decide⟩
    | gt =>
      cases ht : h.type with
      | min => exact .inl ⟨rfl, fun _ => by simp only [outranks, hc]; decide⟩
      | max => exact .inr (.inl ⟨h0, rfl, by simp only [outranks, hc]; decide⟩)
  · rw [if_neg (by simpa [Position.hasParent] using h0)]
    simp only [pure, Except.pure]
    cases h.type <;> exact .inl ⟨rfl, fun h0' => absurd h0' h0⟩

theorem priochange_stored (cmp : κ → κ → Ordering) {i : ℕ} (prio : κ) (hs : Stored h v) (hr : v.occupied ≤ rounds)
    (hi : i < v.occupied) (hidx : h.idx (v.bytes i) = i) : ∃ h' v',
      priochange cmp rounds (h.setPrio (v.bytes i) prio) (v.bytes i) = .ok h' ∧ Stored h' v' ∧
      Same (h.setPrio (v.bytes i) prio) h' ∧ v'.occupied = v.occupied ∧ SameValues v.bytes v'.bytes v.occupied ∧
      (Placed h.idx v.bytes v.occupied → Placed h'.idx v'.bytes v'.occupied) ∧
      (Std.TransCmp cmp → Ordered (outranks h.type cmp h.prio) v.bytes v.occupied →
        Ordered (outranks h'.type cmp h'.prio) v'.bytes v'.occupied) := by
  set node := v.bytes i with hnode
  have hs₁ : Stored (h.setPrio node prio) v := ⟨hs.vec, hs.valid, hs.itemsz, hs.distinct⟩
  have hne : ∀ a < v.occupied, a ≠ i → v.bytes a ≠ node := fun a ha hai he => hai (hs.distinct a ha i hi he)
  have hag : ∀ a < v.occupied, ∀ b < v.occupied, a ≠ i → b ≠ i →
      outranks h.type cmp (update h.prio node prio) (v.bytes a) (v.bytes b) =
        outranks h.type cmp h.prio (v.bytes a) (v.bytes b) :=
    fun a ha b hb hai hbi => outranks_update prio (hne a ha hai) (hne b hb hbi)
  -- the node sinks, rises or stays, as it compares with its parent now
  rcases priochange_cases cmp rounds hs₁ hi hidx with ⟨he, hab⟩ | ⟨h0, he, hab⟩ | ⟨h0, he, heq⟩
  · obtain ⟨h', v', hb, hs', hsame, hocc, hvalues, hpl, hord⟩ := bubbleDown_stored cmp
      (h := h.setPrio node prio) hs.valid hs.itemsz (.inr hi) hr hs.distinct
    refine ⟨h', v', he.trans hb, hs', hsame, hocc, hvalues, fun hp => hpl (fun j hj _ => hp j hj) (.inr hp), ?_⟩
    intro ht ho
    exact hord ht (ho.downOrder (ranking_outranks cmp h.type h.prio) le_rfl hag fun h0 _ => hab h0)
  · obtain ⟨h', v', hb, hs', hsame, hocc, hvalues, hpl, hord⟩ := bubbleUp_stored cmp
      (h := h.setPrio node prio) hs.valid hs.itemsz hi hr hs.distinct
    refine ⟨h', v', he.trans hb, hs', hsame, hocc, hvalues, hpl, ?_⟩
    intro ht ho
    have R' := ranking_outranks cmp h.type (update h.prio node prio)
    exact hord ht (ho.upOrder (ranking_outranks cmp h.type h.prio) R' h0 hag (R'.asymm hab))
  · refine ⟨_, v, he, hs₁, ⟨rfl, rfl, rfl⟩, rfl, .refl _ _, fun hp => hp, ?_⟩
    intro ht ho
    have hab : ¬outranks h.type cmp (update h.prio node prio) node (v.bytes (up i)) := by
      unfold outranks
      rw [show cmp (update h.prio node prio node) (update h.prio node prio (v.bytes (up i))) = .eq from heq]
      cases h.type <;> decide
    have hba : ¬outranks h.type cmp (update h.prio node prio) (v.bytes (up i)) node := by
      unfold outranks
      rw [Std.OrientedCmp.eq_symm (show cmp (update h.prio node prio node) (update h.prio node prio (v.bytes (up i))) =
        .eq from heq)]
      cases h.type <;> decide
    exact (ho.upOrder (ranking_outranks cmp h.type h.prio) (ranking_outranks cmp h.type (update h.prio node prio)) h0
      hag hba).ordered fun _ => hab

/-! ## Where the order holds -/

variable [Std.TransCmp cmp]

omit [DecidableEq ν] in
theorem Left.held {h' : Heap ν κ} {v' : Vect ν} {i : ℕ} (hl : Left cmp h v i h' v') (hh : Held cmp h v)
    (hfits : Fits cmp h v i) : Held cmp h' v' := hl.stored.held (hl.ordered ‹_› hh.ordered hfits)

theorem popRoot_held (hh : Held cmp h v) (hr : v.occupied ≤ rounds) (h0 : 0 < v.occupied) :
    ∃ h' v', popRoot cmp rounds h = .ok (h', v.bytes 0) ∧ Held cmp h' v' ∧ Same h h' ∧
      Without (v.bytes 0) v.bytes v.occupied v'.bytes v'.occupied ∧
      (Placed h.idx v.bytes v.occupied → Vacates cmp h v 0 → Placed h'.idx v'.bytes v'.occupied) := by
  obtain ⟨h', v', he, hl⟩ := popRoot_left cmp hh.stored hr h0
  refine ⟨h', v', he, hl.held hh ⟨?_, ?_⟩, hl.same, hl.without, hl.placed⟩
  · intro h2
    exact absurd h2.2 (by decide)
  · intro h0
    exact absurd h0 (by decide)

theorem removeNode_held {i : ℕ} (hh : Held cmp h v) (hr : v.occupied ≤ rounds) (hi : i < v.occupied)
    (hidx : h.idx (v.bytes i) = i) (hfits : Fits cmp h v i) {freeContainer : Bool}
    (hf : freeContainer = true → h.dtor = true) :
    ∃ h' v', removeNode cmp rounds h (v.bytes i) freeContainer = .ok h' ∧ Held cmp h' v' ∧ Same h h' ∧
      Without (v.bytes i) v.bytes v.occupied v'.bytes v'.occupied ∧
      (Placed h.idx v.bytes v.occupied → Vacates cmp h v i → Placed h'.idx v'.bytes v'.occupied) := by
  obtain ⟨h', v', he, hl⟩ := removeNode_left cmp hh.stored hr hi hidx hfits.1 hf
  exact ⟨h', v', he, hl.held hh hfits, hl.same, hl.without, hl.placed⟩

theorem pushNode_held {node : ν} (prio : κ) (hh : Held cmp h v) (hr : v.occupied < rounds)
    (hn : ¬Among v.bytes v.occupied node) :
    ∃ h' v', pushNode cmp rounds (h.setPrio node prio) node = .ok (h', (vectPushb v node).2) ∧ Held cmp h' v' ∧
      Same (h.setPrio node prio) h' ∧
      (Placed h.idx v.bytes v.occupied → Placed h'.idx v'.bytes v'.occupied) ∧ v'.occupied ≤ v.occupied + 1 ∧
      ((vectPushb v node).2 = none → With node v.bytes v.occupied v'.bytes v'.occupied) := by
  obtain ⟨h', v', he, hs', hsame, hpl, hle, hwith, -, hord⟩ := pushNode_stored cmp prio hh.stored hr hn
  exact ⟨h', v', he, hs'.held (hord ‹_› hh.ordered), hsame, hpl, hle, hwith⟩

theorem priochange_held {i : ℕ} (prio : κ) (hh : Held cmp h v) (hr : v.occupied ≤ rounds) (hi : i < v.occupied)
    (hidx : h.idx (v.bytes i) = i) : ∃ h' v',
      priochange cmp rounds (h.setPrio (v.bytes i) prio) (v.bytes i) = .ok h' ∧ Held cmp h' v' ∧
      Same (h.setPrio (v.bytes i) prio) h' ∧ v'.occupied = v.occupied ∧ SameValues v.bytes v'.bytes v.occupied ∧
      (Placed h.idx v.bytes v.occupied → Placed h'.idx v'.bytes v'.occupied) := by
  obtain ⟨h', v', he, hs', hsame, hocc, hvalues, hpl, hord⟩ := priochange_stored cmp prio hh.stored hr hi hidx
  exact ⟨h', v', he, hs'.held (hord ‹_› hh.ordered), hsame, hocc, hvalues, hpl⟩

/-- **One call** keeps the heap in order. -/
theorem exec_kept {c : Call ν κ} (hk : Kept cmp h v m) (hr : m < rounds) (hc : Harmless cmp c h) :
    ∃ h' v' r, exec cmp rounds c h = .ok (h', r) ∧ Kept cmp h' v' (m + 1) := by
  have hle := hk.count
  have R := ranking_outranks cmp h.type h.prio
  obtain ⟨w, hw, hc⟩ := hc
  obtain rfl : v = w := Option.some.inj (hk.vec.symm.trans hw)
  cases c with
  | pushNode node prio =>
    obtain ⟨h', v', he, hh', -, hpl, hocc, -⟩ := pushNode_held prio hk.held (show v.occupied < rounds by omega)
      fun ⟨i, hi, hnode⟩ => hc i hi hnode
    exact ⟨h', v', .code _, by simp only [exec, he]; rfl, hh'.kept (hpl hk.placed) (by omega)⟩
  | popRoot =>
    have h0 : 0 < v.occupied := by
      rcases hc with h1 | ⟨c, -, hcn, -⟩ | ⟨h2, -⟩ <;> omega
    obtain ⟨h', v', he, hh', -, hwithout, hpl⟩ := popRoot_held hk.held (show v.occupied ≤ rounds by omega) h0
    have hocc := hwithout.count
    exact ⟨h', v', .node _, by simp only [exec, he]; rfl, hh'.kept (hpl hk.placed hc) (by omega)⟩
  | removeNode node freeContainer =>
    obtain ⟨hf, i, hi, rfl, hvac⟩ := hc
    obtain ⟨h', v', he, hh', -, hwithout, hpl⟩ := removeNode_held hk.held (show v.occupied ≤ rounds by omega) hi
      (hk.placed i hi) (hvac.fits R hk.ordered hi) hf
    have hocc := hwithout.count
    exact ⟨h', v', .done, by simp only [exec, he]; rfl, hh'.kept (hpl hk.placed hvac) (by omega)⟩
  | priochange node prio =>
    obtain ⟨i, hi, rfl⟩ := hc
    obtain ⟨h', v', he, hh', -, hocc, -, hpl⟩ := priochange_held prio hk.held (show v.occupied ≤ rounds by omega) hi
      (hk.placed i hi)
    exact ⟨h', v', .done, by simp only [exec, he]; rfl, hh'.kept (hpl hk.placed) (by omega)⟩

/-- **After every call of a run whose calls do no harm, the heap is in order and every node
knows its position.** -/
theorem heap_wellFormed_after (type : HeapOrder) (dtor : Bool) (bytes : ℕ → ν) (idx : ν → ℕ) (prio : ν → κ)
    (cs : List (Call ν κ)) (hr : cs.length ≤ rounds)
    (hm : Meets (exec cmp rounds) (Harmless cmp) cs (heapInit type dtor bytes idx prio)) :
    After (exec cmp rounds) (WellFormed cmp) cs (heapInit type dtor bytes idx prio) := by
  refine after_of_step (fun n h => ∃ v, Kept cmp h v n) ?_ ?_ (kept_heapInit type dtor bytes idx prio) hm
  · rintro n c h hn ⟨v, hk⟩ hc
    obtain ⟨h', v', r, he, hk'⟩ := exec_kept hk (show n < rounds by omega) hc
    exact ⟨h', r, he, v', hk'⟩
  · rintro n h ⟨v, hk⟩
    exact hk.wellFormed

theorem heap_wellFormed_after_five : After (exec (compare : ℕ → ℕ → Ordering) 5) (WellFormed compare)
    [.pushNode 1 10, .pushNode 2 20, .pushNode 3 30, .priochange 1 25, .popRoot]
    (heapInit .min false (fun _ => 0) (fun _ => 0) (fun _ => 0)) := by
  refine heap_wellFormed_after _ _ _ _ _ _ (by decide) (.cons ⟨_, rfl, by decide⟩ rfl ?_)
  refine .cons ⟨_, rfl, by decide⟩ rfl ?_
  refine .cons ⟨_, rfl, by decide⟩ rfl ?_
  refine .cons ⟨_, rfl, 0, by decide, by decide⟩ rfl ?_
  exact .last ⟨_, rfl, .inr (.inl ⟨1, by decide⟩)⟩

/-- Of two nodes the root is taken out: the other one is the root then, but its `idx` is still 1. -/
theorem popped_root : ∃ s rs, runCalls (exec (compare : ℕ → ℕ → Ordering) 3)
      [.pushNode 1 10, .pushNode 2 20, .popRoot]
      (heapInit .min false (fun _ => 0) (fun _ => 0) (fun _ => 0)) = .ok (s, rs) ∧
    ¬WellFormed compare s := by
  refine ⟨_, _, rfl, ?_⟩
  rintro ⟨v, hv, -, hp⟩
  cases hv
  exact absurd (hp 0 (by decide)) (by decide)

end Libtarp.Implicit
