import Libtarp.Heap.Implicit

/-!
# Clearing an implicit heap

`Heap_clear` releases the vector and leaves the handle without one. What a client can then ask of the handle is asked
here of it and of a new heap, with the nodes as they are: `replies` are what he sees.

* `ClearsLikeNew`: both answer the same.
* `serve_cleared_ne`: no request is answered by a cleared heap as by a new one, but for one that ends the process
  before the vector is looked at.
* `clearsLikeNew_iff`: so the two can be told apart as soon as anything is asked.
-/

namespace Libtarp.Implicit

open Function Vec Lib

variable {ν κ : Type}

/-! ## The rest of the interface -/

/-- `Heap_count`. -/
def count (h : Heap ν κ) : Except Fault ℕ := do
  let v ← counted h.v
  pure v.occupied

/-- `Heap_empty`. -/
def empty (h : Heap ν κ) : Except Fault Bool := do
  let n ← count h
  pure (n == 0)

/-- `Heap_get_root`. `Vect_isempty` does not look whether there is a vector. -/
def getRoot (h : Heap ν κ) : Except Fault (Option ν) :=
  match h.v with
  | none => .error .nullPointer
  | some v =>
    if v.occupied = 0 then .ok none
    else do
      let top ← vectFront v
      pure (some top)

/-- `Vect_destroy`, which sets the handle it is given to null. -/
def vectDestroy (v : Option (Vect ν)) : Except Fault (Option (Vect ν)) :=
  match v with
  | some _ => .ok none
  | none => .error .nullPointer

/-- `Heap_clear`, with the nodes it gives to the destructor. -/
def clear (h : Heap ν κ) (freeContainers : Bool) : Except Fault (Heap ν κ × List ν) := do
  let freed ←
    if freeContainers then
      if h.dtor then do
        let v ← handle h.v
        pure ((List.range v.occupied).map v.bytes)
      else .error (.thrown .misconfigured)
    else pure []
  let v ← vectDestroy h.v
  pure ({ h with v }, freed)

/-- `Heap_destroy`. -/
def destroy (h : Heap ν κ) (freeContainers : Bool) : Except Fault (List ν) := do
  let _ ← counted h.v
  let (_, freed) ← clear h freeContainers
  pure freed

/-- All that can be asked of a handle. -/
inductive Request (ν κ : Type)
  | call (c : Call ν κ)
  | count
  | empty
  | getRoot
  | clear (freeContainers : Bool)
  | destroy (freeContainers : Bool)

inductive Reply (ν : Type)
  | answer (a : Answer ν)
  | count (n : ℕ)
  | flag (b : Bool)
  | root (n : Option ν)
  | freed (nodes : List ν)

/-- A request, of a handle that is null once the heap was destroyed. -/
def serve [DecidableEq ν] (cmp : κ → κ → Ordering) (rounds : ℕ) (r : Request ν κ) (p : Option (Heap ν κ)) :
    Except Fault (Option (Heap ν κ) × Reply ν) :=
  match p with
  | none => .error .assertion
  | some h =>
    match r with
    | .call c => do
      let (h, a) ← exec cmp rounds c h
      pure (some h, .answer a)
    | .count => do
      let n ← count h
      pure (some h, .count n)
    | .empty => do
      let b ← empty h
      pure (some h, .flag b)
    | .getRoot => do
      let n ← getRoot h
      pure (some h, .root n)
    | .clear freeContainers => do
      let (h, freed) ← clear h freeContainers
      pure (some h, .freed freed)
    | .destroy freeContainers => do
      let freed ← destroy h freeContainers
      pure (none, .freed freed)

/-! ## A cleared heap and a new one -/

variable {h : Heap ν κ} {freeContainers : Bool}

/-- What `Heap_clear` leaves has no vector. -/
theorem clear_spec (hf : freeContainers = true → h.dtor = true) : (h.v = none → ∃ e, clear h freeContainers = .error e) ∧
    (h.v ≠ none → ∃ freed, clear h freeContainers = .ok ({ h with v := none }, freed)) := by
  unfold clear
  constructor
  · intro hv
    cases freeContainers with
    | false => exact ⟨_, by simp only [hv, vectDestroy, bind, Except.bind]; rfl⟩
    | true => exact ⟨_, by simp only [if_true, hf rfl, hv, handle, bind, Except.bind]; rfl⟩
  · intro hv
    obtain ⟨v, hv⟩ := Option.ne_none_iff_exists'.1 hv
    cases freeContainers with
    | false => exact ⟨_, by simp only [hv, vectDestroy, bind, Except.bind]; rfl⟩
    | true => exact ⟨_, by simp only [if_true, hf rfl, hv, handle, vectDestroy, bind, Except.bind]; rfl⟩

variable [DecidableEq ν]

theorem removeNode_none (cmp : κ → κ → Ordering) (rounds : ℕ) {h : Heap ν κ} {node : ν} {freeContainer : Bool}
    (hv : h.v = none) : removeNode cmp rounds h node freeContainer = .error (.thrown .badPointer) := by
  unfold removeNode popRoot
  by_cases hroot : h.idx node = 0
  · simp only [hroot, hv, handle, if_true, bind, Except.bind]
  · simp only [hroot, hv, handle, if_false, bind, Except.bind]

theorem removeNode_empty (cmp : κ → κ → Ordering) (rounds : ℕ) {h : Heap ν κ} {node : ν} {freeContainer : Bool}
    {v : Vect ν} (hv : h.v = some v) (h0 : v.occupied = 0) :
    removeNode cmp rounds h node freeContainer = .error (.thrown .empty) := by
  have hfront : vectFront v = .error (.thrown .empty) := if_pos h0
  have hback : vectBack v = .error (.thrown .empty) := if_pos h0
  unfold removeNode popRoot
  by_cases hroot : h.idx node = 0
  · simp only [hroot, hv, handle, hfront, if_true, bind, Except.bind]
  · simp only [hroot, hv, handle, hback, if_false, bind, Except.bind]

theorem priochange_none (cmp : κ → κ → Ordering) (rounds : ℕ) {h : Heap ν κ} {node : ν} (hv : h.v = none) :
    priochange cmp rounds h node =
      .error (if Position.hasParent (h.idx node) then .thrown .badPointer else .assertion) := by
  unfold priochange
  by_cases hp : Position.hasParent (h.idx node) = true
  · simp only [hp, hv, handle, if_true, bind, Except.bind]
  · simp only [hp, hv, counted, Bool.false_eq_true, if_false, bind, Except.bind]

theorem priochange_empty (cmp : κ → κ → Ordering) (rounds : ℕ) {h : Heap ν κ} {node : ν} {v : Vect ν} (hv : h.v = some v)
    (h0 : v.occupied = 0) : priochange cmp rounds h node =
      if Position.hasParent (h.idx node) then .error (.thrown .outOfBounds) else .ok h := by
  have hget : vectGet v (Position.parent (h.idx node)) = .error (.thrown .outOfBounds) := if_pos (by omega)
  have hdown : bubbleDown cmp rounds h v (h.idx node) = .ok h := by
    unfold bubbleDown
    rw [if_pos h0, ← hv]
  unfold priochange
  by_cases hp : Position.hasParent (h.idx node) = true
  · simp only [hp, hv, handle, hget, if_true, bind, Except.bind]
  · simp only [hp, hv, counted, Bool.false_eq_true, if_false, bind, Except.bind, pure, Except.pure]
    cases h.type <;> exact hdown

/-- A call that ends with a fault on a cleared heap does not end so on a new one. -/
theorem exec_cleared_ne (cmp : κ → κ → Ordering) (rounds : ℕ) (c : Call ν κ) (h : Heap ν κ) (bytes : ℕ → ν) :
    ∃ e, exec cmp rounds c { h with v := none } = .error e ∧
      exec cmp rounds c (heapInit h.type h.dtor bytes h.idx h.prio) ≠ .error e := by
  set new : Heap ν κ := heapInit h.type h.dtor bytes h.idx h.prio
  set gone : Heap ν κ := { h with v := none }
  cases c with
  | pushNode node prio =>
    have hpush : ∃ h', pushNode cmp rounds (new.setPrio node prio) node = .ok (h', none) := by
      cases rounds <;> exact ⟨_, rfl⟩
    obtain ⟨h', he⟩ := hpush
    refine ⟨.thrown .badPointer, rfl, ?_⟩
    simp only [exec, he, bind, Except.bind, pure, Except.pure]
    exact nofun
  | popRoot =>
    have he : exec cmp rounds .popRoot new = .error (.thrown .empty) := rfl
    refine ⟨.thrown .badPointer, rfl, ?_⟩
    rw [he]
    exact nofun
  | removeNode node f =>
    have hgone : removeNode cmp rounds gone node f = _ := removeNode_none cmp rounds rfl
    have hnew : removeNode cmp rounds new node f = _ := removeNode_empty cmp rounds rfl rfl
    refine ⟨.thrown .badPointer, by simp only [exec, hgone, bind, Except.bind], ?_⟩
    simp only [exec, hnew, bind, Except.bind]
    exact nofun
  | priochange node prio =>
    have hgone : priochange cmp rounds (gone.setPrio node prio) node = _ := priochange_none cmp rounds rfl
    have hnew : priochange cmp rounds (new.setPrio node prio) node =
        if Position.hasParent (h.idx node) then .error (.thrown .outOfBounds) else .ok (new.setPrio node prio) :=
      priochange_empty cmp rounds rfl rfl
    refine ⟨if Position.hasParent (h.idx node) then .thrown .badPointer else .assertion,
      by simp only [exec, hgone, bind, Except.bind]; rfl, ?_⟩
    simp only [exec, hnew, bind, Except.bind]
    -- on a new heap a node above is looked for past the end, and the root is left alone
    by_cases hp : Position.hasParent (h.idx node) = true
    · simp only [hp, if_true]
      exact nofun
    · rw [if_neg hp]
      exact nofun

/-- The process is ended for want of a destructor, whatever there is to free. -/
def Misused (h : Heap ν κ) (r : Request ν κ) : Prop := h.dtor = false ∧ r = .clear true

/-- **A cleared heap does not answer as a new one.** -/
theorem serve_cleared_ne (cmp : κ → κ → Ordering) (rounds : ℕ) (h : Heap ν κ) (bytes : ℕ → ν) {r : Request ν κ}
    (hr : ¬Misused h r) : ∃ e, serve cmp rounds r (some { h with v := none }) = .error e ∧
      serve cmp rounds r (some (heapInit h.type h.dtor bytes h.idx h.prio)) ≠ .error e := by
  cases r with
  | call c =>
    obtain ⟨e, he, hne⟩ := exec_cleared_ne cmp rounds c h bytes
    refine ⟨e, by simp only [serve, he, bind, Except.bind], ?_⟩
    intro hs
    simp only [serve] at hs
    cases hx : exec cmp rounds c (heapInit h.type h.dtor bytes h.idx h.prio) with
    | error e' =>
      rw [hx] at hs hne
      simp only [bind, Except.bind, Except.error.injEq] at hs
      exact hne (congrArg _ hs)
    | ok a =>
      rw [hx] at hs
      cases hs
  | count => exact ⟨.assertion, rfl, nofun⟩
  | empty => exact ⟨.assertion, rfl, nofun⟩
  | getRoot => exact ⟨.nullPointer, rfl, nofun⟩
  | clear f =>
    cases f with
    | false => exact ⟨.nullPointer, rfl, nofun⟩
    | true =>
      have hd : h.dtor = true := by
        cases hd : h.dtor with
        | false => exact absurd ⟨hd, rfl⟩ hr
        | true => rfl
      refine ⟨.thrown .badPointer, ?_, ?_⟩
      · simp only [serve, clear, hd]
        rfl
      · simp only [serve, clear, heapInit, hd]
        exact nofun
  | destroy f =>
    refine ⟨.assertion, rfl, ?_⟩
    cases f with
    | false => exact nofun
    | true =>
      cases hd : h.dtor <;> simp only [serve, destroy, clear, heapInit] <;> exact nofun

/-- After `Heap_clear` the heap answers the requests `rs` as a new one does, with the same comparator and the same
nodes. -/
def ClearsLikeNew (cmp : κ → κ → Ordering) (rounds : ℕ) (h : Heap ν κ) (freeContainers : Bool) (bytes : ℕ → ν)
    (rs : List (Request ν κ)) : Prop :=
  ∃ h' freed, clear h freeContainers = .ok (h', freed) ∧ replies (serve cmp rounds) rs (some h') =
    replies (serve cmp rounds) rs (some (heapInit h.type h.dtor bytes h.idx h.prio))

/-- **A cleared heap answers as a new one** only where nothing is asked of it that looks at the vector. -/
theorem clearsLikeNew_iff (cmp : κ → κ → Ordering) (rounds : ℕ) (h : Heap ν κ) (freeContainers : Bool) (bytes : ℕ → ν)
    (rs : List (Request ν κ)) (hf : freeContainers = true → h.dtor = true) :
    ClearsLikeNew cmp rounds h freeContainers bytes rs ↔
      h.v ≠ none ∧ ∀ r, rs.head? = some r → Misused h r := by
  obtain ⟨hnone, hsome⟩ := clear_spec hf
  constructor
  · rintro ⟨h', freed, hc, hsame⟩
    have hv : h.v ≠ none := by
      intro hv
      obtain ⟨e, he⟩ := hnone hv
      rw [he] at hc
      cases hc
    refine ⟨hv, ?_⟩
    obtain ⟨freed', he⟩ := hsome hv
    rw [he] at hc
    obtain ⟨rfl, -⟩ := Prod.mk.inj (Except.ok.inj hc)
    intro r hr
    obtain ⟨rs, rfl⟩ := List.head?_eq_some_iff.1 hr
    by_contra hmis
    obtain ⟨e, hcleared, hnew⟩ := serve_cleared_ne cmp rounds h bytes hmis
    have hhead := congrArg List.head? hsame
    rw [replies_head, replies_head, hcleared] at hhead
    -- the first reply already is another
    cases hx : serve cmp rounds r (some (heapInit h.type h.dtor bytes h.idx h.prio)) with
    | error e' =>
      rw [hx] at hhead hnew
      simp only [Except.map, Option.some.injEq, Except.error.injEq] at hhead
      exact hnew (congrArg _ hhead.symm)
    | ok a =>
      rw [hx] at hhead
      cases hhead
  · rintro ⟨hv, hrs⟩
    obtain ⟨freed, he⟩ := hsome hv
    refine ⟨_, freed, he, ?_⟩
    cases rs with
    | nil => rfl
    | cons r rs =>
      obtain ⟨hd, rfl⟩ := hrs r rfl
      have hstop : ∀ h₁ : Heap ν κ, h₁.dtor = false →
          serve cmp rounds (.clear true) (some h₁) = .error (.thrown .misconfigured) := by
        intro h₁ hd₁
        simp only [serve, clear, hd₁]
        rfl
      exact (replies_error rs (hstop { h with v := none } hd)).trans
        (replies_error rs (hstop (heapInit _ _ _ _ _) hd)).symm

/-- Two nodes are pushed and the heap is cleared. The number of its nodes cannot be asked for then; to free them without
a destructor ends the process as it does with a new heap, and nothing is answered after that. -/
theorem clearsLikeNew_iff_two :
    (∃ h rs, runCalls (serve (compare : ℕ → ℕ → Ordering) 2) [.call (.pushNode 1 10), .call (.pushNode 2 5)]
      (some (heapInit .min true (fun _ => 0) (fun _ => 0) fun _ => 0)) = .ok (some h, rs) ∧
        ¬ClearsLikeNew compare 2 h true (fun _ => 0) [.count]) ∧
    ∃ h rs, runCalls (serve (compare : ℕ → ℕ → Ordering) 2) [.call (.pushNode 1 10), .call (.pushNode 2 5)]
      (some (heapInit .min false (fun _ => 0) (fun _ => 0) fun _ => 0)) = .ok (some h, rs) ∧
        ClearsLikeNew compare 2 h false (fun _ => 0) [.clear true, .count] := by
  refine ⟨⟨_, _, rfl, fun hlike => ?_⟩, ⟨_, _, rfl, ?_⟩⟩
  · obtain ⟨-, hmisused⟩ := (clearsLikeNew_iff _ _ _ _ _ _ fun _ => rfl).1 hlike
    exact absurd (hmisused _ rfl).2 nofun
  · refine (clearsLikeNew_iff _ _ _ _ _ _ Bool.noConfusion).2 ⟨Option.some_ne_none _, fun r hr => ?_⟩
    exact ⟨rfl, (Option.some.inj hr).symm⟩

/-- One node is pushed, the heap is cleared, and a second node is to be pushed. -/
theorem pushed_after_clear : ∃ h rs, runCalls (serve (compare : ℕ → ℕ → Ordering) 2) [.call (.pushNode 1 10)]
      (some (heapInit .min true (fun _ => 0) (fun _ => 0) fun _ => 0)) = .ok (some h, rs) ∧
    ¬∀ later, ClearsLikeNew compare 2 h true (fun _ => 0) later := by
  refine ⟨_, _, rfl, ?_⟩
  intro hall
  obtain ⟨h', freed, hc, hr⟩ := hall [.call (.pushNode 2 20)]
  cases hc
  have hhead := congrArg List.head? hr
  cases hhead

end Libtarp.Implicit
