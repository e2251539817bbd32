import Libtarp.Dllist.Runs

/-!
# Loops over a list that changes it, and the memory it shares (`dllist.h`)

`Dll_foreach` looks one node ahead, so that its body may take out or destroy the node it is at, or put others next to
it.  A node that is not in the list is somebody else's: anything may be written to it between the calls, and the memory
of a destroyed node holds anything.

* `edits_spec`: what a body does next to the node it is at.
* `foreachNode_spec`, `foreachNodeReverse_spec`: the body is given the nodes that were in the list when the loop
  started, each once and in order.
* `dllClear_spec`: `Dll_clear` destroys the nodes from front to back and reads none that is destroyed.
* `list_shares_memory`: calls, loops and clearing do what they do on a sequence, whatever is written to other nodes.
-/

namespace Libtarp.Dll

open Function Lib

variable {ν γ : Type} [DecidableEq ν]

/-- The memory of a destroyed node. -/
abbrev Junk (ν : Type) := ν → Option ν × Option ν

def Nodes.scrap (junk : Junk ν) (node : ν) (m : Nodes ν) : Nodes ν :=
  (m.setNext node (junk node).1).setPrev node (junk node).2

/-! ## The loops -/

/-- The loop of `Dll_foreach_node`, and with `prev` for `link` that of `Dll_foreach_node_reverse`.  The two pointers are
`dln_tmp` and `dln_tmp_next`; `γ` is all that the body has besides the list. -/
def foreachLoop (link : Nodes ν → ν → Option ν) (body : ν → γ × State ν → Except Fault (γ × State ν)) :
    ℕ → Option ν → Option ν → γ × State ν → Except Fault (γ × State ν)
  | _, none, _, s => .ok s
  | 0, some _, _, _ => .error .rounds
  | rounds + 1, some i, next, s => do
    let s ← body i s
    foreachLoop link body rounds next (next.bind (link s.2.nodes)) s

/-- `Dll_foreach_node`. -/
def foreachNode (body : ν → γ × State ν → Except Fault (γ × State ν)) (rounds : ℕ) (s : γ × State ν) :
    Except Fault (γ × State ν) :=
  foreachLoop Nodes.next body rounds s.2.list.front (s.2.list.front.bind s.2.nodes.next) s

/-- `Dll_foreach_node_reverse`. -/
def foreachNodeReverse (body : ν → γ × State ν → Except Fault (γ × State ν)) (rounds : ℕ) (s : γ × State ν) :
    Except Fault (γ × State ν) :=
  foreachLoop Nodes.prev body rounds s.2.list.back (s.2.list.back.bind s.2.nodes.prev) s

/-- What a body may do at the node it is at: `Dll_popnode`, `Dll_delnode`, `Dll_put_before` and `Dll_put_after`. -/
inductive Edit (ν : Type)
  | popnode
  | delnode
  | putBefore (b : ν)
  | putAfter (b : ν)

def Edit.exec (junk : Junk ν) (i : ν) (s : State ν) : Edit ν → Except Fault (State ν)
  | .popnode => removeNode s.list s.nodes i false
  | .delnode => do
    let s ← removeNode s.list s.nodes i true
    pure { s with nodes := s.nodes.scrap junk i }
  | .putBefore b => putNodeBefore s.list s.nodes i b
  | .putAfter b => putNodeAfter s.list s.nodes i b

def execEdits (junk : Junk ν) (i : ν) (es : List (Edit ν)) (s : State ν) : Except Fault (State ν) :=
  es.foldlM (Edit.exec junk i) s

/-- A body that does what `plan` says at each node. -/
def execPlan (junk : Junk ν) (plan : ν → γ → γ × List (Edit ν)) (i : ν) (s : γ × State ν) :
    Except Fault (γ × State ν) := do
  let t ← execEdits junk i (plan i s.1).2 s.2
  pure ((plan i s.1).1, t)

/-- `Dll_clear`, with the nodes that it destroys. -/
def dllClear (junk : Junk ν) (rounds : ℕ) (s : State ν) (freeContainers : Bool) : Except Fault (State ν × List ν) :=
  if s.list.count = 0 then .ok (s, [])
  else if freeContainers then
    if s.list.dtor then do
      let destroy := fun i (t : List ν × State ν) =>
        Except.ok (t.1 ++ [i], { t.2 with nodes := t.2.nodes.scrap junk i })
      let (destroyed, s) ← foreachNode destroy rounds ([], s)
      pure (⟨initializer s.list.dtor, s.nodes⟩, destroyed)
    else .error (.thrown .misconfigured)
  else .ok (⟨initializer s.list.dtor, s.nodes⟩, [])

/-! ## On a sequence -/

/-- What stands in the place of the node `i`, where `bs` was put before it and `as` after it. -/
def edited (i : ν) (bs as : List ν) : List (Edit ν) → List ν
  | [] => bs ++ i :: as
  | .popnode :: _ => bs ++ as
  | .delnode :: _ => bs ++ as
  | .putBefore b :: es => edited i (bs ++ [b]) as es
  | .putAfter b :: es => edited i bs (b :: as) es

/-- A node that is put in is not in the list, and nothing is done at a node that was taken out. -/
def EditsOk (dtor : Bool) (l : List ν) : List (Edit ν) → Prop
  | [] => True
  | .popnode :: es => es = []
  | .delnode :: es => es = [] ∧ dtor = true
  | .putBefore b :: es => b ∉ l ∧ EditsOk dtor (b :: l) es
  | .putAfter b :: es => b ∉ l ∧ EditsOk dtor (b :: l) es

/-- What stands in the places of the nodes of a sequence. -/
def planned (plan : ν → γ → γ × List (Edit ν)) : List ν → γ → γ × List (List ν)
  | [], g => (g, [])
  | i :: l, g =>
    let (g', ls) := planned plan l (plan i g).1
    (g', edited i [] [] (plan i g).2 :: ls)

/-- The edits may be made, where `done` stands in the places of the nodes before. -/
def PlanOk (plan : ν → γ → γ × List (Edit ν)) (dtor : Bool) : List ν → List ν → γ → Prop
  | _, [], _ => True
  | done, i :: l, g =>
    EditsOk dtor (done ++ i :: l) (plan i g).2 ∧ PlanOk plan dtor (done ++ edited i [] [] (plan i g).2) l (plan i g).1

variable {s : State ν} {l l₁ l₂ bs as : List ν} {i : ν} {rounds : ℕ}

/-! ## One node -/

theorem Represents.scrap (junk : Junk ν) (h : Represents s l) (hi : i ∉ l) :
    Represents { s with nodes := s.nodes.scrap junk i } l :=
  ⟨⟨h.linked.nodup, h.linked.forward.update hi, h.linked.backward.update (by simpa using hi)⟩, h.count⟩

theorem removeNode_represents (freeContainer : Bool) (h : Represents s (l₁ ++ i :: l₂))
    (hd : freeContainer = true → s.list.dtor = true) : ∃ s', removeNode s.list s.nodes i freeContainer = .ok s' ∧
      Represents s' (l₁ ++ l₂) ∧ s'.list.dtor = s.list.dtor := by
  obtain ⟨s', hs, hrep, hdtor⟩ := unlink_spec h
  refine ⟨s', ?_, hrep, hdtor⟩
  have hmay : ¬(freeContainer && !s'.list.dtor) = true := by
    rw [hdtor]
    cases freeContainer with
    | false => simp
    | true => simp [hd rfl]
  unfold removeNode
  rw [hs]
  exact if_neg hmay

/-- **The edits at one node** leave the nodes before and after it where they are. -/
theorem edits_spec (junk : Junk ν) {known : List ν} (es : List (Edit ν))
    (h : Represents s (l₁ ++ (bs ++ i :: as) ++ l₂)) (hknown : ∀ a, a ∈ l₁ ++ (bs ++ i :: as) ++ l₂ → a ∈ known)
    (hok : EditsOk s.list.dtor known es) :
    ∃ s', execEdits junk i es s = .ok s' ∧ Represents s' (l₁ ++ edited i bs as es ++ l₂) ∧
      s'.list.dtor = s.list.dtor := by
  induction es generalizing s bs as known with
  | nil => exact ⟨s, rfl, h, rfl⟩
  | cons e es ih =>
    have hsplit : l₁ ++ (bs ++ i :: as) ++ l₂ = (l₁ ++ bs) ++ i :: (as ++ l₂) := by simp
    rw [hsplit] at h
    cases e with
    | popnode =>
      obtain rfl : es = [] := hok
      obtain ⟨s', hs, hrep, hd⟩ := removeNode_represents false h nofun
      refine ⟨s', ?_, ?_, hd⟩
      · simp only [execEdits, List.foldlM_cons, List.foldlM_nil, Edit.exec, hs, bind, Except.bind, pure, Except.pure]
      · simpa [edited] using hrep
    | delnode =>
      obtain ⟨rfl, hdtor⟩ := hok
      obtain ⟨s', hs, hrep, hd⟩ := removeNode_represents true h fun _ => hdtor
      have hi : i ∉ l₁ ++ bs ++ (as ++ l₂) := fun hm => by
        have hn := h.linked.nodup
        rw [List.nodup_middle] at hn
        exact (List.nodup_cons.1 hn).1 hm
      refine ⟨{ s' with nodes := s'.nodes.scrap junk i }, ?_, ?_, hd⟩
      · simp only [execEdits, List.foldlM_cons, List.foldlM_nil, Edit.exec, hs, bind, Except.bind, pure, Except.pure]
      · simpa [edited] using hrep.scrap junk hi
    | putBefore b =>
      obtain ⟨hb, hok⟩ := hok
      have hnot : b ∉ (l₁ ++ bs) ++ i :: (as ++ l₂) := fun hm => hb (hknown b (hsplit ▸ hm))
      obtain ⟨s₁, hs, hrep, hd⟩ := putNodeBefore_spec h hnot
      have hrep₁ : Represents s₁ (l₁ ++ (bs ++ [b] ++ i :: as) ++ l₂) := by simpa using hrep
      have hknown₁ : ∀ a, a ∈ l₁ ++ (bs ++ [b] ++ i :: as) ++ l₂ → a ∈ b :: known := by
        intro a ha
        rcases eq_or_ne a b with rfl | hne
        · exact List.mem_cons_self ..
        · refine List.mem_cons_of_mem _ (hknown a ?_)
          simpa [hne] using ha
      obtain ⟨s', hs', hrep', hd'⟩ := ih hrep₁ hknown₁ (hd ▸ hok)
      refine ⟨s', ?_, hrep', hd'.trans hd⟩
      simp only [execEdits, List.foldlM_cons, Edit.exec, hs, bind, Except.bind]
      exact hs'
    | putAfter b =>
      obtain ⟨hb, hok⟩ := hok
      have hnot : b ∉ (l₁ ++ bs) ++ i :: (as ++ l₂) := fun hm => hb (hknown b (hsplit ▸ hm))
      obtain ⟨s₁, hs, hrep, hd⟩ := putNodeAfter_spec h hnot
      have hrep₁ : Represents s₁ (l₁ ++ (bs ++ i :: (b :: as)) ++ l₂) := by simpa using hrep
      have hknown₁ : ∀ a, a ∈ l₁ ++ (bs ++ i :: (b :: as)) ++ l₂ → a ∈ b :: known := by
        intro a ha
        rcases eq_or_ne a b with rfl | hne
        · exact List.mem_cons_self ..
        · refine List.mem_cons_of_mem _ (hknown a ?_)
          simpa [hne] using ha
      obtain ⟨s', hs', hrep', hd'⟩ := ih hrep₁ hknown₁ (hd ▸ hok)
      refine ⟨s', ?_, hrep', hd'.trans hd⟩
      simp only [execEdits, List.foldlM_cons, Edit.exec, hs, bind, Except.bind]
      exact hs'

/-- What the body does at a node of the list. -/
theorem execPlan_spec (junk : Junk ν) (plan : ν → γ → γ × List (Edit ν)) {g : γ} {known : List ν}
    (h : Represents s (l₁ ++ i :: l₂)) (hknown : ∀ a, a ∈ l₁ ++ i :: l₂ → a ∈ known)
    (hok : EditsOk s.list.dtor known (plan i g).2) :
    ∃ s', execPlan junk plan i (g, s) = .ok ((plan i g).1, s') ∧
      Represents s' (l₁ ++ edited i [] [] (plan i g).2 ++ l₂) ∧ s'.list.dtor = s.list.dtor := by
  have hone : l₁ ++ i :: l₂ = l₁ ++ ([] ++ i :: []) ++ l₂ := by simp
  rw [hone] at h hknown
  obtain ⟨s', hs, hrep, hd⟩ := edits_spec junk (plan i g).2 h hknown hok
  refine ⟨s', ?_, hrep, hd⟩
  simp only [execPlan, hs, bind, Except.bind, pure, Except.pure]

/-! ## Whole loops -/

omit [DecidableEq ν] in
/-- The pointer to the next node is read before the body is at the node. -/
theorem foreachLoop_eq (link : Nodes ν → ν → Option ν) (body : ν → γ × State ν → Except Fault (γ × State ν))
    (rounds : ℕ) (p : Option ν) (s : γ × State ν) : foreachLoop link body rounds p (p.bind (link s.2.nodes)) s =
      walk (fun s => link s.2.nodes) body .rounds rounds p s := by
  induction rounds generalizing p s with
  | zero => cases p <;> rfl
  | succ rounds ih =>
    cases p with
    | none => rfl
    | some i =>
      rw [foreachLoop, walk]
      exact congrArg (body i s >>= ·) (funext fun s' => ih _ s')

/-- **The body is given every node of the list once**, from front to back. -/
theorem foreachNode_spec (junk : Junk ν) (plan : ν → γ → γ × List (Edit ν)) {g : γ} (h : Represents s l)
    (hr : l.length ≤ rounds) (hok : PlanOk plan s.list.dtor [] l g) :
    ∃ s', foreachNode (execPlan junk plan) rounds (g, s) = .ok ((planned plan l g).1, s') ∧
      Represents s' (planned plan l g).2.flatten ∧ s'.list.dtor = s.list.dtor := by
  -- the nodes of `done` stand in the places of those the body was given
  let P : List ν → γ × State ν → Prop := fun rest t => ∃ done, Represents t.2 (done ++ rest) ∧
    PlanOk plan s.list.dtor done rest t.1 ∧ t.2.list.dtor = s.list.dtor ∧
    (planned plan rest t.1).1 = (planned plan l g).1 ∧
    done ++ (planned plan rest t.1).2.flatten = (planned plan l g).2.flatten
  have hnext : ∀ a rest t, P (a :: rest) t → t.2.nodes.next a = rest.head? := by
    rintro a rest t ⟨done, hrep, -⟩
    exact hrep.linked.next_eq
  have hbody : ∀ a rest t, P (a :: rest) t → ∃ t', execPlan junk plan a t = .ok t' ∧ P rest t' := by
    rintro a rest ⟨g₁, t⟩ ⟨done, hrep, ⟨hedits, hplan⟩, hd, hg, hall⟩
    obtain ⟨t', ht, hrep', hd'⟩ := execPlan_spec junk plan hrep (fun _ ha => ha) (hd ▸ hedits)
    refine ⟨_, ht, done ++ edited a [] [] (plan a g₁).2, hrep', hplan, hd'.trans hd, hg, ?_⟩
    rw [← hall, List.append_assoc]
    rfl
  have hstart : P l (g, s) := ⟨[], h, hok, rfl, rfl, rfl⟩
  obtain ⟨⟨g', s'⟩, hwalk, done, hrep, -, hd, hg, hall⟩ :=
    walk_spec Fault.rounds hnext hbody hstart hr
  simp only [planned, List.append_nil, List.flatten_nil] at hg hall hrep
  obtain rfl := hg
  obtain rfl := hall
  refine ⟨s', ?_, hrep, hd⟩
  rw [foreachNode, foreachLoop_eq, h.linked.front_eq]
  exact hwalk

/-- The same **from back to front**. -/
theorem foreachNodeReverse_spec (junk : Junk ν) (plan : ν → γ → γ × List (Edit ν)) {g : γ} (h : Represents s l)
    (hr : l.length ≤ rounds) (hok : PlanOk plan s.list.dtor [] l.reverse g) :
    ∃ s', foreachNodeReverse (execPlan junk plan) rounds (g, s) = .ok ((planned plan l.reverse g).1, s') ∧
      Represents s' (planned plan l.reverse g).2.reverse.flatten ∧ s'.list.dtor = s.list.dtor := by
  let P : List ν → γ × State ν → Prop := fun rest t => ∃ done known, Represents t.2 (rest.reverse ++ done) ∧
    (∀ a ∈ done, a ∈ known) ∧ PlanOk plan s.list.dtor known rest t.1 ∧ t.2.list.dtor = s.list.dtor ∧
    (planned plan rest t.1).1 = (planned plan l.reverse g).1 ∧
    (planned plan rest t.1).2.reverse.flatten ++ done = (planned plan l.reverse g).2.reverse.flatten
  have hprev : ∀ a rest t, P (a :: rest) t → t.2.nodes.prev a = rest.head? := by
    rintro a rest t ⟨done, known, hrep, -⟩
    rw [List.reverse_cons, List.append_assoc] at hrep
    have hlast : t.2.nodes.prev a = rest.reverse.getLast? := hrep.linked.prev_eq
    rwa [List.getLast?_reverse] at hlast
  have hbody : ∀ a rest t, P (a :: rest) t → ∃ t', execPlan junk plan a t = .ok t' ∧ P rest t' := by
    rintro a rest ⟨g₁, t⟩ ⟨done, known, hrep, hknown, ⟨hedits, hplan⟩, hd, hg, hall⟩
    rw [List.reverse_cons, List.append_assoc, List.singleton_append] at hrep
    have hmem : ∀ b, b ∈ rest.reverse ++ a :: done → b ∈ known ++ a :: rest := by
      intro b hb
      simp only [List.mem_append, List.mem_cons, List.mem_reverse] at hb ⊢
      rcases hb with hb | hb | hb
      · exact .inr (.inr hb)
      · exact .inr (.inl hb)
      · exact .inl (hknown b hb)
    obtain ⟨t', ht, hrep', hd'⟩ := execPlan_spec junk plan hrep hmem (hd ▸ hedits)
    refine ⟨_, ht, edited a [] [] (plan a g₁).2 ++ done, known ++ edited a [] [] (plan a g₁).2, ?_, ?_, hplan,
      hd'.trans hd, hg, ?_⟩
    · rw [← List.append_assoc]
      exact hrep'
    · intro b hb
      rw [List.mem_append] at hb ⊢
      exact hb.symm.imp (hknown b) id
    · rw [← hall, planned, List.reverse_cons, List.flatten_append, List.flatten_singleton, List.append_assoc]
  have hstart : P l.reverse (g, s) := ⟨[], [], by simpa using h, by simp, hok, rfl, rfl, List.append_nil _⟩
  have hlen : l.reverse.length ≤ rounds := by rwa [List.length_reverse]
  obtain ⟨⟨g', s'⟩, hwalk, done, known, hrep, -, -, hd, hg, hall⟩ :=
    walk_spec Fault.rounds hprev hbody hstart hlen
  simp only [planned, List.reverse_nil, List.nil_append, List.flatten_nil] at hg hall hrep
  obtain rfl := hg
  obtain rfl := hall
  refine ⟨s', ?_, hrep, hd⟩
  rw [foreachNodeReverse, foreachLoop_eq, h.linked.back_eq, ← List.head?_reverse]
  exact hwalk

/-- **A list is destroyed** from front to back. -/
theorem dllClear_spec (junk : Junk ν) {freeContainers : Bool} (h : Represents s l) (hr : l.length ≤ rounds)
    (hd : freeContainers = true → s.list.dtor = true) : ∃ s',
      dllClear junk rounds s freeContainers = .ok (s', if freeContainers then l else []) ∧ Represents s' [] ∧
      s'.list.dtor = s.list.dtor := by
  have hcount : s.list.count = l.length := h.count
  unfold dllClear
  by_cases hnone : s.list.count = 0
  · obtain rfl : l = [] := List.length_eq_zero_iff.1 (hcount ▸ hnone)
    exact ⟨s, by rw [if_pos hnone, ite_self], h, rfl⟩
  rw [if_neg hnone]
  cases freeContainers with
  | false => exact ⟨_, rfl, represents_initializer _ _, rfl⟩
  | true =>
    let destroy : ν → List ν × State ν → Except Fault (List ν × State ν) := fun i t =>
      .ok (t.1 ++ [i], { t.2 with nodes := t.2.nodes.scrap junk i })
    -- the nodes to come are linked as they were
    let P : List ν → List ν × State ν → Prop := fun rest t => Chain t.2.nodes.next rest.head? rest ∧
      t.1 ++ rest = l ∧ t.2.list = s.list
    have hlink : ∀ {a : ν} {rest : List ν} {t : List ν × State ν}, P (a :: rest) t →
        t.2.nodes.next a = rest.head? := by
      rintro a rest t ⟨⟨-, hchain⟩, -⟩
      have := (chain_iff_seg.1 hchain).start
      rwa [Option.or_none] at this
    have hbody : ∀ a rest t, P (a :: rest) t → ∃ t', destroy a t = .ok t' ∧ P rest t' := by
      rintro a rest t hP
      have hnext := hlink hP
      obtain ⟨hchain, hall, hlist⟩ := hP
      have hrest : Chain t.2.nodes.next rest.head? rest := hnext ▸ hchain.2
      refine ⟨_, rfl, hrest.update (List.nodup_cons.1 hchain.nodup).1, ?_, hlist⟩
      rw [← hall, List.append_assoc]
      rfl
    have hstart : P l ([], s) := ⟨h.linked.front_eq ▸ h.linked.forward, rfl, rfl⟩
    obtain ⟨⟨destroyed, s'⟩, hwalk, -, hall, hlist⟩ :=
      walk_spec Fault.rounds (fun _ _ _ => hlink) hbody hstart hr
    have hloop : foreachNode destroy rounds ([], s) = .ok (destroyed, s') := by
      rw [foreachNode, foreachLoop_eq, h.linked.front_eq]
      exact hwalk
    obtain rfl : destroyed = l := by rw [← hall, List.append_nil]
    have hdtor : s'.list.dtor = s.list.dtor := congrArg Dllist.dtor hlist
    refine ⟨⟨initializer s'.list.dtor, s'.nodes⟩, ?_, represents_initializer _ _, hdtor⟩
    rw [if_pos rfl, if_pos (hd rfl), if_pos rfl]
    change (foreachNode destroy rounds ([], s) >>= _) = _
    rw [hloop]
    rfl

/-! ## Whatever is written to other nodes -/

/-- What happens to a list: a call, a loop, its clearing, or something to the memory of other nodes. -/
inductive Event (ν γ : Type)
  | call (c : Call ν)
  | foreach (junk : Junk ν) (plan : ν → γ → γ × List (Edit ν)) (g : γ)
  | foreachReverse (junk : Junk ν) (plan : ν → γ → γ × List (Edit ν)) (g : γ)
  | clear (junk : Junk ν) (freeContainers : Bool)
  | others (nodes : Nodes ν)

/-- What is seen of it. -/
inductive Seen (ν γ : Type)
  | answer (node : Option ν)
  | left (g : γ)
  | destroyed (nodes : List ν)
  | nothing
  deriving DecidableEq

def execEvent (rounds : ℕ) (e : Event ν γ) (s : State ν) : Except Fault (State ν × Seen ν γ) :=
  match e with
  | .call c => (exec rounds c s).map fun p => (p.1, .answer p.2)
  | .foreach junk plan g => (foreachNode (execPlan junk plan) rounds (g, s)).map fun p => (p.2, .left p.1)
  | .foreachReverse junk plan g => (foreachNodeReverse (execPlan junk plan) rounds (g, s)).map fun p => (p.2, .left p.1)
  | .clear junk freeContainers => (dllClear junk rounds s freeContainers).map fun p => (p.1, .destroyed p.2)
  | .others nodes => .ok (⟨s.list, nodes⟩, .nothing)

/-- The same on a sequence. -/
def Event.onSeq (l : List ν) : Event ν γ → List ν × Seen ν γ
  | .call c => ((c.onSeq l).1, .answer (c.onSeq l).2)
  | .foreach _ plan g => ((planned plan l g).2.flatten, .left (planned plan l g).1)
  | .foreachReverse _ plan g => ((planned plan l.reverse g).2.reverse.flatten, .left (planned plan l.reverse g).1)
  | .clear _ freeContainers => ([], .destroyed (if freeContainers then l else []))
  | .others _ => (l, .nothing)

/-- What the caller, the bodies of the loops and the other users of the memory have to see to. -/
def AllowedOn (l : List ν) (s : State ν) : Event ν γ → Prop
  | .call c => Admissible s.list.dtor l c
  | .foreach _ plan g => PlanOk plan s.list.dtor [] l g
  | .foreachReverse _ plan g => PlanOk plan s.list.dtor [] l.reverse g
  | .clear _ freeContainers => freeContainers = true → s.list.dtor = true
  | .others nodes => ∀ a ∈ l, nodes.next a = s.nodes.next a ∧ nodes.prev a = s.nodes.prev a

/-- It is seen to in the state `s`, whose nodes are no more than the rounds a loop may make. -/
def Allowed (rounds : ℕ) (e : Event ν γ) (s : State ν) : Prop :=
  ∀ l, WellFormed s l → l.length ≤ rounds ∧ AllowedOn l s e

/-- **One event.** -/
theorem execEvent_spec {e : Event ν γ} (h : Represents s l) (hr : l.length ≤ rounds) (he : AllowedOn l s e) :
    ∃ s', execEvent rounds e s = .ok (s', (e.onSeq l).2) ∧ Represents s' (e.onSeq l).1 := by
  cases e with
  | call c =>
    obtain ⟨s', hs, hrep, -⟩ := exec_spec h hr he
    exact ⟨s', by simp only [execEvent, hs]; rfl, hrep⟩
  | foreach junk plan g =>
    obtain ⟨s', hs, hrep, -⟩ := foreachNode_spec junk plan h hr he
    exact ⟨s', by simp only [execEvent, hs]; rfl, hrep⟩
  | foreachReverse junk plan g =>
    obtain ⟨s', hs, hrep, -⟩ := foreachNodeReverse_spec junk plan h hr he
    exact ⟨s', by simp only [execEvent, hs]; rfl, hrep⟩
  | clear junk freeContainers =>
    obtain ⟨s', hs, hrep, -⟩ := dllClear_spec junk h hr he
    exact ⟨s', by simp only [execEvent, hs]; rfl, hrep⟩
  | others nodes =>
    refine ⟨_, rfl, ⟨h.linked.nodup, ?_, ?_⟩, h.count⟩
    · exact h.linked.forward.congr fun a ha => (he a ha).1
    · exact h.linked.backward.congr fun a ha => (he a (List.mem_reverse.1 ha)).2

/-- **A list shares the memory with others.**  Whatever is written to nodes that are not in the list, be it that they
were destroyed, everything that happens to the list is as on a sequence: the calls, the loops whose bodies take out,
destroy and put in nodes, and the clearing. -/
theorem list_shares_memory (dtor : Bool) (nodes : Nodes ν) (es : List (Event ν γ))
    (hm : Meets (execEvent rounds) (Allowed rounds) es ⟨initializer dtor, nodes⟩) :
    Each (execEvent rounds) (fun e s r s' => ∃ l l', WellFormed s l ∧ WellFormed s' l' ∧ e.onSeq l = (l', r)) es
      ⟨initializer dtor, nodes⟩ := by
  refine each_of_step (fun _ s => ∃ l, Represents s l) ?_ ⟨[], represents_initializer dtor nodes⟩ hm
  rintro n e s - ⟨l, hrep⟩ he
  obtain ⟨hr, hallowed⟩ := he l hrep.wellFormed
  obtain ⟨s', hs, hrep'⟩ := execEvent_spec hrep hr hallowed
  exact ⟨s', _, hs, ⟨_, hrep'⟩, l, _, hrep.wellFormed, hrep'.wellFormed, rfl⟩

omit [DecidableEq ν] in
theorem allowed_of_chain {e : Event ν γ} (hc : Chain s.nodes.next s.list.front l) (hr : l.length ≤ rounds)
    (he : AllowedOn l s e) : Allowed rounds e s := by
  intro l' h
  obtain rfl := hc.unique h.forward
  exact ⟨hr, he⟩

theorem list_shares_memory_four : Each (execEvent 3)
    (fun e s r s' => ∃ l l', WellFormed s l ∧ WellFormed s' l' ∧ e.onSeq l = (l', r))
    ([.call (.pushBack 1), .call (.pushBack 2),
      .foreach (fun _ => (some 1, some 1)) (fun i n => (n + 1, if i = 1 then [.delnode] else [.putAfter 3])) 0,
      .clear (fun _ => (some 1, some 1)) true] : List (Event ℕ ℕ))
    ⟨initializer true, ⟨fun _ => some 7, fun _ => some 7⟩⟩ := by
  refine list_shares_memory _ _ _ (.cons (allowed_of_chain (l := []) rfl (by decide) List.not_mem_nil) rfl ?_)
  refine .cons (allowed_of_chain (l := [1]) ⟨rfl, rfl⟩ (by decide) ?_) rfl ?_
  · exact (by decide : 2 ∉ [1])
  refine .cons (allowed_of_chain (l := [1, 2]) ⟨rfl, rfl, rfl⟩ (by decide) ?_) rfl ?_
  · exact ⟨⟨rfl, rfl⟩, ⟨(by decide : 3 ∉ [2]), trivial⟩, trivial⟩
  · exact .last (allowed_of_chain (l := [2, 3]) ⟨rfl, rfl, rfl⟩ (by decide) fun _ => rfl)

end Libtarp.Dll
