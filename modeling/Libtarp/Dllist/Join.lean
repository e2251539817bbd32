import Libtarp.Dllist.Calls

/-!
# Two doubly linked lists (`dllist.c`, `Dll_join` and `Dll_split_list`)

* `join`: where `a` has nodes, its back stays the node it was, and the front of `b` is written to without being
  looked at.
* `splitList`: the new list gets a back only where the node has no other after it, or where the heads are exchanged.
* `join_right_iff`, `split_join_iff`: the lists for which each of them is right.
-/

namespace Libtarp.Dll

open Function Lib

variable {ν : Type}

/-- Two lists and the nodes. -/
structure Lists (ν : Type) where
  a : Dllist ν
  b : Dllist ν
  nodes : Nodes ν

/-! ## The functions of the source -/

/-- `Dll_swap_list_heads`. -/
def swapListHeads (s : Lists ν) : Lists ν :=
  let tmp := s.a
  let a := { s.a with front := s.b.front, back := s.b.back, count := s.b.count }
  { s with a := a, b := { s.b with front := tmp.front, back := tmp.back, count := tmp.count } }

section Links

variable [DecidableEq ν]

/-- `Dll_join`. -/
def join (s : Lists ν) : Except Fault (Lists ν) := do
  let (a, m) ← match s.a.back with
    | some back => do
      let m := s.nodes.setNext back s.b.front
      let front ← deref s.b.front
      pure (s.a, m.setPrev front s.a.back)
    | none => pure ({ s.a with front := s.b.front, back := s.b.back }, s.nodes)
  pure { a := { a with count := a.count + s.b.count }, b := initializer false, nodes := m }

/-- The loop of `count_list_nodes`. -/
def countListNodes (next : ν → Option ν) : ℕ → Option ν → ℕ → Except Fault ℕ
  | _, none, count => .ok count
  | 0, some _, _ => .error .rounds
  | rounds + 1, some node, count => countListNodes next rounds (next node) (count + 1)

/-- The list that `Dll_split_list` leaves, up to the node. -/
def cutBefore (list : Dllist ν) (m : Nodes ν) (node : ν) : Except Fault (State ν) :=
  if some node = list.back then do
    let (s, _) ← popBack list m
    pure s
  else do
    let prev ← deref (m.prev node)
    pure ⟨{ list with back := m.prev node }, m.setNext prev none⟩

/-- `Dll_split_list`: the list, and the new list that is returned. -/
def splitList (rounds : ℕ) (list : Dllist ν) (m : Nodes ν) (node : ν) : Except Fault (Lists ν) :=
  let b := initializer list.dtor
  if some node = list.front then .ok (swapListHeads ⟨list, b, m⟩)
  else do
    let back := if m.next node = none then some node else b.back
    let s ← cutBefore list m node
    let m := s.nodes.setPrev node none
    let count ← countListNodes m.next rounds (some node) 0
    pure ⟨{ s.list with count := list.count - count }, { b with front := some node, back := back, count := count }, m⟩

end Links

/-! ## What is asked for -/

/-- Two lists that have no node in common. -/
structure Apart (s : Lists ν) (la lb : List ν) : Prop where
  left : Represents ⟨s.a, s.nodes⟩ la
  right : Represents ⟨s.b, s.nodes⟩ lb
  disjoint : la.Disjoint lb

/-- `a` is the two sequences one after the other, and `b` is empty. -/
def JoinRight [DecidableEq ν] (s : Lists ν) (la lb : List ν) : Prop :=
  ∃ r, join s = .ok r ∧ Apart r (la ++ lb) []

/-- What is met from the front on, and counted. -/
def Reads (s : State ν) (l : List ν) : Prop := Chain s.nodes.next s.list.front l ∧ s.list.count = l.length

/-- The list is split before a node, and joined again it reads as it did. -/
def SplitRight [DecidableEq ν] (rounds : ℕ) (s : State ν) (l₁ : List ν) (node : ν) (l₂ : List ν) : Prop :=
  ∃ r, splitList rounds s.list s.nodes node = .ok r ∧ Apart r l₁ (node :: l₂) ∧
    ∃ j, join r = .ok j ∧ Reads ⟨j.a, j.nodes⟩ (l₁ ++ node :: l₂)

/-- The list that was split and joined again is also well formed. -/
def RejoinRight [DecidableEq ν] (rounds : ℕ) (s : State ν) (l₁ : List ν) (node : ν) (l₂ : List ν) : Prop :=
  ∃ r, splitList rounds s.list s.nodes node = .ok r ∧
    ∃ j, join r = .ok j ∧ Represents ⟨j.a, j.nodes⟩ (l₁ ++ node :: l₂)

/-! ## Joining -/

variable {s r : Lists ν} {la lb : List ν} {list : Dllist ν} {m : Nodes ν} {l₁ l₂ : List ν} {node z : ν}

theorem Apart.back_eq (h : Apart s la lb) : s.a.back = la.getLast? := h.left.linked.back_eq

theorem Apart.front_eq (h : Apart s la lb) : s.b.front = lb.head? := h.right.linked.front_eq

variable [DecidableEq ν]

/-- Everything of `b` is taken over. -/
theorem join_empty (h : Apart s [] lb) : JoinRight s [] lb := by
  have hback : s.a.back = none := h.back_eq
  have hcount : s.a.count = 0 := h.left.count
  unfold JoinRight join
  rw [hback]
  refine ⟨_, rfl, ⟨h.right.linked, ?_⟩, represents_initializer _ _, List.disjoint_nil_right _⟩
  change s.a.count + s.b.count = _
  rw [hcount, Nat.zero_add]
  exact h.right.count

/-- Both lists have nodes: the links are right, and the back is the old one. -/
theorem join_linked {x y : ν} (h : Apart s (la ++ [x]) (y :: lb)) : join s = .ok
    { a := { s.a with count := s.a.count + s.b.count }, b := initializer false,
      nodes := (s.nodes.setNext x (some y)).setPrev y (some x) } := by
  have hback : s.a.back = some x := by rw [h.back_eq, List.getLast?_concat]
  have hfront : s.b.front = some y := h.front_eq
  obtain ⟨⟨countA, frontA, backA, dtorA⟩, ⟨countB, frontB, backB, dtorB⟩, nodes⟩ := s
  obtain rfl : backA = some x := hback
  obtain rfl : frontB = some y := hfront
  rfl

theorem Apart.linked {x y : ν} (h : Apart s (la ++ [x]) (y :: lb)) :
    TwoWay (update s.nodes.next x (some y)) (update s.nodes.prev y (some x)) s.a.front s.b.back (la ++ x :: y :: lb) :=
  h.left.linked.join h.right.linked h.disjoint

theorem Apart.reads {x y : ν} (h : Apart s (la ++ [x]) (y :: lb)) :
    ∃ j, join s = .ok j ∧ Reads ⟨j.a, j.nodes⟩ (la ++ x :: y :: lb) := by
  have ha : s.a.count = (la ++ [x]).length := h.left.count
  have hb : s.b.count = (y :: lb).length := h.right.count
  refine ⟨_, join_linked h, h.linked.forward, ?_⟩
  change s.a.count + s.b.count = _
  rw [ha, hb]
  simp only [List.length_append, List.length_cons, List.length_nil]
  omega

/-- The last node of `b` is not the back. -/
theorem not_join_nonempty {x : ν} (h : Apart s (la ++ [x]) lb) : ¬ JoinRight s (la ++ [x]) lb := by
  rintro ⟨r, hr, happart⟩
  have hback : s.a.back = some x := by rw [h.back_eq, List.getLast?_concat]
  cases lb with
  | nil =>
    have hfront : s.b.front = none := h.front_eq
    unfold join at hr
    simp only [hback, hfront] at hr
    cases hr
  | cons y lb =>
    -- the back would have to be both a node of `a` and the last one of `b`
    rw [join_linked h] at hr
    obtain rfl := Except.ok.inj hr
    have hlast : s.a.back = (la ++ [x] ++ y :: lb).getLast? := happart.left.linked.back_eq
    rw [List.getLast?_append_of_ne_nil _ (List.cons_ne_nil y lb), hback] at hlast
    exact h.disjoint (List.mem_append_right _ (List.mem_singleton_self x)) (List.mem_of_mem_getLast? hlast.symm)

/-- **A join is right exactly where there was nothing in the list that is joined onto.** -/
theorem join_right_iff (s : Lists ν) (la lb : List ν) (h : Apart s la lb) : JoinRight s la lb ↔ la = [] := by
  rcases List.eq_nil_or_concat la with rfl | ⟨la, x, rfl⟩
  · exact ⟨fun _ => rfl, fun _ => join_empty h⟩
  · rw [List.concat_eq_append] at h ⊢
    refine ⟨fun hright => absurd hright (not_join_nonempty h), fun hnil => ?_⟩
    exact absurd hnil (List.append_ne_nil_of_right_ne_nil _ (List.cons_ne_nil _ _))

/-- Two lists of a node each. -/
def oneEach : Lists ℕ :=
  { a := { count := 1, front := some 0, back := some 0, dtor := true },
    b := { count := 1, front := some 1, back := some 1, dtor := true },
    nodes := { next := fun _ => none, prev := fun _ => none } }

theorem oneEach_apart : Apart oneEach [0] [1] :=
  ⟨⟨⟨List.nodup_singleton 0, ⟨rfl, rfl⟩, rfl, rfl⟩, rfl⟩, ⟨⟨List.nodup_singleton 1, ⟨rfl, rfl⟩, rfl, rfl⟩, rfl⟩,
    List.disjoint_singleton.2 (by decide)⟩

theorem join_onto_empty : JoinRight { oneEach with a := initializer true } [] [1] :=
  (join_right_iff { oneEach with a := initializer true } [] [1]
    ⟨represents_initializer _ _, oneEach_apart.right, List.disjoint_nil_left _⟩).2 rfl

/-- **The back is the old one, and the front of an empty list is written to.** -/
theorem join_stale_back : ¬ JoinRight oneEach [0] [1] ∧ ¬ JoinRight { oneEach with b := initializer true } [0] [] := by
  constructor
  · have happart : Apart oneEach ([] ++ [0]) [1] := oneEach_apart
    exact not_join_nonempty happart
  · have happart : Apart { oneEach with b := initializer true } ([] ++ [0]) [] :=
      ⟨oneEach_apart.left, represents_initializer _ _, List.disjoint_nil_right _⟩
    exact not_join_nonempty happart

/-! ## Splitting -/

omit [DecidableEq ν] in
theorem countListNodes_eq {next : ν → Option ν} {p : Option ν} {l : List ν} {rounds : ℕ} (h : Chain next p l)
    (hr : l.length ≤ rounds) (count : ℕ) : countListNodes next rounds p count = .ok (count + l.length) := by
  induction l generalizing p rounds count with
  | nil =>
    rw [chain_nil.1 h]
    cases rounds <;> rfl
  | cons a l ih =>
    obtain ⟨rfl, h⟩ := h
    rw [List.length_cons] at hr ⊢
    obtain ⟨rounds, rfl⟩ := Nat.exists_eq_add_of_le' (show 1 ≤ rounds by omega)
    rw [countListNodes, ih h (by omega)]
    congr 1
    omega

/-- The last node of several, taken out by `Dll_pop_back`, leaves the node before it without a next one. -/
theorem popBack_last (h : Represents ⟨list, m⟩ (l₁ ++ [z, node])) : ∃ s, popBack list m = .ok (s, some node) ∧
    s = ⟨{ list with count := list.count - 1, back := some z }, m.setNext z none⟩ := by
  have hback : list.back = some node := by
    rw [show list.back = _ from h.linked.back_eq, List.getLast?_append_of_ne_nil _ (List.cons_ne_nil _ _)]
    rfl
  have hprev : m.prev node = some z := by
    have hsplit : Represents ⟨list, m⟩ (l₁ ++ [z] ++ node :: []) := by rwa [List.append_assoc]
    rw [show m.prev node = _ from hsplit.linked.prev_eq, List.getLast?_concat]
  have hcount : list.count = l₁.length + 2 := by
    rw [show list.count = _ from h.count, List.length_append]
    rfl
  cases l₁ with
  | nil =>
    have hfront : list.front = some z := h.linked.front_eq
    have hz : m.prev z = none := h.linked.prev_first
    have hsame : update m.prev z none = m.prev := by rw [← hz, update_eq_self]
    have hnodes : (m.setNext z none).setPrev z none = m.setNext z none := by
      unfold Nodes.setPrev Nodes.setNext
      rw [hsame]
    unfold popBack
    rw [hcount]
    simp only [List.length_nil, hback, deref_some_bind, hprev, hnodes]
    refine ⟨_, rfl, ?_⟩
    rw [hfront]
  | cons x l₁ =>
    unfold popBack
    rw [hcount]
    simp only [List.length_cons, hback, deref_some_bind, hprev]
    exact ⟨_, rfl, rfl⟩

/-- What the list is split into, at a node that is not the first one. -/
theorem splitList_eq {rounds : ℕ} (h : Represents ⟨list, m⟩ (l₁ ++ z :: node :: l₂))
    (hr : (node :: l₂).length ≤ rounds) : splitList rounds list m node = .ok
      { a := { list with count := (l₁ ++ [z]).length, back := some z },
        b := { count := (node :: l₂).length, front := some node, back := if l₂ = [] then some node else none,
               dtor := list.dtor },
        nodes := (m.setNext z none).setPrev node none } := by
  have hat : Represents ⟨list, m⟩ (l₁ ++ [z] ++ node :: l₂) := by rwa [List.append_assoc]
  have hsplit := h.linked.split
  have hnext : m.next node = l₂.head? := hat.linked.next_eq
  have hprev : m.prev node = some z := by
    rw [show m.prev node = _ from hat.linked.prev_eq, List.getLast?_concat]
  have hfront : some node ≠ list.front := by
    rw [Ne, front_eq_iff hat]
    exact List.append_ne_nil_of_right_ne_nil _ (List.cons_ne_nil _ _)
  have hcount : list.count - (node :: l₂).length = (l₁ ++ [z]).length := by
    rw [show list.count = _ from hat.count, List.length_append, Nat.add_sub_cancel]
  have hnodes := countListNodes_eq hsplit.2.forward hr 0
  rw [Nat.zero_add] at hnodes
  unfold splitList
  rw [if_neg hfront]
  -- the count is written over afterwards
  have hcut : ∃ count, cutBefore list m node = .ok ⟨{ list with count := count, back := some z }, m.setNext z none⟩ := by
    unfold cutBefore
    by_cases hlast : l₂ = []
    · subst hlast
      obtain ⟨s, hs, rfl⟩ := popBack_last h
      rw [if_pos ((back_eq_iff hat).2 rfl), hs]
      exact ⟨_, rfl⟩
    · rw [if_neg fun he => hlast ((back_eq_iff hat).1 he), hprev]
      exact ⟨_, rfl⟩
  have hback : (if m.next node = none then some node else (initializer list.dtor).back) =
      if l₂ = [] then some node else none := by
    simp only [hnext, List.head?_eq_none_iff]
    rfl
  obtain ⟨count, hcut⟩ := hcut
  change (cutBefore list m node >>= _) = _
  rw [hcut]
  change (countListNodes (update m.next z none) rounds (some node) 0 >>= _) = _
  rw [hnodes]
  change Except.ok (Lists.mk ⟨list.count - _, _, _, _⟩ ⟨_, _, if m.next node = none then _ else _, _⟩ _) = _
  rw [hcount, hback]
  rfl

/-- At the first node the whole list is handed over. -/
theorem splitList_first {rounds : ℕ} (h : Represents ⟨list, m⟩ (node :: l₂)) : splitList rounds list m node = .ok
    { a := { list with count := 0, front := none, back := none }, b := { list with dtor := list.dtor }, nodes := m } := by
  have hfront : some node = list.front := by
    rw [← List.nil_append (node :: l₂)] at h
    exact (front_eq_iff h).2 rfl
  unfold splitList
  rw [if_pos hfront]
  rfl

theorem split_first (h : Represents ⟨list, m⟩ (node :: l₂)) (rounds : ℕ) :
    SplitRight rounds ⟨list, m⟩ [] node l₂ ∧ RejoinRight rounds ⟨list, m⟩ [] node l₂ := by
  have happart : Apart (⟨{ list with count := 0, front := none, back := none }, list, m⟩ : Lists ν) [] (node :: l₂) :=
    ⟨⟨twoWay_nil, rfl⟩, h, List.disjoint_nil_left _⟩
  obtain ⟨j, hj, hjoined⟩ := join_empty happart
  exact ⟨⟨_, splitList_first h, happart, j, hj, hjoined.left.linked.forward, hjoined.left.count⟩,
    ⟨_, splitList_first h, j, hj, hjoined.left⟩⟩

/-- What is split off has its back only where it is one node. -/
theorem split_later_iff {rounds : ℕ} (h : Represents ⟨list, m⟩ (l₁ ++ z :: node :: l₂))
    (hr : (node :: l₂).length ≤ rounds) : SplitRight rounds ⟨list, m⟩ (l₁ ++ [z]) node l₂ ↔ l₂ = [] := by
  have hsplit := h.linked.split
  have hdis : (l₁ ++ [z]).Disjoint (node :: l₂) := by
    have hnodup : (l₁ ++ [z] ++ node :: l₂).Nodup := by
      rw [List.append_assoc]
      exact h.linked.nodup
    exact List.disjoint_of_nodup_append hnodup
  constructor
  · rintro ⟨r, hrun, happart, -⟩
    obtain rfl := Except.ok.inj ((splitList_eq h hr).symm.trans hrun)
    by_contra hne
    -- the new list has nodes and no back
    have hback : (if l₂ = [] then some node else none) = (node :: l₂).getLast? := happart.right.linked.back_eq
    rw [if_neg hne, eq_comm, List.getLast?_eq_none_iff] at hback
    cases hback
  · rintro rfl
    have hback : list.back = some node := by
      have hat : Represents ⟨list, m⟩ (l₁ ++ [z] ++ node :: []) := by rwa [List.append_assoc]
      exact ((back_eq_iff hat).2 rfl).symm
    have hright := hsplit.2
    change TwoWay _ _ _ list.back _ at hright
    rw [hback] at hright
    refine ⟨_, splitList_eq h hr, ?_⟩
    generalize hres : Lists.mk _ _ _ = r
    have happart : Apart r (l₁ ++ [z]) [node] := by
      subst hres
      exact ⟨⟨hsplit.1, rfl⟩, ⟨hright, rfl⟩, hdis⟩
    obtain ⟨j, hj, hreads⟩ := happart.reads
    refine ⟨happart, j, hj, ?_⟩
    rw [List.append_assoc]
    exact hreads

/-- The node before the others stays the back. -/
theorem not_rejoin_later {rounds : ℕ} (h : Represents ⟨list, m⟩ (l₁ ++ z :: node :: l₂))
    (hr : (node :: l₂).length ≤ rounds) : ¬ RejoinRight rounds ⟨list, m⟩ (l₁ ++ [z]) node l₂ := by
  rintro ⟨r, hrun, j, hj, hrep⟩
  obtain rfl := Except.ok.inj ((splitList_eq h hr).symm.trans hrun)
  obtain rfl := Except.ok.inj hj
  have hback : some z = (l₁ ++ [z] ++ node :: l₂).getLast? := hrep.linked.back_eq
  rw [List.getLast?_append_of_ne_nil _ (List.cons_ne_nil _ _)] at hback
  have hnodup := hrep.linked.nodup
  exact (List.disjoint_of_nodup_append hnodup) (List.mem_append_right _ (List.mem_singleton_self z))
    (List.mem_of_mem_getLast? hback.symm)

/-- **A split is right at the first and at the last node; joined again, only a list split at the first one is as it
was.** -/
theorem split_join_iff (rounds : ℕ) (list : Dllist ν) (m : Nodes ν) (l₁ : List ν) (node : ν) (l₂ : List ν)
    (h : Represents ⟨list, m⟩ (l₁ ++ node :: l₂)) (hr : (node :: l₂).length ≤ rounds) :
    (SplitRight rounds ⟨list, m⟩ l₁ node l₂ ↔ l₁ = [] ∨ l₂ = []) ∧
      (RejoinRight rounds ⟨list, m⟩ l₁ node l₂ ↔ l₁ = []) := by
  rcases List.eq_nil_or_concat l₁ with rfl | ⟨l₁, z, rfl⟩
  · obtain ⟨hsplit, hrejoin⟩ := split_first h rounds
    exact ⟨⟨fun _ => Or.inl rfl, fun _ => hsplit⟩, fun _ => rfl, fun _ => hrejoin⟩
  · rw [List.concat_eq_append] at h ⊢
    have hne : l₁ ++ [z] ≠ [] := List.append_ne_nil_of_right_ne_nil _ (List.cons_ne_nil _ _)
    rw [List.append_assoc, List.singleton_append] at h
    rw [split_later_iff h hr]
    refine ⟨⟨Or.inr, fun hor => hor.resolve_left hne⟩, fun hrejoin => ?_, fun hnil => absurd hnil hne⟩
    exact absurd hrejoin (not_rejoin_later h hr)

/-- A list of three nodes. -/
def threeNodes : State ℕ :=
  { list := { count := 3, front := some 0, back := some 2, dtor := true },
    nodes := { next := fun | 0 => some 1 | 1 => some 2 | _ => none, prev := fun | 1 => some 0 | 2 => some 1 | _ => none } }

theorem threeNodes_represents : Represents threeNodes [0, 1, 2] :=
  ⟨⟨by decide, ⟨rfl, rfl, rfl, rfl⟩, rfl, rfl, rfl, rfl⟩, rfl⟩

theorem split_at_last : SplitRight 3 threeNodes [0, 1] 2 [] :=
  (split_join_iff 3 threeNodes.list threeNodes.nodes [0, 1] 2 [] threeNodes_represents (by decide)).1.2 (Or.inr rfl)

/-- **Split in the middle, the new list has no back.** -/
theorem split_no_back : ¬ SplitRight 3 threeNodes [0] 1 [2] := by
  intro h
  have hthree : Represents threeNodes ([] ++ 0 :: 1 :: [2]) := threeNodes_represents
  cases (split_later_iff hthree (by decide)).1 h

end Libtarp.Dll
