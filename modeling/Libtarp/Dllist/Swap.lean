import Libtarp.Dllist.Join
import Libtarp.Lib.Position
import Mathlib.Logic.Equiv.Basic

/-!
# Two nodes of a doubly linked list exchanged (`dllist.c`, `Dll_swap_list_nodes`)

The first node is taken out, put in the place of the second, and the second put behind the node that was before the
first. Where this is the second node itself, it is put behind itself, out of the list.

* `swapListNodes_spec`, `swapListNodes_spec'`: the two orders.
* `not_swap_before`: the second node directly before the first.
* `swap_list_iff`: the nodes for which the exchange is right.
-/

namespace Libtarp.Dll

open Function Lib

variable {ν : Type} [DecidableEq ν]

/-- `Dll_swap_list_nodes`. -/
def swapListNodes (list : Dllist ν) (m : Nodes ν) (a b : ν) : Except Fault (State ν) := do
  let beforeA := m.prev a
  let s ← removeNode list m a false
  let s := replaceNode s.list s.nodes b a
  match beforeA with
  | some beforeA => putNodeAfter s.list s.nodes beforeA b
  | none => pushFront s.list s.nodes b

/-! ## What is asked for -/

/-- The two nodes change places, and all others stay. -/
def swapped (a b : ν) (l : List ν) : List ν := l.map (Equiv.swap a b)

def SwapRight (s : State ν) (l : List ν) (a b : ν) : Prop :=
  ∃ r, swapListNodes s.list s.nodes a b = .ok r ∧ Represents r (swapped a b l)

/-- A second call puts the nodes back. -/
def SwapUndone (s : State ν) (l : List ν) (a b : ν) : Prop :=
  ∃ r, swapListNodes s.list s.nodes a b = .ok r ∧
    ∃ r', swapListNodes r.list r.nodes a b = .ok r' ∧ Represents r' l

/-! ## Sequences with two nodes exchanged -/

variable {list : Dllist ν} {m : Nodes ν} {l l₁ l₂ l₃ : List ν} {a b : ν}

theorem swapped_swapped (a b : ν) (l : List ν) : swapped a b (swapped a b l) = l := by
  unfold swapped
  rw [List.map_map]
  conv_rhs => rw [← List.map_id l]
  congr 1
  funext x
  exact Equiv.swap_apply_self a b x

theorem swapped_of_notMem (ha : a ∉ l) (hb : b ∉ l) : swapped a b l = l := by
  unfold swapped
  conv_rhs => rw [← List.map_id l]
  refine List.map_congr_left fun x hx => Equiv.swap_apply_of_ne_of_ne ?_ ?_
  · rintro rfl
    exact ha hx
  · rintro rfl
    exact hb hx

/-- The two nodes, wherever they are. -/
theorem swapped_eq (hn : (l₁ ++ a :: (l₂ ++ b :: l₃)).Nodup) :
    swapped a b (l₁ ++ a :: (l₂ ++ b :: l₃)) = l₁ ++ b :: (l₂ ++ a :: l₃) := by
  have hn' := hn
  simp only [List.nodup_append, List.nodup_cons, List.mem_append, List.mem_cons, not_or] at hn'
  obtain ⟨-, ⟨⟨ha₂, -, ha₃⟩, -, ⟨hb₃, -⟩, hdis⟩, hdis'⟩ := hn'
  have ha₁ : a ∉ l₁ := fun hm => hdis' a hm a (.inl rfl) rfl
  have hb₁ : b ∉ l₁ := fun hm => hdis' b hm b (.inr (.inr (.inl rfl))) rfl
  have hb₂ : b ∉ l₂ := fun hm => hdis b hm b (.inl rfl) rfl
  have h₁ := swapped_of_notMem ha₁ hb₁
  have h₂ := swapped_of_notMem ha₂ hb₂
  have h₃ := swapped_of_notMem ha₃ hb₃
  unfold swapped at h₁ h₂ h₃ ⊢
  rw [List.map_append, List.map_cons, List.map_append, List.map_cons, h₁, h₂, h₃, Equiv.swap_apply_left,
    Equiv.swap_apply_right]

theorem swapped_comm (a b : ν) (l : List ν) : swapped a b l = swapped b a l := by
  unfold swapped
  rw [Equiv.swap_comm]

/-! ## The two orders -/

theorem removeNode_spec (h : Represents ⟨list, m⟩ (l₁ ++ a :: l₂)) :
    ∃ s, removeNode list m a false = .ok s ∧ Represents s (l₁ ++ l₂) := by
  obtain ⟨s, hs, hr, -⟩ := unlink_spec h
  refine ⟨s, ?_, hr⟩
  unfold removeNode
  rw [hs]
  rfl

/-- The node taken out is put in the place of `b`. -/
theorem swap_replaced {u v : List ν} (h : Represents ⟨list, m⟩ (u ++ a :: v)) (hrest : u ++ v = l₁ ++ b :: l₂) :
    ∃ s, removeNode list m a false = .ok s ∧ Represents s (l₁ ++ b :: l₂) ∧ a ∉ l₁ ++ b :: l₂ ∧ b ∉ l₁ ++ a :: l₂ ∧
      Represents (replaceNode s.list s.nodes b a) (l₁ ++ a :: l₂) := by
  obtain ⟨s, hs, hr⟩ := removeNode_spec h
  have houtside (x : ν) (u v : List ν) (hn : (u ++ x :: v).Nodup) : x ∉ u ++ v := by
    have hperm : (u ++ x :: v).Perm (x :: (u ++ v)) := List.perm_middle
    exact (List.nodup_cons.1 (hperm.nodup_iff.1 hn)).1
  have ha := houtside a u v h.linked.nodup
  rw [hrest] at hr ha
  have hb := houtside b l₁ l₂ hr.linked.nodup
  refine ⟨s, hs, hr, ha, ?_, (replaceNode_spec hr ha).1⟩
  simp only [List.mem_append, List.mem_cons, not_or] at ha hb ⊢
  exact ⟨hb.1, Ne.symm ha.2.1, hb.2⟩

/-- `a` comes first. -/
theorem swapListNodes_spec (h : Represents ⟨list, m⟩ (l₁ ++ a :: (l₂ ++ b :: l₃))) :
    ∃ s, swapListNodes list m a b = .ok s ∧ Represents s (l₁ ++ b :: (l₂ ++ a :: l₃)) := by
  have hprev : m.prev a = l₁.getLast? := h.linked.prev_eq
  obtain ⟨s, hs, -, -, hb, hr⟩ := swap_replaced h (List.append_assoc l₁ l₂ (b :: l₃)).symm
  unfold swapListNodes
  rw [hs, hprev]
  rcases List.eq_nil_or_concat l₁ with rfl | ⟨l₁, p, rfl⟩
  · obtain ⟨r, hr', hrep, -⟩ := pushFront_spec hr hb
    exact ⟨r, hr', hrep⟩
  · rw [List.concat_eq_append] at hr hb ⊢
    have hsplit : l₁ ++ [p] ++ l₂ ++ a :: l₃ = l₁ ++ p :: (l₂ ++ a :: l₃) := by simp
    rw [hsplit] at hr hb
    obtain ⟨r, hr', hrep, -⟩ := putNodeAfter_spec hr hb
    rw [List.getLast?_concat]
    refine ⟨r, hr', ?_⟩
    rw [List.append_assoc]
    exact hrep

/-- `b` comes first, with another node behind it. -/
theorem swapListNodes_spec' {c : ν} (h : Represents ⟨list, m⟩ (l₁ ++ b :: (l₂ ++ c :: a :: l₃))) :
    ∃ s, swapListNodes list m a b = .ok s ∧ Represents s (l₁ ++ a :: (l₂ ++ c :: b :: l₃)) := by
  have hsplit : l₁ ++ b :: (l₂ ++ c :: a :: l₃) = l₁ ++ b :: l₂ ++ [c] ++ a :: l₃ := by simp
  have hrest : l₁ ++ b :: l₂ ++ [c] ++ l₃ = l₁ ++ b :: (l₂ ++ c :: l₃) := by simp
  have hresult : l₁ ++ a :: (l₂ ++ c :: b :: l₃) = l₁ ++ a :: l₂ ++ c :: b :: l₃ := by simp
  have hbefore : l₁ ++ a :: (l₂ ++ c :: l₃) = l₁ ++ a :: l₂ ++ c :: l₃ := by simp
  rw [hsplit] at h
  have hprev : m.prev a = some c := by
    rw [show m.prev a = _ from h.linked.prev_eq, List.getLast?_concat]
  obtain ⟨s, hs, -, -, hb, hr⟩ := swap_replaced h hrest
  rw [hbefore] at hb hr
  obtain ⟨r, hr', hrep, -⟩ := putNodeAfter_spec hr hb
  unfold swapListNodes
  rw [hs, hprev, hresult]
  exact ⟨r, hr', hrep⟩

/-! ## The second node directly before the first -/

/-- A node that is replaced keeps its own links. -/
theorem replaceNode_next (h : Represents ⟨list, m⟩ (l₁ ++ a :: l₂)) (hb : b ∉ l₁ ++ a :: l₂) :
    (replaceNode list m a b).nodes.next a = m.next a := by
  have hprev : m.prev a = l₁.getLast? := h.linked.prev_eq
  have hnext : m.next a = l₂.head? := h.linked.next_eq
  have hab : a ≠ b := by
    rintro rfl
    exact hb (List.mem_append_right _ List.mem_cons_self)
  have hbefore : ∀ c, m.prev a = some c → a ≠ c := by
    rintro c hc rfl
    rw [hprev] at hc
    exact (List.nodup_append.1 h.linked.nodup).2.2 a (List.mem_of_mem_getLast? hc) a List.mem_cons_self rfl
  have hbehind : ∀ c, m.next a = some c → b ≠ c := by
    rintro c hc rfl
    rw [hnext] at hc
    exact hb (List.mem_append_right _ (List.mem_cons_of_mem _ (List.mem_of_mem_head? hc)))
  unfold replaceNode
  simp only [Nodes.setNext_next, Nodes.setPrev_next, update_self]
  cases hn : m.next a with
  | none =>
    simp only [Nodes.setPrev_prev, update_self, Nodes.setNext_prev]
    cases hp : m.prev a with
    | none => exact (update_of_ne hab _ _).trans hn
    | some c => exact (update_of_ne (hbefore c hp) _ _).trans ((update_of_ne hab _ _).trans hn)
  | some d =>
    simp only [Nodes.setPrev_prev, update_self, Nodes.setNext_prev, update_of_ne (hbehind d hn)]
    cases hp : m.prev a with
    | none => exact (update_of_ne hab _ _).trans hn
    | some c => exact (update_of_ne (hbefore c hp) _ _).trans ((update_of_ne hab _ _).trans hn)

theorem not_swap_before (h : Represents ⟨list, m⟩ (l₁ ++ b :: a :: l₃)) :
    ¬ SwapRight ⟨list, m⟩ (l₁ ++ b :: a :: l₃) a b := by
  have hswapped : swapped a b (l₁ ++ b :: a :: l₃) = l₁ ++ a :: b :: l₃ := by
    have heq : swapped b a (l₁ ++ b :: ([] ++ a :: l₃)) = l₁ ++ a :: ([] ++ b :: l₃) := swapped_eq h.linked.nodup
    rw [swapped_comm]
    exact heq
  have hat : Represents ⟨list, m⟩ (l₁ ++ [b] ++ a :: l₃) := by rwa [List.append_assoc]
  have hprev : m.prev a = some b := by
    rw [show m.prev a = _ from hat.linked.prev_eq, List.getLast?_concat]
  obtain ⟨s, hs, hrest, ha, hb, hr⟩ := swap_replaced hat (List.append_assoc l₁ [b] l₃)
  have hnext : (replaceNode s.list s.nodes b a).nodes.next b = l₃.head? :=
    (replaceNode_next hrest ha).trans hrest.linked.next_eq
  have hback : some b ≠ (replaceNode s.list s.nodes b a).list.back := by
    rw [hr.linked.back_eq]
    intro he
    exact hb (List.mem_of_mem_getLast? he.symm)
  rintro ⟨r, hrun, hrep⟩
  rw [hswapped] at hrep
  unfold swapListNodes at hrun
  rw [hs, hprev] at hrun
  change putNodeAfter _ _ b b = _ at hrun
  unfold putNodeAfter at hrun
  rw [if_neg hback, hnext] at hrun
  have hab : a ≠ b := by
    rintro rfl
    exact ha (List.mem_append_right _ List.mem_cons_self)
  cases l₃ with
  | nil =>
    simp only [List.head?_nil, Nodes.setNext_next, update_self, deref_none_bind] at hrun
    cases hrun
  | cons c l₃ =>
    simp only [List.head?_cons, Nodes.setNext_next, update_self, deref_some_bind] at hrun
    obtain rfl := Except.ok.inj hrun
    -- behind `a` comes what was behind it before
    have hbehind : some c = some b := by
      have hwritten : update (update (replaceNode s.list s.nodes b a).nodes.next b (some c)) b (some b) a = some b :=
        hrep.linked.next_eq
      have hold : (replaceNode s.list s.nodes b a).nodes.next a = some c := hr.linked.next_eq
      rwa [update_of_ne hab, update_of_ne hab, hold] at hwritten
    obtain rfl := Option.some.inj hbehind
    exact hb (List.mem_append_right _ (List.mem_cons_of_mem _ List.mem_cons_self))

/-! ## Any two nodes -/

theorem swapRight_iff (h : Represents ⟨list, m⟩ l) (ha : a ∈ l) (hb : b ∈ l) (hab : a ≠ b) :
    SwapRight ⟨list, m⟩ l a b ↔ ¬ [b, a] <:+: l := by
  have hn := h.linked.nodup
  rcases split_of_mem_mem ha hb hab with ⟨l₁, l₂, l₃, rfl⟩ | ⟨l₁, l₂, l₃, rfl⟩
  · obtain ⟨s, hs, hr⟩ := swapListNodes_spec h
    refine ⟨fun _ => ?_, fun _ => ⟨s, hs, by rwa [swapped_eq hn]⟩⟩
    rw [pair_infix_iff hn]
    intro hlast
    exact (List.nodup_append.1 hn).2.2 b (List.mem_of_mem_getLast? hlast) b (by simp) rfl
  · -- `b` comes first: `c` is the node directly before `a`, if there is another one between them
    rcases List.eq_nil_or_concat l₂ with rfl | ⟨l₂, c, rfl⟩
    · refine ⟨fun hright => absurd hright (not_swap_before h), fun hnot => absurd ?_ hnot⟩
      exact ⟨l₁, l₃, by simp⟩
    · have hsplit : l₁ ++ b :: (l₂.concat c ++ a :: l₃) = l₁ ++ b :: (l₂ ++ c :: a :: l₃) := by simp
      have hbefore : l₁ ++ b :: (l₂ ++ c :: a :: l₃) = l₁ ++ b :: l₂ ++ [c] ++ a :: l₃ := by simp
      have hresult : l₁ ++ a :: (l₂.concat c ++ b :: l₃) = l₁ ++ a :: (l₂ ++ c :: b :: l₃) := by simp
      have hnodup := hn
      have hrep := h
      rw [hsplit] at hrep
      obtain ⟨s, hs, hr⟩ := swapListNodes_spec' hrep
      refine ⟨fun _ => ?_, fun _ => ⟨s, hs, ?_⟩⟩
      · rw [hsplit, hbefore] at hnodup ⊢
        rw [pair_infix_iff hnodup, List.getLast?_concat]
        intro hcb
        obtain rfl := Option.some.inj hcb
        simp [List.nodup_append] at hnodup
      · rw [swapped_comm, swapped_eq hn, hresult]
        exact hr

/-- Neighbours stay neighbours, the other way round. -/
theorem swapped_infix_iff : [b, a] <:+: swapped a b l ↔ [a, b] <:+: l := by
  have hmap (k : List ν) (x y : ν) (h : [x, y] <:+: k) : [Equiv.swap a b x, Equiv.swap a b y] <:+: swapped a b k := by
    obtain ⟨u, v, rfl⟩ := h
    exact ⟨swapped a b u, swapped a b v, by unfold swapped; simp⟩
  constructor
  · intro h
    have hback := hmap _ b a h
    rwa [swapped_swapped, Equiv.swap_apply_right, Equiv.swap_apply_left] at hback
  · intro h
    have hthere := hmap _ a b h
    rwa [Equiv.swap_apply_left, Equiv.swap_apply_right] at hthere

theorem mem_swapped {x : ν} (h : x ∈ l) : Equiv.swap a b x ∈ swapped a b l := List.mem_map_of_mem h

/-- **Two nodes are exchanged unless the second one is directly before the first, and exchanged back unless they are
neighbours.** -/
theorem swap_list_iff (list : Dllist ν) (m : Nodes ν) (l : List ν) (a b : ν) (h : Represents ⟨list, m⟩ l) (ha : a ∈ l)
    (hb : b ∈ l) (hab : a ≠ b) :
    (SwapRight ⟨list, m⟩ l a b ↔ ¬ [b, a] <:+: l) ∧
      (SwapRight ⟨list, m⟩ l a b ∧ SwapUndone ⟨list, m⟩ l a b ↔ ¬ [a, b] <:+: l ∧ ¬ [b, a] <:+: l) := by
  have hright := swapRight_iff h ha hb hab
  have ha' : a ∈ swapped a b l := by simpa using mem_swapped (a := a) (b := b) hb
  have hb' : b ∈ swapped a b l := by simpa using mem_swapped (a := a) (b := b) ha
  refine ⟨hright, ?_⟩
  constructor
  · rintro ⟨⟨r, hr, hrep⟩, r', hr', r'', hr'', hback⟩
    obtain rfl := Except.ok.inj (hr.symm.trans hr')
    refine ⟨?_, hright.1 ⟨r, hr, hrep⟩⟩
    rw [← swapped_infix_iff, ← swapRight_iff hrep ha' hb' hab]
    exact ⟨r'', hr'', by rwa [swapped_swapped]⟩
  · rintro ⟨hnot, hnot'⟩
    obtain ⟨r, hr, hrep⟩ := hright.2 hnot'
    rw [← swapped_infix_iff, ← swapRight_iff hrep ha' hb' hab] at hnot
    obtain ⟨r', hr', hback⟩ := hnot
    rw [swapped_swapped] at hback
    exact ⟨⟨r, hr, hrep⟩, r, hr, r', hr', hback⟩

theorem swap_list_ends : SwapRight threeNodes [0, 1, 2] 2 0 ∧ SwapUndone threeNodes [0, 1, 2] 2 0 :=
  (swap_list_iff threeNodes.list threeNodes.nodes [0, 1, 2] 2 0 threeNodes_represents (by decide) (by decide)
    (by decide)).2.2 ⟨by decide, by decide⟩

/-- **The first of three nodes is lost where it is exchanged with the one behind it.** -/
theorem swap_list_lost : ¬ SwapRight threeNodes [0, 1, 2] 1 0 := by
  have hthree : Represents threeNodes ([] ++ 0 :: 1 :: [2]) := threeNodes_represents
  exact not_swap_before hthree

end Libtarp.Dll
