import Libtarp.Dllist.Model
import Libtarp.Lib.TwoWay
import Mathlib.Data.List.Rotate

/-!
# What each call on a doubly linked list does

* `Represents`: the list has the nodes of a sequence, linked both ways, and counts them.
* `State.mirror`: a list read from its other end. What is done at the back is what is done at
  the front of the mirrored list.
* `popFront_spec` and so on: what each function does to the sequence.
-/

namespace Libtarp.Dll

open Function Lib

variable {ν : Type}

structure Represents (s : State ν) (l : List ν) : Prop where
  linked : TwoWay s.nodes.next s.nodes.prev s.list.front s.list.back l
  count : s.list.count = l.length

theorem represents_initializer (dtor : Bool) (m : Nodes ν) : Represents ⟨initializer dtor, m⟩ [] :=
  ⟨twoWay_nil, rfl⟩

/-! ## The other way round -/

def Dllist.mirror (list : Dllist ν) : Dllist ν := { list with front := list.back, back := list.front }

def Nodes.mirror (m : Nodes ν) : Nodes ν := { next := m.prev, prev := m.next }

def State.mirror (s : State ν) : State ν := ⟨s.list.mirror, s.nodes.mirror⟩

theorem Represents.mirror {s : State ν} {l : List ν} (h : Represents s l) : Represents s.mirror l.reverse :=
  ⟨h.linked.mirror, by rw [List.length_reverse]; exact h.count⟩

theorem Represents.mirror_split {s : State ν} {l₁ l₂ : List ν} {a : ν} (h : Represents s (l₁ ++ a :: l₂)) :
    Represents s.mirror (l₂.reverse ++ a :: l₁.reverse) := by
  have := h.mirror
  rwa [List.reverse_append, List.reverse_cons, List.append_assoc, List.singleton_append] at this

variable [DecidableEq ν] {list : Dllist ν} {m : Nodes ν} {l l₁ l₂ : List ν} {a b node : ν}

omit [DecidableEq ν] in
@[simp] theorem deref_some_bind {β : Type} (node : ν) (f : ν → Except Fault β) : (deref (some node) >>= f) = f node := rfl

omit [DecidableEq ν] in
@[simp] theorem deref_none_bind {β : Type} (f : ν → Except Fault β) : (deref none >>= f) = .error .nullPointer := rfl

theorem popBack_mirror (list : Dllist ν) (m : Nodes ν) :
    popBack list m = (popFront list.mirror m.mirror).map fun p => (p.1.mirror, p.2) := by
  unfold popBack popFront Dllist.mirror Nodes.mirror
  dsimp only
  split
  · rfl
  · rfl
  · cases list.back with
    | none => rfl
    | some node =>
      simp only [deref_some_bind]
      cases m.prev node <;> rfl
  · cases list.back with
    | none => rfl
    | some node =>
      simp only [deref_some_bind]
      cases m.prev node <;> rfl

theorem pushBack_mirror (list : Dllist ν) (m : Nodes ν) (node : ν) :
    pushBack list m node = (pushFront list.mirror m.mirror node).map State.mirror := by
  unfold pushBack pushFront
  dsimp only
  split_ifs with h₁ h₂
  · rfl
  · exact absurd h₁ h₂
  · exact absurd ‹_› h₁
  · simp only [Nodes.setNext_next, Nodes.setPrev_prev, Nodes.mirror, update_self, Dllist.mirror]
    cases list.back <;> rfl

theorem putNodeBefore_mirror (list : Dllist ν) (m : Nodes ν) (a b : ν) :
    putNodeBefore list m a b = (putNodeAfter list.mirror m.mirror a b).map State.mirror := by
  unfold putNodeBefore putNodeAfter
  split_ifs with h₁ h₂
  · rw [pushBack_mirror]
    change pushFront list m b = Except.map _ (Except.map _ (pushFront list m b))
    cases pushFront list m b <;> rfl
  · exact absurd h₁ h₂
  · exact absurd ‹_› h₁
  · simp only [Nodes.setNext_next, Nodes.setPrev_prev, Nodes.mirror, update_self]
    cases m.prev a <;> rfl

/-! ## Both ends -/

theorem popFront_spec (h : Represents ⟨list, m⟩ l) : ∃ s, popFront list m = .ok (s, l.head?) ∧
    Represents s l.tail ∧ s.list.dtor = list.dtor := by
  obtain ⟨hl, hc⟩ := h
  have hf := hl.front_eq
  dsimp only at hl hc hf
  unfold popFront
  match l with
  | [] =>
    rw [hc]
    exact ⟨_, rfl, ⟨hl, hc⟩, rfl⟩
  | [a] =>
    rw [hc]
    exact ⟨_, congrArg (fun p => Except.ok (_, p)) hf, ⟨twoWay_nil, rfl⟩, rfl⟩
  | [a, b] =>
    have hn : m.next a = some b := hl.next_first
    rw [hc, hf]
    simp only [List.length_cons, List.length_nil, Nat.reduceAdd, List.head?_cons, deref_some_bind, hn]
    exact ⟨_, rfl, ⟨twoWay_singleton, rfl⟩, rfl⟩
  | a :: b :: c :: l =>
    have hn : m.next a = some b := hl.next_first
    rw [hc, hf]
    simp only [List.length_cons, List.head?_cons, deref_some_bind, hn]
    exact ⟨_, rfl, ⟨hl.popFront, rfl⟩, rfl⟩

theorem popBack_spec (h : Represents ⟨list, m⟩ l) : ∃ s, popBack list m = .ok (s, l.getLast?) ∧
    Represents s l.dropLast ∧ s.list.dtor = list.dtor := by
  obtain ⟨s, hs, hr, hd⟩ := popFront_spec (show Represents ⟨list.mirror, m.mirror⟩ l.reverse from h.mirror)
  refine ⟨s.mirror, ?_, ?_, hd⟩
  · rw [popBack_mirror, hs, List.head?_reverse]
    rfl
  · have := hr.mirror
    rwa [List.tail_reverse, List.reverse_reverse] at this

theorem pushFront_spec (h : Represents ⟨list, m⟩ l) (hn : node ∉ l) : ∃ s, pushFront list m node = .ok s ∧
    Represents s (node :: l) ∧ s.list.dtor = list.dtor := by
  obtain ⟨hl, hc⟩ := h
  have hf := hl.front_eq
  dsimp only at hl hc hf
  unfold pushFront
  dsimp only
  match l with
  | [] =>
    rw [if_pos (show list.count = 0 from hc), hf]
    exact ⟨_, rfl, ⟨twoWay_singleton, congrArg (· + 1) hc⟩, rfl⟩
  | b :: l =>
    rw [if_neg (by rw [hc]; exact Nat.succ_ne_zero _)]
    have hlinked := hl.pushFront hn
    simp only [Nodes.setNext_next, update_self, hf, List.head?_cons, deref_some_bind]
    rw [hf] at hlinked
    exact ⟨_, rfl, ⟨hlinked, congrArg (· + 1) hc⟩, rfl⟩

theorem pushBack_spec (h : Represents ⟨list, m⟩ l) (hn : node ∉ l) : ∃ s, pushBack list m node = .ok s ∧
    Represents s (l ++ [node]) ∧ s.list.dtor = list.dtor := by
  obtain ⟨s, hs, hr, hd⟩ := pushFront_spec (show Represents ⟨list.mirror, m.mirror⟩ l.reverse from h.mirror)
    (fun hm => hn (List.mem_reverse.1 hm))
  refine ⟨s.mirror, by rw [pushBack_mirror, hs]; rfl, ?_, hd⟩
  have := hr.mirror
  rwa [List.reverse_cons, List.reverse_reverse] at this

/-! ## Anywhere in a list -/

omit [DecidableEq ν] in
theorem front_eq_iff (h : Represents ⟨list, m⟩ (l₁ ++ node :: l₂)) : some node = list.front ↔ l₁ = [] := by
  have hf : list.front = (l₁ ++ node :: l₂).head? := h.linked.front_eq
  rw [hf]
  cases l₁ with
  | nil => simp
  | cons b l₁ =>
    have hn := (List.nodup_cons.1 h.linked.nodup).1
    simp only [List.cons_append, List.head?_cons, Option.some.injEq, reduceCtorEq, iff_false]
    rintro rfl
    simp at hn

omit [DecidableEq ν] in
theorem back_eq_iff (h : Represents ⟨list, m⟩ (l₁ ++ node :: l₂)) : some node = list.back ↔ l₂ = [] := by
  have hm : Represents ⟨list.mirror, m.mirror⟩ (l₂.reverse ++ node :: l₁.reverse) := h.mirror_split
  rw [← List.reverse_eq_nil_iff, ← front_eq_iff hm]
  rfl

theorem unlink_spec (h : Represents ⟨list, m⟩ (l₁ ++ node :: l₂)) : ∃ s, unlink list m node = .ok s ∧
    Represents s (l₁ ++ l₂) ∧ s.list.dtor = list.dtor := by
  have hfront := front_eq_iff h
  have hback := back_eq_iff h
  have hc : list.count = (l₁ ++ node :: l₂).length := h.count
  unfold unlink
  rw [if_neg (by rw [hc]; simp)]
  -- a node at an end is popped, and one in the middle is bridged
  by_cases h₁ : l₁ = []
  · rw [if_pos (hfront.2 h₁)]
    obtain ⟨s, hs, hr, hd⟩ := popFront_spec h
    subst h₁
    exact ⟨s, by rw [hs]; rfl, hr, hd⟩
  · rw [if_neg fun he => h₁ (hfront.1 he)]
    by_cases h₂ : l₂ = []
    · rw [if_pos (hback.2 h₂)]
      obtain ⟨s, hs, hr, hd⟩ := popBack_spec h
      subst h₂
      rw [List.dropLast_concat] at hr
      exact ⟨s, by rw [hs]; rfl, by simpa using hr, hd⟩
    · rw [if_neg fun he => h₂ (hback.1 he)]
      obtain ⟨c, l₂, rfl⟩ := List.exists_cons_of_ne_nil h₂
      obtain ⟨l₁, b, rfl⟩ := (List.eq_nil_or_concat l₁).resolve_left h₁
      rw [List.concat_eq_append] at *
      have hnext : m.next node = some c := h.linked.next_eq
      have hprev : m.prev node = some b := by
        have := h.linked.prev_eq
        rwa [List.getLast?_concat] at this
      have hnc : node ≠ c := by
        have := h.linked.nodup
        rintro rfl
        simp [List.nodup_append] at this
      simp only [List.append_assoc, List.cons_append, List.nil_append] at h hc ⊢
      simp only [hnext, hprev, deref_some_bind, Nodes.setPrev_prev, Nodes.setPrev_next, update_of_ne hnc]
      refine ⟨_, rfl, ⟨h.linked.remove, ?_⟩, rfl⟩
      show list.count - 1 = _
      rw [hc]
      simp

theorem putNodeAfter_spec (h : Represents ⟨list, m⟩ (l₁ ++ a :: l₂)) (hb : b ∉ l₁ ++ a :: l₂) :
    ∃ s, putNodeAfter list m a b = .ok s ∧ Represents s (l₁ ++ a :: b :: l₂) ∧ s.list.dtor = list.dtor := by
  have hback := back_eq_iff h
  unfold putNodeAfter
  by_cases h₂ : l₂ = []
  · rw [if_pos (hback.2 h₂)]
    subst h₂
    simpa using pushBack_spec h hb
  · rw [if_neg fun he => h₂ (hback.1 he)]
    obtain ⟨c, l₂, rfl⟩ := List.exists_cons_of_ne_nil h₂
    have hnext : m.next a = some c := h.linked.next_eq
    simp only [hnext, Nodes.setNext_next, update_self, deref_some_bind]
    refine ⟨_, rfl, ⟨h.linked.insert hb, ?_⟩, rfl⟩
    have hc : list.count = (l₁ ++ a :: c :: l₂).length := h.count
    show list.count + 1 = _
    rw [hc]
    simp only [List.length_append, List.length_cons]
    omega

theorem putNodeBefore_spec (h : Represents ⟨list, m⟩ (l₁ ++ a :: l₂)) (hb : b ∉ l₁ ++ a :: l₂) :
    ∃ s, putNodeBefore list m a b = .ok s ∧ Represents s (l₁ ++ b :: a :: l₂) ∧ s.list.dtor = list.dtor := by
  have hm : Represents ⟨list.mirror, m.mirror⟩ (l₂.reverse ++ a :: l₁.reverse) := h.mirror_split
  obtain ⟨s, hs, hr, hd⟩ := putNodeAfter_spec hm (b := b) (by simpa [or_comm, or_left_comm, or_assoc] using hb)
  refine ⟨s.mirror, by rw [putNodeBefore_mirror, hs]; rfl, ?_, hd⟩
  simpa using hr.mirror

theorem replaceNode_spec (h : Represents ⟨list, m⟩ (l₁ ++ a :: l₂)) (hb : b ∉ l₁ ++ a :: l₂) :
    Represents (replaceNode list m a b) (l₁ ++ b :: l₂) ∧ (replaceNode list m a b).list.dtor = list.dtor := by
  have hlinked := h.linked.replace hb
  have hnext : m.next a = l₂.head? := h.linked.next_eq
  have hprev : m.prev a = l₁.getLast? := h.linked.prev_eq
  have hc : list.count = (l₁ ++ b :: l₂).length := by
    rw [show list.count = _ from h.count]
    simp
  have hback : (if l₂ = [] then some b else list.back) = if m.next a = none then some b else list.back := by
    simp only [hnext, List.head?_eq_none_iff]
  have hfront : (if l₁ = [] then some b else list.front) = if m.prev a = none then some b else list.front := by
    simp only [hprev, List.getLast?_eq_none_iff]
  -- the node that comes after is written next, and is not the one put in
  have hne : ∀ c, m.next a = some c → b ≠ c := by
    rintro c hc rfl
    rw [hnext] at hc
    exact hb (List.mem_append_right _ (List.mem_cons_of_mem _ (List.mem_of_mem_head? hc)))
  simp only [hback, hfront] at hlinked
  unfold replaceNode
  simp only [Nodes.setNext_next, Nodes.setPrev_next, update_self]
  cases hn : m.next a with
  | none =>
    simp only [Nodes.setPrev_prev, update_self, Nodes.setNext_prev]
    cases hp : m.prev a with
    | none =>
      simp only [hn, hp] at hlinked ⊢
      exact ⟨⟨hlinked, hc⟩, trivial⟩
    | some d =>
      simp only [hn, hp] at hlinked ⊢
      exact ⟨⟨hlinked, hc⟩, trivial⟩
  | some c =>
    simp only [Nodes.setPrev_prev, update_self, Nodes.setNext_prev, update_of_ne (hne c hn)]
    cases hp : m.prev a with
    | none =>
      simp only [hn, hp] at hlinked ⊢
      exact ⟨⟨hlinked, hc⟩, trivial⟩
    | some d =>
      simp only [hn, hp] at hlinked ⊢
      exact ⟨⟨hlinked, hc⟩, trivial⟩

/-! ## The order of the nodes -/

theorem rotateToNode_spec (h : Represents ⟨list, m⟩ (l₁ ++ node :: l₂)) : ∃ s, rotateToNode list m node = .ok s ∧
    Represents s (node :: l₂ ++ l₁) ∧ s.list.dtor = list.dtor := by
  have hfront := front_eq_iff h
  have hc : list.count = (l₁ ++ node :: l₂).length := h.count
  unfold rotateToNode
  by_cases h₁ : l₁ = []
  · rw [if_pos (hfront.2 h₁)]
    subst h₁
    exact ⟨_, rfl, by simpa using h, rfl⟩
  · rw [if_neg fun he => h₁ (hfront.1 he)]
    obtain ⟨x, s, hx⟩ := List.exists_cons_of_ne_nil h₁
    obtain ⟨u, z, hz⟩ := (List.eq_nil_or_concat l₁).resolve_left h₁
    obtain ⟨v, y, hy⟩ := (List.eq_nil_or_concat (node :: l₂)).resolve_left (List.cons_ne_nil _ _)
    rw [List.concat_eq_append] at hz hy
    have hfx : list.front = some x := by
      rw [show list.front = _ from h.linked.front_eq, hx]
      rfl
    have hby : list.back = some y := by
      rw [show list.back = _ from h.linked.back_eq, hy, ← List.append_assoc, List.getLast?_concat]
    have hprev : m.prev node = some z := by
      rw [show m.prev node = _ from h.linked.prev_eq, hz, List.getLast?_concat]
    have hne : node ≠ x := by
      rintro rfl
      exact h₁ (hfront.1 hfx.symm)
    have hl := h.linked
    simp only [hfx, hby] at hl
    have hlinked := hl.rotate hx hz rfl hy
    simp only [hfx, hby, deref_some_bind, Nodes.setNext_prev, Nodes.setPrev_prev, update_of_ne hne, hprev]
    refine ⟨_, rfl, ⟨hlinked, ?_⟩, rfl⟩
    show list.count = _
    rw [hc, List.length_append, List.length_append, Nat.add_comm]

omit [DecidableEq ν] in
theorem follow_seg {link : ν → Option ν} {p q : Option ν} (h : Seg link p (l₁ ++ a :: l₂) q) :
    follow link l₁.length p = some a := by
  induction l₁ generalizing p with
  | nil =>
    obtain ⟨rfl, -⟩ := h
    rfl
  | cons b l₁ ih =>
    obtain ⟨rfl, h⟩ := h
    exact ih h

omit [DecidableEq ν] in
theorem findNthNode_spec (h : Represents ⟨list, m⟩ (l₁ ++ a :: l₂)) :
    findNthNode list m (l₁.length + 1) = .ok (some a) := by
  have hc : list.count = (l₁ ++ a :: l₂).length := h.count
  rw [List.length_append, List.length_cons] at hc
  obtain ⟨-, hf, hb⟩ := twoWay_iff.1 h.linked
  unfold findNthNode
  rw [if_neg (Nat.succ_ne_zero _), if_neg (by omega)]
  split_ifs
  · rw [Nat.add_sub_cancel, follow_seg hf]
  · -- as many nodes come after `a` as are walked from the back
    rw [show list.count - (l₁.length + 1) = l₂.reverse.length by rw [List.length_reverse]; omega]
    rw [List.reverse_append, List.reverse_cons, List.append_assoc] at hb
    rw [follow_seg hb]

/-- A rotation to the back is one to the front of the list read backwards. -/
def rotated (dir : ℤ) (n : ℕ) (l : List ν) : List ν := if dir = 1 then l.rotate n else (l.reverse.rotate n).reverse

omit [DecidableEq ν] in
theorem rotated_eq (dir : ℤ) (n : ℕ) (l : List ν) :
    rotated dir n l = l.rotate (if dir = 1 then n % l.length else l.length - n % l.length) := by
  unfold rotated
  split_ifs
  · rw [List.rotate_mod]
  · rw [List.rotate_reverse, List.reverse_reverse]

theorem rotate_spec (h : Represents ⟨list, m⟩ l) {dir : ℤ} (hdir : dir = 1 ∨ dir = -1) (n : ℕ) :
    ∃ s, rotate list m dir n = .ok s ∧ Represents s (rotated dir n l) ∧ s.list.dtor = list.dtor := by
  have hc : list.count = l.length := h.count
  unfold rotate
  rw [if_neg (by omega), hc, rotated_eq]
  by_cases hstay : l.length < 2 ∨ n = 0
  · rw [if_pos hstay]
    refine ⟨_, rfl, ?_, rfl⟩
    have hl : l.rotate (if dir = 1 then n % l.length else l.length - n % l.length) = l := by
      rcases hstay with hlt | rfl
      · match l, hlt with
        | [], _ => simp
        | [a], _ => simp
      · rw [Nat.zero_mod, Nat.sub_zero]
        split_ifs
        · exact List.rotate_zero l
        · exact List.rotate_length l
    rwa [hl]
  · rw [if_neg hstay]
    by_cases hzero : n % l.length = 0
    · rw [if_pos hzero, hzero, Nat.sub_zero]
      refine ⟨_, rfl, ?_, rfl⟩
      split_ifs
      · rwa [List.rotate_zero]
      · rwa [List.rotate_length]
    · rw [if_neg hzero]
      have hlt : n % l.length < l.length := Nat.mod_lt _ (by omega)
      generalize hk : (if dir = 1 then n % l.length else l.length - n % l.length) = k
      have hkl : k < l.length := by
        rw [← hk]
        split_ifs <;> omega
      -- the node that is to come to the front
      obtain ⟨node, l₂, hdrop⟩ : ∃ node l₂, l.drop k = node :: l₂ :=
        ⟨_, _, List.drop_eq_getElem_cons hkl⟩
      have hsplit : l.take k ++ node :: l₂ = l := by rw [← hdrop, List.take_append_drop]
      have hlen : (l.take k).length = k := List.length_take_of_le hkl.le
      have hrep : Represents ⟨list, m⟩ (l.take k ++ node :: l₂) := by rwa [hsplit]
      have hfind := findNthNode_spec hrep
      rw [hlen] at hfind
      obtain ⟨s, hs, hrot, hd⟩ := rotateToNode_spec hrep
      refine ⟨s, ?_, ?_, hd⟩
      · dsimp only
        rw [hfind]
        exact hs
      · rwa [List.rotate_eq_drop_append_take hkl.le, hdrop]

/-- The loop of `Dll_upend`, when all nodes up to `c` are turned round. -/
theorem upendLoop_spec {rest init d : List ν} {c : ν} {rounds : ℕ} (hd : init ++ [c] = a :: d)
    (hf : Seg m.next (some c) (init ++ [c]).reverse (m.next a)) (hrest : Seg m.next (m.next a) rest none)
    (hb : Seg m.prev (some a) init (some c)) (hn : (init ++ [c] ++ rest).Nodup) (hr : rest.length ≤ rounds) :
    ∃ m' b, upendLoop a rounds m c c = .ok (m', b) ∧
      Seg (update m'.next a none) (some b) (init ++ [c] ++ rest).reverse none ∧
      Seg (update m'.prev b none) (some a) (init ++ [c] ++ rest) none := by
  induction rest generalizing m init c d rounds with
  | nil =>
    have hnone : m.next a = none := hrest
    rw [List.append_nil] at hn ⊢
    refine ⟨m, c, ?_, ?_, ?_⟩
    · cases rounds <;> simp only [upendLoop, hnone]
    · rw [hnone] at hf
      rwa [← hnone, update_eq_self, hnone]
    · have hc : c ∉ init := fun hm => (List.nodup_append.1 hn).2.2 c hm c (List.mem_singleton_self c) rfl
      rw [seg_append_cons, update_self]
      exact ⟨(seg_update hc).2 hb, rfl⟩
  | cons b rest ih =>
    obtain ⟨hnext, hrest⟩ := hrest
    obtain ⟨rounds, rfl⟩ : ∃ r, rounds = r + 1 := ⟨rounds - 1, by simp only [List.length_cons] at hr; omega⟩
    have hdis := (List.nodup_append.1 hn).2.2
    have hbrest : b ∉ rest := (List.nodup_cons.1 (List.nodup_append.1 hn).2.1).1
    have hbdone : b ∉ init ++ [c] := fun hm => hdis b hm b (List.mem_cons_self ..) rfl
    have hadone : a ∈ init ++ [c] := by
      rw [hd]
      exact List.mem_cons_self ..
    have harest : a ∉ rest := fun hm => hdis a hadone a (List.mem_cons_of_mem _ hm) rfl
    have hab : a ≠ b := fun he => hbdone (he ▸ hadone)
    have hdn := (List.nodup_append.1 hn).1
    have hc : c ∉ init := fun hm => (List.nodup_append.1 hdn).2.2 c hm c (List.mem_singleton_self c) rfl
    set m₁ := ((m.setNext a (m.next b)).setNext b (some c)).setPrev c (some b) with hm₁
    have hnext₁ : m₁.next = update (update m.next a (m.next b)) b (some c) := rfl
    have hprev₁ : m₁.prev = update m.prev c (some b) := rfl
    have ha₁ : m₁.next a = m.next b := by rw [hnext₁, update_of_ne hab, update_self]
    -- from `b` to `c`, and on to what comes after `b`
    have hf₁ : Seg m₁.next (some b) (init ++ [c] ++ [b]).reverse (m₁.next a) := by
      rw [ha₁, hnext₁, List.reverse_append, List.reverse_singleton, List.singleton_append, seg_cons, update_self,
        seg_update (by rwa [List.mem_reverse])]
      refine ⟨rfl, ?_⟩
      rw [hd, List.reverse_cons] at hf ⊢
      refine hf.relink ?_ _
      rw [List.mem_reverse]
      exact (List.nodup_cons.1 (hd ▸ hdn)).1
    have hrest₁ : Seg m₁.next (m₁.next a) rest none := by
      rwa [ha₁, hnext₁, seg_update hbrest, seg_update harest]
    have hb₁ : Seg m₁.prev (some a) (init ++ [c]) (some b) := by
      rw [hprev₁, seg_append_cons, update_self]
      exact ⟨(seg_update hc).2 hb, rfl⟩
    obtain ⟨m', b', hloop, hf', hb'⟩ := ih (d := d ++ [b]) (by rw [hd]; rfl) hf₁ hrest₁ hb₁ (by simpa using hn)
      (Nat.le_of_succ_le_succ hr)
    refine ⟨m', b', ?_, ?_, ?_⟩
    · rw [upendLoop, hnext]
      exact hloop
    · simpa using hf'
    · simpa using hb'

theorem upend_spec {rounds : ℕ} (h : Represents ⟨list, m⟩ l) (hr : l.length ≤ rounds) :
    ∃ s, upend rounds list m = .ok s ∧ Represents s l.reverse ∧ s.list.dtor = list.dtor := by
  have hc : list.count = l.length := h.count
  unfold upend
  rw [hc]
  match l with
  | [] => exact ⟨_, rfl, h, rfl⟩
  | [a] => exact ⟨_, rfl, h, rfl⟩
  | a :: c :: l =>
    have hfront : list.front = some a := h.linked.front_eq
    obtain ⟨hn, hf, -⟩ := twoWay_iff.1 h.linked
    have hlen : (c :: l).length ≤ rounds := by
      simp only [List.length_cons] at hr ⊢
      omega
    obtain ⟨m', b, hloop, hf', hb'⟩ := upendLoop_spec (m := m) (show [] ++ [a] = a :: [] from rfl) ⟨rfl, rfl⟩ hf.2 rfl
      hn hlen
    rw [if_neg (by simp only [List.length_cons]; omega), hfront]
    simp only [hloop]
    refine ⟨_, rfl, ⟨twoWay_iff.2 ⟨List.nodup_reverse.2 hn, hf', ?_⟩, ?_⟩, rfl⟩
    · rwa [List.reverse_reverse]
    · rw [List.length_reverse]

end Libtarp.Dll
