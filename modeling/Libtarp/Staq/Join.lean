import Libtarp.Staq.Runs

/-!
# Two staqs (`staq.c`, `Staq_join` and `Staq_swap`)

* `join`: the back of `a` is taken over from `b` also where `b` is empty.
* `swap`: the destructor of `b` is taken from `a` after that of `a` was written over.
* `join_swap_iff`: the staqs for which each of them is right.
-/

namespace Libtarp.Staq

open Function Lib

variable {ν δ : Type}

/-- `struct staq`, with the destructor itself. -/
structure Handle (ν δ : Type) where
  count : ℕ
  front : Option ν
  back : Option ν
  dtor : Option δ

/-- The head of the list, in which the destructor is only there or not. -/
def Handle.head (sq : Handle ν δ) : Staq ν := ⟨sq.count, sq.front, sq.back, sq.dtor.isSome⟩

/-- `STAQ_INITIALIZER`. -/
def Handle.initializer (dtor : Option δ) : Handle ν δ := { count := 0, front := none, back := none, dtor := dtor }

/-- Two staqs, and the `next` of every node. -/
structure Two (ν δ : Type) where
  a : Handle ν δ
  b : Handle ν δ
  next : ν → Option ν

/-! ## The functions of the source -/

/-- `Staq_join`. -/
def join [DecidableEq ν] (s : Two ν δ) : Except Fault (Two ν δ) :=
  let b := Handle.initializer s.b.dtor
  if s.a.count = 0 then
    .ok { s with a := { s.a with count := s.b.count, front := s.b.front, back := s.b.back }, b := b }
  else do
    let back ← nonNull .nullPointer s.a.back
    pure { a := { s.a with count := s.a.count + s.b.count, back := s.b.back }, b := b,
           next := update s.next back s.b.front }

/-- `Staq_swap`. -/
def swap (s : Two ν δ) : Two ν δ :=
  let tmp := s.a
  let a : Handle ν δ := { front := s.b.front, back := s.b.back, count := s.b.count, dtor := s.b.dtor }
  { s with a := a, b := { front := tmp.front, back := tmp.back, count := tmp.count, dtor := a.dtor } }

/-! ## What is asked for -/

/-- The two staqs represent two sequences that have no node in common. -/
structure Apart (s : Two ν δ) (la lb : List ν) : Prop where
  left : Represents ⟨s.a.head, s.next⟩ la
  right : Represents ⟨s.b.head, s.next⟩ lb
  disjoint : la.Disjoint lb

/-- `a` is the two sequences one after the other, and `b` is empty; both keep their destructors. -/
def JoinRight [DecidableEq ν] (s : Two ν δ) (la lb : List ν) : Prop :=
  ∃ r, join s = .ok r ∧ Apart r (la ++ lb) [] ∧ r.a.dtor = s.a.dtor ∧ r.b.dtor = s.b.dtor

/-- All fields are exchanged, and a second call puts them back. -/
def SwapRight (s : Two ν δ) : Prop :=
  swap s = { s with a := s.b, b := s.a } ∧ swap (swap s) = s

/-! ## Joining -/

variable {s : Two ν δ} {la lb : List ν}

theorem Apart.count_eq_zero_iff (h : Apart s la lb) : s.a.count = 0 ↔ la = [] := by
  have hcount : s.a.count = la.length := h.left.count
  rw [hcount, List.length_eq_zero_iff]

theorem represents_empty (dtor : Option δ) (next : ν → Option ν) :
    Represents ⟨(Handle.initializer dtor : Handle ν δ).head, next⟩ [] := ⟨rfl, rfl, rfl⟩

variable [DecidableEq ν]

/-- Everything of `b` is taken over. -/
theorem join_empty (h : Apart s [] lb) : JoinRight s [] lb := by
  unfold JoinRight join
  rw [if_pos (h.count_eq_zero_iff.2 rfl)]
  refine ⟨_, rfl, ⟨⟨h.right.linked, h.right.back, h.right.count⟩, represents_empty _ _, List.disjoint_nil_right _⟩, rfl,
    rfl⟩

/-- The last node of `a` is linked to the first node of `b`. -/
theorem join_linked {x : ν} (h : Apart s (la ++ [x]) lb) (hlb : lb ≠ []) : JoinRight s (la ++ [x]) lb := by
  have hback : s.a.back = some x := by
    rw [show s.a.back = _ from h.left.back, List.getLast?_concat]
  have hcount : s.a.count ≠ 0 := by
    rw [Ne, h.count_eq_zero_iff]
    exact List.append_ne_nil_of_right_ne_nil _ (List.cons_ne_nil _ _)
  have hx_left : x ∉ la := fun hm => (List.nodup_append.1 h.left.nodup).2.2 x hm x (List.mem_singleton_self x) rfl
  have hx_right : x ∉ lb := h.disjoint (List.mem_append_right _ (List.mem_singleton_self x))
  unfold JoinRight join
  rw [if_neg hcount, hback]
  refine ⟨_, rfl, ⟨⟨?_, ?_, ?_⟩, represents_empty _ _, List.disjoint_nil_right _⟩, rfl, rfl⟩
  · exact seg_append.2 ⟨_, Seg.relink h.left.linked hx_left _, (seg_update hx_right).2 h.right.linked⟩
  · have hb : s.b.back = lb.getLast? := h.right.back
    change s.b.back = _
    rw [hb, List.getLast?_append_of_ne_nil _ hlb]
  · have ha : s.a.count = (la ++ [x]).length := h.left.count
    have hb : s.b.count = lb.length := h.right.count
    change s.a.count + s.b.count = _
    rw [ha, hb, ← List.length_append]

/-- The back of an empty staq is no node. -/
theorem not_join_empty (h : Apart s la []) (hla : la ≠ []) : ¬ JoinRight s la [] := by
  rintro ⟨r, hr, happart, -⟩
  have hcount : s.a.count ≠ 0 := fun h0 => hla (h.count_eq_zero_iff.1 h0)
  have hb : s.b.back = none := h.right.back
  unfold join at hr
  rw [if_neg hcount] at hr
  -- the back of `b` is null, and it is taken over
  cases hback : s.a.back with
  | none => rw [hback] at hr; cases hr
  | some x =>
    rw [hback] at hr
    obtain rfl := Except.ok.inj hr
    have hlast : s.b.back = (la ++ []).getLast? := happart.left.back
    rw [hb, List.append_nil, eq_comm, List.getLast?_eq_none_iff] at hlast
    exact hla hlast

theorem joinRight_iff (h : Apart s la lb) : JoinRight s la lb ↔ la = [] ∨ lb ≠ [] := by
  constructor
  · intro hright
    by_contra hnot
    push Not at hnot
    obtain ⟨hla, rfl⟩ := hnot
    exact not_join_empty h hla hright
  · intro hcond
    rcases List.eq_nil_or_concat la with rfl | ⟨la, x, rfl⟩
    · exact join_empty h
    · rw [List.concat_eq_append] at h hcond ⊢
      exact join_linked h (hcond.resolve_left (List.append_ne_nil_of_right_ne_nil _ (List.cons_ne_nil _ _)))

/-! ## Swapping -/

omit [DecidableEq ν] in
/-- What `b` has of its own after the call is its destructor. -/
theorem swap_eq (s : Two ν δ) : swap s = { s with a := s.b, b := { s.a with dtor := s.b.dtor } } := rfl

omit [DecidableEq ν] in
theorem swapRight_iff : SwapRight s ↔ s.a.dtor = s.b.dtor := by
  constructor
  · rintro ⟨hswap, -⟩
    rw [swap_eq] at hswap
    exact (congrArg (fun s => s.b.dtor) hswap).symm
  · intro h
    have hswap : swap s = { s with a := s.b, b := s.a } := by rw [swap_eq, ← h]
    refine ⟨hswap, ?_⟩
    rw [hswap, swap_eq, h]

/-- **A join is right unless a staq that is not empty is joined with an empty one, and a swap where the destructors
are the same.** -/
theorem join_swap_iff (s : Two ν δ) (la lb : List ν) (h : Apart s la lb) :
    (JoinRight s la lb ↔ la = [] ∨ lb ≠ []) ∧ (SwapRight s ↔ s.a.dtor = s.b.dtor) :=
  ⟨joinRight_iff h, swapRight_iff⟩

/-- A staq of one node, and an empty one. -/
def oneAndNone (dtor : Option ℕ) : Two ℕ ℕ :=
  { a := { count := 1, front := some 5, back := some 5, dtor := some 0 },
    b := Handle.initializer dtor, next := fun _ => none }

theorem oneAndNone_apart (dtor : Option ℕ) : Apart (oneAndNone dtor) [5] [] :=
  ⟨⟨⟨rfl, rfl⟩, rfl, rfl⟩, represents_empty _ _, List.disjoint_nil_right _⟩

theorem join_swap_back : JoinRight (swap (oneAndNone (some 0))) [] [5] ∧ SwapRight (oneAndNone (some 0)) := by
  have hswapped : Apart (swap (oneAndNone (some 0))) [] [5] :=
    ⟨represents_empty _ _, ⟨⟨rfl, rfl⟩, rfl, rfl⟩, List.disjoint_nil_left _⟩
  exact ⟨(join_swap_iff _ [] [5] hswapped).1.2 (Or.inl rfl), (join_swap_iff _ [5] [] (oneAndNone_apart _)).2.2 rfl⟩

/-- **The staq of one node loses its back, and the destructor is not handed over.** -/
theorem join_swap_lost : ¬ JoinRight (oneAndNone none) [5] [] ∧ ¬ SwapRight (oneAndNone none) := by
  refine ⟨not_join_empty (oneAndNone_apart none) (List.cons_ne_nil _ _), fun h => ?_⟩
  cases swapRight_iff.1 h

end Libtarp.Staq
