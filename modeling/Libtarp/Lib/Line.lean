import Mathlib.Data.List.Nodup
import Mathlib.Data.List.Sublists
import Mathlib.Tactic.Common

/-!
# A waiting line

Members join a line at its end. Some are served, some leave unserved from any place. `Line`
is the line with its history: who joined and who was served, in order of time.

`Fair`: those served, in the order they were served, followed by those still waiting, are in
the order in which all joined. So no one is served before someone who waited longer.

* `Fair.join`, `Fair.serve`, `Fair.leave`: what can happen to a line keeps it fair.
* `Fair.order`: who was served earlier joined earlier, and also than those still waiting.
-/

namespace Libtarp.Lib

variable {ι : Type*}

structure Line (ι : Type*) where
  waiting : List ι
  joined : List ι
  served : List ι

namespace Line

/-- The line becomes `waiting`, and of those who were waiting the ones that `done` tells of
were served. -/
def advance [DecidableEq ι] (l : Line ι) (waiting : List ι) (done : ι → Bool) : Line ι where
  waiting := waiting
  joined := l.joined ++ waiting.filter (· ∉ l.waiting)
  served := l.served ++ l.waiting.filter done

/-- No one was served before someone who had waited longer. -/
structure Fair (l : Line ι) : Prop where
  order : (l.served ++ l.waiting).Sublist l.joined
  once : l.joined.Nodup

variable {l : Line ι} {i : ι} {done : ι → Bool}

theorem Fair.nodup (h : l.Fair) : (l.served ++ l.waiting).Nodup := h.order.nodup h.once

theorem Fair.nodup_waiting (h : l.Fair) : l.waiting.Nodup := (List.nodup_append.1 h.nodup).2.1

theorem Fair.mem_joined (h : l.Fair) (hi : i ∈ l.waiting) : i ∈ l.joined :=
  h.order.subset (List.mem_append_right _ hi)

variable [DecidableEq ι]

/-- One more joins. -/
theorem Fair.join (h : l.Fair) (hi : i ∉ l.joined) (hd : ∀ j ∈ l.waiting, done j = false) :
    (l.advance (l.waiting ++ [i]) done).Fair ∧ (l.advance (l.waiting ++ [i]) done).joined = l.joined ++ [i] := by
  have hw : i ∉ l.waiting := fun hm => hi (h.mem_joined hm)
  have hj : (l.waiting ++ [i]).filter (· ∉ l.waiting) = [i] := by
    rw [List.filter_append, List.filter_eq_nil_iff.2 (by simp), List.nil_append, List.filter_singleton]
    simp [hw]
  have hs : l.waiting.filter done = [] := List.filter_eq_nil_iff.2 fun j hm => by simp [hd j hm]
  unfold advance
  rw [hj, hs, List.append_nil]
  refine ⟨⟨?_, ?_⟩, rfl⟩
  · rw [← List.append_assoc]
    exact h.order.append_right _
  · rw [List.nodup_append]
    refine ⟨h.once, List.nodup_singleton i, ?_⟩
    rintro a ha b hb rfl
    exact hi (List.mem_singleton.1 hb ▸ ha)

/-- The first is served. -/
theorem Fair.serve (h : l.Fair) {q : List ι} (hq : l.waiting = i :: q) (done : ι → Bool) (hi : done i = true)
    (hd : ∀ j ∈ q, done j = false) : (l.advance q done).Fair ∧ (l.advance q done).joined = l.joined := by
  have hj : q.filter (· ∉ l.waiting) = [] := List.filter_eq_nil_iff.2 fun j hm => by
    simp [hq, List.mem_cons_of_mem i hm]
  have hs : l.waiting.filter done = [i] := by
    rw [hq, List.filter_cons_of_pos hi, List.filter_eq_nil_iff.2 fun j hm => by simp [hd j hm]]
  unfold advance
  rw [hj, hs, List.append_nil]
  refine ⟨⟨?_, h.once⟩, rfl⟩
  have := h.order
  rwa [hq, List.append_cons] at this

/-- Some leave unserved. -/
theorem Fair.leave (h : l.Fair) {q : List ι} (hq : q.Sublist l.waiting) (done : ι → Bool)
    (hd : ∀ j ∈ l.waiting, done j = false) :
    (l.advance q done).Fair ∧ (l.advance q done).joined = l.joined := by
  have hj : q.filter (· ∉ l.waiting) = [] := List.filter_eq_nil_iff.2 fun j hm => by simp [hq.subset hm]
  have hs : l.waiting.filter done = [] := List.filter_eq_nil_iff.2 fun j hm => by simp [hd j hm]
  unfold advance
  rw [hj, hs, List.append_nil, List.append_nil]
  exact ⟨⟨(hq.append_left _).trans h.order, h.once⟩, rfl⟩

end Line

end Libtarp.Lib
