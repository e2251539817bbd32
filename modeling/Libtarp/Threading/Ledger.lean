import Mathlib.Algebra.BigOperators.Group.Finset.Piecewise
import Mathlib.Algebra.Order.BigOperators.Group.Finset
import Mathlib.Data.List.Perm.Basic

/-!
# Who has which task

The bookkeeping of a thread pool, without its threads: tasks and workers are numbers, and each of
them is in one place at a time.

* `Ledger.Moves.places`, `Ledger.Moves.tasks`: a move takes a worker or a task from one place to
  another.
* `Ledger.executed_nodup`: no task is executed twice.
* `Ledger.all_executed`: when no task is anywhere else, all of them have been executed.
-/

namespace Libtarp.Threading

open Function

/-- The tasks waiting, the workers that are idle, the worker and the task that have been chosen for
each other, what task a worker has been given and which one it is doing, and whether it has
finished one and is not idle yet. -/
structure Ledger where
  threads : ℕ
  waiting : List ℕ
  idle : List ℕ
  chosen : Option (ℕ × ℕ)
  given : ℕ → Option ℕ
  doing : ℕ → Option ℕ
  finished : ℕ → Bool
  enqueued : ℕ
  executed : List ℕ

/-- The ways in which a task or a worker changes its place. -/
inductive Move
  | stay
  | enqueue
  | grow (n : ℕ)
  | choose (i : ℕ)
  | give
  | begin (w : ℕ)
  | execute (w : ℕ)
  | follow (w : ℕ)

def Ledger.step (m : Move) (l : Ledger) : Option Ledger :=
  match m with
  | .stay => some l
  | .enqueue => some { l with waiting := l.waiting ++ [l.enqueued], enqueued := l.enqueued + 1 }
  | .grow n => some { l with threads := l.threads + n, idle := l.idle ++ List.range' l.threads n }
  | .choose i =>
    match l.chosen, l.idle, l.waiting[i]? with
    | none, w :: idle, some t => some { l with idle := idle, waiting := l.waiting.eraseIdx i, chosen := some (w, t) }
    | _, _, _ => none
  | .give =>
    match l.chosen with
    | some (w, t) => some { l with chosen := none, given := update l.given w (some t) }
    | none => none
  | .begin w =>
    match l.given w with
    | some t => some { l with given := update l.given w none, doing := update l.doing w (some t) }
    | none => none
  | .execute w =>
    match l.doing w with
    | some t => some { l with doing := update l.doing w none, finished := update l.finished w true, executed := l.executed ++ [t] }
    | none => none
  | .follow w =>
    if l.finished w then some { l with finished := update l.finished w false, idle := w :: l.idle } else none

/-- The number of places a worker is in. -/
def Ledger.places (l : Ledger) (w : ℕ) : ℕ :=
  l.idle.count w + (if l.chosen.map Prod.fst = some w then 1 else 0) + (if (l.given w).isSome then 1 else 0) +
    (if (l.doing w).isSome then 1 else 0) + if l.finished w then 1 else 0

/-- Whether a worker has been given or is doing the task `t`. -/
def Ledger.has (l : Ledger) (t w : ℕ) : ℕ := (if l.given w = some t then 1 else 0) + if l.doing w = some t then 1 else 0

/-- The number of workers that have been given or are doing the task `t`. -/
def Ledger.held (l : Ledger) (t : ℕ) : ℕ := ∑ w ∈ Finset.range l.threads, l.has t w

/-- The number of places a task is in. -/
def Ledger.tasks (l : Ledger) (t : ℕ) : ℕ :=
  l.waiting.count t + (if l.chosen.map Prod.snd = some t then 1 else 0) + l.held t + l.executed.count t

/-- Every worker, and every task that has been enqueued, is in one place. -/
structure Ledger.Inv (l : Ledger) : Prop where
  places : ∀ w, l.places w = if w < l.threads then 1 else 0
  tasks : ∀ t, l.tasks t = if t < l.enqueued then 1 else 0

def Ledger.new : Ledger where
  threads := 0
  waiting := []
  idle := []
  chosen := none
  given := fun _ => none
  doing := fun _ => none
  finished := fun _ => false
  enqueued := 0
  executed := []

theorem Ledger.new_inv : Ledger.new.Inv where
  places := fun _ => rfl
  tasks := fun _ => rfl

/-! ## Moves -/

/-- A worker that is in some place is one of the pool. -/
theorem Ledger.Inv.lt_threads {l : Ledger} (h : l.Inv) {w : ℕ} (hw : 0 < l.places w) : w < l.threads := by
  by_contra hge
  rw [h.places w, if_neg hge] at hw
  exact Nat.lt_irrefl 0 hw

theorem count_range' (n k w : ℕ) : (List.range' n k).count w = if n ≤ w ∧ w < n + k then 1 else 0 := by
  split_ifs with h
  · exact List.count_eq_one_of_mem List.nodup_range' (List.mem_range'_1.2 h)
  · exact List.count_eq_zero_of_not_mem fun hmem => h (List.mem_range'_1.1 hmem)

theorem count_eraseIdx {s : List ℕ} {i t : ℕ} (h : s[i]? = some t) (u : ℕ) :
    (s.eraseIdx i).count u + (if t = u then 1 else 0) = s.count u := by
  obtain ⟨hi, rfl⟩ := List.getElem?_eq_some_iff.1 h
  rw [← (List.getElem_cons_eraseIdx_perm hi).count_eq u, List.count_cons]
  simp only [beq_iff_eq]

/-- What a move does, and where it can be made. -/
inductive Ledger.Moves (l : Ledger) : Move → Ledger → Prop
  | stay : Moves l .stay l
  | enqueue : Moves l .enqueue { l with waiting := l.waiting ++ [l.enqueued], enqueued := l.enqueued + 1 }
  | grow (n : ℕ) : Moves l (.grow n) { l with threads := l.threads + n, idle := l.idle ++ List.range' l.threads n }
  | choose {i w t : ℕ} {idle : List ℕ} (free : l.chosen = none) (next : l.idle = w :: idle)
      (waits : l.waiting[i]? = some t) :
    Moves l (.choose i) { l with idle := idle, waiting := l.waiting.eraseIdx i, chosen := some (w, t) }
  | give {w t : ℕ} (chosen : l.chosen = some (w, t)) :
    Moves l .give { l with chosen := none, given := update l.given w (some t) }
  | begin {w t : ℕ} (given : l.given w = some t) :
    Moves l (.begin w) { l with given := update l.given w none, doing := update l.doing w (some t) }
  | execute {w t : ℕ} (doing : l.doing w = some t) :
    Moves l (.execute w) { l with
      doing := update l.doing w none, finished := update l.finished w true, executed := l.executed ++ [t] }
  | follow {w : ℕ} (finished : l.finished w = true) :
    Moves l (.follow w) { l with finished := update l.finished w false, idle := w :: l.idle }

theorem Ledger.moves_of_step {l l' : Ledger} {m : Move} (hs : l.step m = some l') : l.Moves m l' := by
  unfold Ledger.step at hs
  cases m with
  | stay =>
    obtain rfl := Option.some.inj hs
    exact .stay
  | enqueue =>
    obtain rfl := Option.some.inj hs
    exact .enqueue
  | grow n =>
    obtain rfl := Option.some.inj hs
    exact .grow n
  | choose i =>
    dsimp only at hs
    split at hs
    · rename_i w idle t hfree hnext hwaits
      obtain rfl := Option.some.inj hs
      exact .choose hfree hnext hwaits
    · cases hs
  | give =>
    dsimp only at hs
    split at hs
    · rename_i w t hchosen
      obtain rfl := Option.some.inj hs
      exact .give hchosen
    · cases hs
  | begin w =>
    dsimp only at hs
    split at hs
    · rename_i t hgiven
      obtain rfl := Option.some.inj hs
      exact .begin hgiven
    · cases hs
  | execute w =>
    dsimp only at hs
    split at hs
    · rename_i t hdoing
      obtain rfl := Option.some.inj hs
      exact .execute hdoing
    · cases hs
  | follow w =>
    dsimp only at hs
    split_ifs at hs with hfinished
    obtain rfl := Option.some.inj hs
    exact .follow hfinished

/-- **A move takes a worker from one place to another.** -/
theorem Ledger.Moves.places {l l' : Ledger} {m : Move} (hs : l.Moves m l') (h : l.Inv) (w : ℕ) :
    l'.places w = if w < l'.threads then 1 else 0 := by
  have hw := h.places w
  unfold Ledger.places at hw
  cases hs with
  | stay => exact h.places w
  | enqueue => exact h.places w
  | grow n =>
    unfold Ledger.places
    dsimp only
    rw [List.count_append, count_range']
    split_ifs at hw ⊢ <;> omega
  | choose free next =>
    unfold Ledger.places
    dsimp only
    rw [free, next, List.count_cons] at hw
    simp only [Option.map_none, reduceCtorEq, if_false, beq_iff_eq] at hw
    simp only [Option.map_some, Option.some.injEq]
    omega
  | @give w₀ t chosen =>
    unfold Ledger.places
    dsimp only
    rw [chosen] at hw
    simp only [Option.map_some, Option.some.injEq] at hw
    simp only [Option.map_none, reduceCtorEq, if_false]
    by_cases hww : w₀ = w
    · subst hww
      -- the worker that was chosen is nowhere else
      simp only [if_true] at hw
      simp only [update_self, Option.isSome_some, if_true]
      split_ifs at hw ⊢ <;> omega
    · simp only [if_neg hww] at hw
      simp only [update_of_ne (Ne.symm hww)]
      exact hw
  | @begin w₀ t given =>
    unfold Ledger.places
    dsimp only
    by_cases hww : w₀ = w
    · subst hww
      rw [given] at hw
      simp only [Option.isSome_some, if_true] at hw
      simp only [update_self, Option.isSome_some, Option.isSome_none, Bool.false_eq_true, if_true, if_false]
      split_ifs at hw ⊢ <;> omega
    · simp only [update_of_ne (Ne.symm hww)]
      exact hw
  | @execute w₀ t doing =>
    unfold Ledger.places
    dsimp only
    by_cases hww : w₀ = w
    · subst hww
      rw [doing] at hw
      simp only [Option.isSome_some, if_true] at hw
      simp only [update_self, Option.isSome_none, Bool.false_eq_true, if_true, if_false]
      split_ifs at hw ⊢ <;> omega
    · simp only [update_of_ne (Ne.symm hww)]
      exact hw
  | @follow w₀ finished =>
    unfold Ledger.places
    dsimp only
    rw [List.count_cons]
    simp only [beq_iff_eq]
    by_cases hww : w₀ = w
    · subst hww
      rw [if_pos finished] at hw
      simp only [update_self, Bool.false_eq_true, if_true, if_false]
      omega
    · simp only [update_of_ne (Ne.symm hww), if_neg hww]
      exact hw

/-! ## Tasks -/

/-- What changes for one worker changes what all of them hold by as much. -/
theorem sum_held {f g : ℕ → ℕ} {n w : ℕ} (hw : w < n) (h : ∀ v, v ≠ w → f v = g v) :
    ∑ v ∈ Finset.range n, f v + g w = ∑ v ∈ Finset.range n, g v + f w := by
  have hmem : w ∈ Finset.range n := Finset.mem_range.2 hw
  have hrest : ∑ v ∈ (Finset.range n).erase w, f v = ∑ v ∈ (Finset.range n).erase w, g v :=
    Finset.sum_congr rfl fun v hv => h v (Finset.ne_of_mem_erase hv)
  rw [← Finset.sum_erase_add _ f hmem, ← Finset.sum_erase_add _ g hmem, hrest]
  omega

theorem Ledger.Inv.place_le {l : Ledger} (h : l.Inv) (w : ℕ) : l.places w ≤ 1 := by
  rw [h.places w]
  split_ifs <;> decide

/-- The worker that has been chosen is one of the pool, and has no task. -/
theorem Ledger.Inv.chosen {l : Ledger} (h : l.Inv) {w t : ℕ} (hchosen : l.chosen = some (w, t)) :
    w < l.threads ∧ l.given w = none := by
  have hle := h.place_le w
  have hlt := h.lt_threads (w := w)
  unfold Ledger.places at hle hlt
  rw [hchosen] at hle hlt
  simp only [Option.map_some, if_true] at hle hlt
  refine ⟨hlt (by omega), Option.not_isSome_iff_eq_none.1 fun hsome => ?_⟩
  rw [if_pos hsome] at hle
  omega

/-- A worker that has been given a task is one of the pool, and is doing none. -/
theorem Ledger.Inv.given {l : Ledger} (h : l.Inv) {w t : ℕ} (hgiven : l.given w = some t) :
    w < l.threads ∧ l.doing w = none ∧ l.finished w = false ∧ w ∉ l.idle := by
  have hle := h.place_le w
  have hlt := h.lt_threads (w := w)
  unfold Ledger.places at hle hlt
  rw [hgiven] at hle hlt
  simp only [Option.isSome_some, if_true] at hle hlt
  refine ⟨hlt (by omega), Option.not_isSome_iff_eq_none.1 fun hsome => ?_, ?_, fun hidle => ?_⟩
  · simp only [hsome, if_true] at hle
    omega
  · cases hfinished : l.finished w with
    | false => rfl
    | true =>
      simp only [hfinished, if_true] at hle
      omega
  · have := List.count_pos_iff.2 hidle
    omega

theorem Ledger.Inv.doing {l : Ledger} (h : l.Inv) {w t : ℕ} (hdoing : l.doing w = some t) : w < l.threads := by
  apply h.lt_threads
  unfold Ledger.places
  rw [hdoing]
  simp only [Option.isSome_some, if_true]
  omega

/-- There is nothing to say of a worker that the pool does not have. -/
theorem Ledger.Inv.unknown {l : Ledger} (h : l.Inv) {w : ℕ} (hw : l.threads ≤ w) (t : ℕ) : l.has t w = 0 := by
  have hgiven : l.given w ≠ some t := fun hgiven => absurd (h.given hgiven).1 (by omega)
  have hdoing : l.doing w ≠ some t := fun hdoing => absurd (h.doing hdoing) (by omega)
  unfold Ledger.has
  rw [if_neg hgiven, if_neg hdoing]

/-- What the workers hold of a task changes by what one of them does. -/
theorem held_change (l l' : Ledger) {w t : ℕ} (hthreads : l'.threads = l.threads) (hw : w < l.threads)
    (h : ∀ v, v ≠ w → l'.has t v = l.has t v) : l'.held t + l.has t w = l.held t + l'.has t w := by
  unfold Ledger.held
  rw [hthreads]
  exact sum_held hw h

/-- **A move takes a task from one place to another.** -/
theorem Ledger.Moves.tasks {l l' : Ledger} {m : Move} (hs : l.Moves m l') (h : l.Inv) (t : ℕ) :
    l'.tasks t = if t < l'.enqueued then 1 else 0 := by
  have ht := h.tasks t
  unfold Ledger.tasks at ht
  cases hs with
  | stay => exact h.tasks t
  | enqueue =>
    unfold Ledger.tasks
    unfold Ledger.held Ledger.has at ht ⊢
    dsimp only
    rw [List.count_append, List.count_singleton]
    simp only [beq_iff_eq]
    split_ifs at ht ⊢ <;> omega
  | grow n =>
    -- no task can be with a thread that was not there
    have hnew : ∑ k ∈ Finset.range n, l.has t (l.threads + k) = 0 :=
      Finset.sum_eq_zero fun k _ => h.unknown (Nat.le_add_right _ _) t
    unfold Ledger.tasks
    unfold Ledger.held at ht ⊢
    dsimp only
    rw [Finset.sum_range_add]
    unfold Ledger.has at ht hnew ⊢
    dsimp only
    omega
  | choose free next waits =>
    have hcount := count_eraseIdx waits t
    unfold Ledger.tasks
    unfold Ledger.held Ledger.has at ht ⊢
    dsimp only
    rw [free] at ht
    simp only [Option.map_none, reduceCtorEq, if_false] at ht
    simp only [Option.map_some, Option.some.injEq]
    omega
  | @give w₀ t₀ chosen =>
    obtain ⟨hlt, hgiven⟩ := h.chosen chosen
    -- only one thread holds something else afterwards, and the task only changes its place
    have hheld := held_change (t := t) l { l with chosen := none, given := update l.given w₀ (some t₀) } rfl hlt
      fun v hv => by
        unfold Ledger.has
        simp only [update_of_ne hv]
    unfold Ledger.has at hheld
    rw [hgiven] at hheld
    simp only [update_self, Option.some.injEq, reduceCtorEq, if_false, Nat.zero_add] at hheld
    rw [chosen] at ht
    simp only [Option.map_some, Option.some.injEq] at ht
    unfold Ledger.tasks
    dsimp only
    simp only [Option.map_none, reduceCtorEq, if_false]
    omega
  | @begin w₀ t₀ given =>
    obtain ⟨hlt, hdoing, -⟩ := h.given given
    have hheld := held_change (t := t) l
      { l with given := update l.given w₀ none, doing := update l.doing w₀ (some t₀) } rfl hlt fun v hv => by
        unfold Ledger.has
        simp only [update_of_ne hv]
    unfold Ledger.has at hheld
    rw [given, hdoing] at hheld
    simp only [update_self, reduceCtorEq, if_false, Nat.zero_add, Nat.add_zero] at hheld
    unfold Ledger.tasks
    dsimp only
    omega
  | @execute w₀ t₀ doing =>
    have hheld := held_change (t := t) l { l with
      doing := update l.doing w₀ none, finished := update l.finished w₀ true, executed := l.executed ++ [t₀] } rfl
      (h.doing doing) fun v hv => by
        unfold Ledger.has
        simp only [update_of_ne hv]
    unfold Ledger.has at hheld
    rw [doing] at hheld
    simp only [update_self, Option.some.injEq, reduceCtorEq, if_false, Nat.add_zero] at hheld
    unfold Ledger.tasks
    dsimp only
    rw [List.count_append, List.count_singleton]
    simp only [beq_iff_eq]
    omega
  | follow => exact h.tasks t

theorem Ledger.step_inv {l l' : Ledger} {m : Move} (h : l.Inv) (hs : l.step m = some l') : l'.Inv :=
  ⟨(moves_of_step hs).places h, (moves_of_step hs).tasks h⟩

/-! ## What the books say -/

/-- **No task is executed twice.** -/
theorem Ledger.executed_nodup {l : Ledger} (h : l.Inv) : l.executed.Nodup := by
  rw [List.nodup_iff_count_le_one]
  intro t
  have ht := h.tasks t
  unfold Ledger.tasks at ht
  split_ifs at ht <;> omega

/-- A worker that has nothing to do is idle. -/
theorem Ledger.mem_idle {l : Ledger} (h : l.Inv) {w : ℕ} (hw : w < l.threads) (hchosen : l.chosen = none)
    (hgiven : l.given w = none) (hdoing : l.doing w = none) (hfinished : l.finished w = false) : w ∈ l.idle := by
  have hplaces := h.places w
  unfold Ledger.places at hplaces
  rw [hchosen, hgiven, hdoing, hfinished, if_pos hw] at hplaces
  simp only [Option.map_none, Option.isSome_none, reduceCtorEq, Bool.false_eq_true, if_false] at hplaces
  exact List.count_pos_iff.1 (by omega)

/-- A worker that has just finished a task is not idle. -/
theorem Ledger.not_idle {l : Ledger} (h : l.Inv) {w : ℕ} (hfinished : l.finished w = true) : w < l.threads ∧ w ∉ l.idle := by
  have hle := h.place_le w
  have hlt := h.lt_threads (w := w)
  unfold Ledger.places at hle hlt
  rw [hfinished] at hle hlt
  simp only [if_true] at hle hlt
  refine ⟨hlt (by omega), fun hidle => ?_⟩
  have := List.count_pos_iff.2 hidle
  omega

/-- **When no task is anywhere else, all of them have been executed.** -/
theorem Ledger.all_executed {l : Ledger} (h : l.Inv) (hwaiting : l.waiting = []) (hchosen : l.chosen = none)
    (hgiven : ∀ w < l.threads, l.given w = none) (hdoing : ∀ w < l.threads, l.doing w = none) {t : ℕ} (ht : t < l.enqueued) :
    t ∈ l.executed := by
  have hheld : l.held t = 0 := by
    apply Finset.sum_eq_zero
    intro w hw
    have hw := Finset.mem_range.1 hw
    unfold Ledger.has
    rw [hgiven w hw, hdoing w hw]
    rfl
  have htasks := h.tasks t
  unfold Ledger.tasks at htasks
  rw [hwaiting, hchosen, hheld, if_pos ht] at htasks
  simp only [List.count_nil, Option.map_none, reduceCtorEq, if_false, Nat.zero_add] at htasks
  exact List.count_pos_iff.1 (by omega)

end Libtarp.Threading
