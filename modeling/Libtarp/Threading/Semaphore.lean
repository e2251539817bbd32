import Libtarp.Lib.Transition
import Mathlib.Algebra.Order.Ring.Int
import Mathlib.Data.List.Basic
import Mathlib.Logic.Function.Basic

/-!
# The semaphore (`semaphore.hxx`)

Any number of threads use one semaphore. One event is what a thread does while it has the mutex: a whole call of
`reset`, `release` or `try_acquire`, what `acquire` and `try_acquire_until` do before they wait, or one round of
their loop. A thread that waits can wake up at any time, signalled or not.

`release` wakes every thread that waits; `reset` wakes none, although it can raise the counter.

* `Balanced`: the counter, by the permits given and taken since the last reset.
* `NoneLost`: nobody sleeps while there is a permit.
* `wakeups_kept`: that is so as long as no reset raises the counter while somebody sleeps.
* `permits_held`: where threads release what they acquired there are never more holders than permits.
-/

namespace Libtarp.Semaphores

open Function Lib

variable {ι : Type} [DecidableEq ι]

/-- `class semaphore`. -/
structure Semaphore where
  counter : ℕ
  initialCounter : ℕ
  maxCount : ℕ
deriving DecidableEq

def reset (m : Semaphore) : Semaphore := { m with counter := m.initialCounter }

/-- `release`, and if it signals. The counter is a `uint32_t`. -/
def release (m : Semaphore) : Semaphore × Bool :=
  if m.counter < m.maxCount then ({ m with counter := (m.counter + 1) % 2 ^ 32 }, true) else (m, false)

def tryAcquire (m : Semaphore) : Semaphore × Bool :=
  if 0 < m.counter then ({ m with counter := m.counter - 1 }, true) else (m, false)

/-- One round of the loop of `acquire`; without an answer the thread waits. -/
def acquire (m : Semaphore) : Semaphore × Option Bool :=
  if m.counter = 0 then (m, none) else ({ m with counter := m.counter - 1 }, some true)

/-- One round of `wait_until`, and what `try_acquire_until` does after it. -/
def tryAcquireUntil (m : Semaphore) (expired : Bool) : Semaphore × Option Bool :=
  if 0 < m.counter then ({ m with counter := m.counter - 1 }, some true)
  else if expired then (m, some false)
  else (m, none)

/-! ## Threads -/

/-- Where a thread is; `useDeadline` tells `try_acquire_until` from `acquire`. -/
inductive Phase where
  | running
  | asleep (useDeadline : Bool)
  /-- signalled, and about to look at the counter -/
  | signalled (useDeadline : Bool)
deriving DecidableEq

/-- The semaphore and its threads. Since the last reset there were `given` releases that counted, and `taken`
permits were acquired; `holders` are the threads that acquired and have not released since, once for each permit. -/
structure System (ι : Type) where
  sem : Semaphore
  phase : ι → Phase
  answer : ι → Option Bool
  given : ℕ
  taken : ℕ
  holders : List ι

inductive Event (ι : Type) where
  | reset (t : ι)
  | release (t : ι)
  | tryAcquire (t : ι)
  | acquire (t : ι)
  | tryAcquireUntil (t : ι)
  /-- a thread wakes up; `expired` tells if its deadline is over -/
  | wake (t : ι) (expired : Bool)

/-- `notify_all`. -/
def signal : Phase → Phase
  | .asleep d => .signalled d
  | p => p

/-- The thread `t` returns, with a permit or without. -/
def System.finish (s : System ι) (t : ι) (m : Semaphore) (ok : Bool) : System ι :=
  { s with
    sem := m
    phase := update s.phase t .running
    answer := update s.answer t (some ok)
    taken := if ok then s.taken + 1 else s.taken
    holders := if ok then t :: s.holders else s.holders }

/-- The thread `t` returns or goes to sleep. -/
def System.round (s : System ι) (t : ι) (useDeadline : Bool) : Semaphore × Option Bool → System ι
  | (m, some ok) => s.finish t m ok
  | (m, none) => { s with sem := m, phase := update s.phase t (.asleep useDeadline) }

def step : Event ι → System ι → Option (System ι)
  | .reset t, s => if s.phase t = .running then some { s with sem := reset s.sem, given := 0, taken := 0 } else none
  | .release t, s =>
    if s.phase t = .running then
      let (m, signals) := release s.sem
      some { s with
        sem := m
        phase := fun u => if signals then signal (s.phase u) else s.phase u
        given := if signals then s.given + 1 else s.given
        holders := s.holders.erase t }
    else none
  | .tryAcquire t, s =>
    if s.phase t = .running then some (s.finish t (tryAcquire s.sem).1 (tryAcquire s.sem).2) else none
  | .acquire t, s => if s.phase t = .running then some (s.round t false (acquire s.sem)) else none
  | .tryAcquireUntil t, s => if s.phase t = .running then some (s.round t true (tryAcquireUntil s.sem false)) else none
  | .wake t expired, s =>
    match s.phase t with
    | .running => none
    | .asleep useDeadline | .signalled useDeadline =>
      some (s.round t useDeadline (if useDeadline then tryAcquireUntil s.sem expired else acquire s.sem))

omit [DecidableEq ι] in
/-- A new semaphore. -/
def start (maxCount initialCounter : ℕ) : System ι :=
  ⟨⟨initialCounter, initialCounter, maxCount⟩, fun _ => .running, fun _ => none, 0, 0, []⟩

/-! ## What one event can do -/

variable {s s' : System ι} {t : ι} {e : Event ι} {maxCount initialCounter : ℕ}

/-- A thread looks at the counter: it takes a permit, or goes without one where there is none. -/
inductive Looks (s : System ι) (t : ι) : System ι → Prop
  | take (h : 0 < s.sem.counter) : Looks s t (s.finish t { s.sem with counter := s.sem.counter - 1 } true)
  | fail (h : s.sem.counter = 0) : Looks s t (s.finish t s.sem false)
  | sleep (d : Bool) (h : s.sem.counter = 0) : Looks s t { s with phase := update s.phase t (.asleep d) }

theorem looks_acquire (t : ι) (d : Bool) : Looks s t (s.round t d (acquire s.sem)) := by
  unfold acquire
  split
  · exact .sleep d ‹_›
  · exact .take (Nat.pos_of_ne_zero ‹_›)

theorem looks_tryAcquireUntil (t : ι) (d expired : Bool) : Looks s t (s.round t d (tryAcquireUntil s.sem expired)) := by
  unfold tryAcquireUntil
  split_ifs with hpos hexp
  · exact .take hpos
  · exact .fail (Nat.eq_zero_of_not_pos hpos)
  · exact .sleep d (Nat.eq_zero_of_not_pos hpos)

theorem wake_round {expired : Bool} (he : step (.wake t expired) s = some s') :
    ∃ d, s' = s.round t d (if d then tryAcquireUntil s.sem expired else acquire s.sem) := by
  cases hp : s.phase t with
  | running => simp [step, hp] at he
  | asleep d =>
    simp only [step, hp] at he
    exact ⟨d, (Option.some.inj he).symm⟩
  | signalled d =>
    simp only [step, hp] at he
    exact ⟨d, (Option.some.inj he).symm⟩

/-- **An event** is a reset, a release or a look at the counter. -/
theorem step_cases (he : step e s = some s') :
    (∃ t, e = .reset t ∧ s' = { s with sem := reset s.sem, given := 0, taken := 0 }) ∨
      (∃ t, e = .release t ∧ s.sem.counter < s.sem.maxCount ∧
        s' = { s with
          sem := { s.sem with counter := (s.sem.counter + 1) % 2 ^ 32 }
          phase := fun u => signal (s.phase u)
          given := s.given + 1
          holders := s.holders.erase t }) ∨
      (∃ t, e = .release t ∧ s.sem.maxCount ≤ s.sem.counter ∧ s' = { s with holders := s.holders.erase t }) ∨
      ((∀ t, e ≠ .reset t ∧ e ≠ .release t) ∧ ∃ t, Looks s t s') := by
  cases e with
  | reset t =>
    simp only [step] at he
    split_ifs at he with hrun
    exact .inl ⟨t, rfl, (Option.some.inj he).symm⟩
  | release t =>
    by_cases hmax : s.sem.counter < s.sem.maxCount
    · simp only [step, release, if_pos hmax, if_true] at he
      split_ifs at he with hrun
      exact .inr (.inl ⟨t, rfl, hmax, (Option.some.inj he).symm⟩)
    · simp only [step, release, if_neg hmax, Bool.false_eq_true, if_false] at he
      split_ifs at he with hrun
      exact .inr (.inr (.inl ⟨t, rfl, Nat.le_of_not_lt hmax, (Option.some.inj he).symm⟩))
  | tryAcquire t =>
    simp only [step, tryAcquire] at he
    refine .inr (.inr (.inr ⟨by simp, t, ?_⟩))
    split_ifs at he with hrun hpos
    · exact Option.some.inj he ▸ .take hpos
    · exact Option.some.inj he ▸ .fail (Nat.eq_zero_of_not_pos hpos)
  | acquire t =>
    simp only [step] at he
    split_ifs at he with hrun
    exact .inr (.inr (.inr ⟨by simp, t, Option.some.inj he ▸ looks_acquire t false⟩))
  | tryAcquireUntil t =>
    simp only [step] at he
    split_ifs at he with hrun
    exact .inr (.inr (.inr ⟨by simp, t, Option.some.inj he ▸ looks_tryAcquireUntil t true false⟩))
  | wake t expired =>
    refine .inr (.inr (.inr ⟨by simp, t, ?_⟩))
    obtain ⟨d, rfl⟩ := wake_round he
    cases d with
    | false => exact looks_acquire t false
    | true => exact looks_tryAcquireUntil t true expired

/-! ## The permits -/

/-- The counter, by the permits given and taken since the last reset. -/
structure Balanced (maxCount initialCounter : ℕ) (s : System ι) : Prop where
  initial : s.sem.initialCounter = initialCounter
  max : s.sem.maxCount = maxCount
  balance : s.sem.counter + s.taken = initialCounter + s.given
  bound : s.sem.counter ≤ Nat.max maxCount initialCounter

theorem Balanced.step (hmax : maxCount < 2 ^ 32) (h : Balanced maxCount initialCounter s) (he : step e s = some s') :
    Balanced maxCount initialCounter s' := by
  obtain ⟨hi, hm, hbal, hbound⟩ := h
  rcases step_cases he with ⟨t, -, rfl⟩ | ⟨t, -, hlt, rfl⟩ | ⟨t, -, -, rfl⟩ | ⟨-, t, hlook⟩
  · exact ⟨hi, hm, by simp [reset, hi], hi ▸ Nat.le_max_right _ _⟩
  · -- a counter below the maximum is not the last `uint32_t`
    have hmod : (s.sem.counter + 1) % 2 ^ 32 = s.sem.counter + 1 := Nat.mod_eq_of_lt (by omega)
    refine ⟨hi, hm, ?_, ?_⟩
    · simp only [hmod]
      omega
    · simp only [hmod]
      exact Nat.le_trans (by omega) (Nat.le_max_left maxCount initialCounter)
  · exact ⟨hi, hm, hbal, hbound⟩
  · cases hlook with
    | take hpos =>
      refine ⟨hi, hm, ?_, Nat.le_trans (Nat.sub_le _ _) hbound⟩
      simp only [System.finish, if_pos]
      omega
    | fail h0 => exact ⟨hi, hm, hbal, hbound⟩
    | sleep d h0 => exact ⟨hi, hm, hbal, hbound⟩

/-! ## Wake-ups -/

/-- Nobody sleeps while there is a permit. -/
def NoneLost (s : System ι) : Prop := 0 < s.sem.counter → ∀ t d, s.phase t ≠ .asleep d

/-- A reset raises the counter from nothing only where nobody sleeps. -/
def ResetAwake (e : Event ι) (s : System ι) : Prop :=
  ∀ t, e = .reset t → 0 < s.sem.initialCounter → ∀ u d, s.phase u ≠ .asleep d

omit [DecidableEq ι] in
theorem signal_ne_asleep (p : Phase) (d : Bool) : signal p ≠ .asleep d := by
  cases p <;> simp [signal]

theorem noneLost_step (h : NoneLost s) (he : step e s = some s') : NoneLost s' ↔ ResetAwake e s := by
  rcases step_cases he with ⟨t, rfl, rfl⟩ | ⟨t, rfl, -, rfl⟩ | ⟨t, rfl, -, rfl⟩ | ⟨hne, t, hlook⟩
  · exact ⟨fun h' _ _ => h', fun hr => hr t rfl⟩
  · exact ⟨fun _ u hu => (by cases hu), fun _ _ u d => signal_ne_asleep _ d⟩
  · exact ⟨fun _ u hu => (by cases hu), fun _ => h⟩
  · refine ⟨fun _ u hu => absurd hu (hne u).1, fun _ => ?_⟩
    cases hlook with
    | take hpos =>
      intro _ u d
      by_cases hu : u = t
      · subst hu
        simp [System.finish]
      · simpa [System.finish, hu] using h hpos u d
    | fail h0 => exact fun hpos => absurd h0 (Nat.ne_of_gt hpos)
    | sleep d h0 => exact fun hpos => absurd h0 (Nat.ne_of_gt hpos)

/-- **In every interleaving of any number of threads** the counter is what was given and not yet taken, it stays in its
bounds, and a thread that wakes up while there is a permit gets it. As long as no reset raises the counter while somebody
sleeps nobody sleeps while there is a permit; the first such reset leaves a thread asleep. -/
theorem wakeups_kept (hmax : maxCount < 2 ^ 32) (h : Reaches step Free (start maxCount initialCounter) s) :
    Balanced maxCount initialCounter s ∧
      (∀ t expired s', 0 < s.sem.counter → step (.wake t expired) s = some s' → s'.answer t = some true) ∧
      (Reaches step ResetAwake (start maxCount initialCounter) s →
        NoneLost s ∧ ∀ e s', step e s = some s' → (NoneLost s' ↔ ResetAwake e s)) := by
  refine ⟨?_, fun t expired s' hpos he => ?_, fun hawake => ?_⟩
  · refine h.invariant (fun _ _ _ hbal _ he => hbal.step hmax he) ?_
    exact ⟨rfl, rfl, rfl, Nat.le_max_right maxCount initialCounter⟩
  · obtain ⟨d, rfl⟩ := wake_round he
    cases d
    · simp [acquire, Nat.ne_of_gt hpos, System.round, System.finish]
    · simp [tryAcquireUntil, hpos, System.round, System.finish]
  · have hnone : NoneLost s := by
      refine hawake.invariant (fun _ _ _ hnone hc he => (noneLost_step hnone he).2 hc) ?_
      intro _ t d
      simp [start]
    exact ⟨hnone, fun e s' he => noneLost_step hnone he⟩

/-- Two threads wait for a permit, one is given, and both wake up. -/
theorem wakeups_kept_three : ∃ s : System ℕ,
    runEvents step [.acquire 0, .tryAcquireUntil 1, .release 2, .wake 1 false, .wake 0 false] (start 1 0) = some s ∧
      NoneLost s ∧ s.answer 1 = some true ∧ s.phase 0 = .asleep false := by
  have hrun : runEvents step [.acquire 0, .tryAcquireUntil 1, .release 2, .wake 1 false, .wake 0 false]
      (start 1 0 : System ℕ) = some _ := rfl
  have hreset : ∀ e ∈ ([.acquire 0, .tryAcquireUntil 1, .release 2, .wake 1 false, .wake 0 false] : List (Event ℕ)),
      ∀ s, ResetAwake e s := by
    intro e he s t ht
    subst ht
    simp at he
  have hawake := reaches_of_forall hreset hrun
  exact ⟨_, hrun, ((wakeups_kept (by decide) (reaches_of_run hrun)).2.2 hawake).1, rfl, rfl⟩

/-! ## Holders -/

/-- Threads release what they acquired, and nobody resets. -/
def Lawful (e : Event ι) (s : System ι) : Prop := (∀ t, e ≠ .reset t) ∧ ∀ t, e = .release t → t ∈ s.holders

/-- The permits are with the semaphore or with a holder, and who sleeps waits for a holder. -/
structure Shared (maxCount initialCounter : ℕ) (s : System ι) : Prop where
  balanced : Balanced maxCount initialCounter s
  permits : s.holders.length + s.sem.counter = initialCounter
  awake : NoneLost s

theorem Shared.step (hmax : maxCount < 2 ^ 32) (hle : initialCounter ≤ maxCount) (h : Shared maxCount initialCounter s)
    (hc : Lawful e s) (he : step e s = some s') : Shared maxCount initialCounter s' := by
  have hnone : NoneLost s' := (noneLost_step h.awake he).2 fun t ht => absurd ht (hc.1 t)
  refine ⟨h.balanced.step hmax he, ?_, hnone⟩
  have hp := h.permits
  rcases step_cases he with ⟨t, rfl, -⟩ | ⟨t, rfl, hlt, rfl⟩ | ⟨t, rfl, hge, rfl⟩ | ⟨-, t, hlook⟩
  · exact absurd rfl (hc.1 t)
  · have hmem := hc.2 t rfl
    have hpos := List.length_pos_of_mem hmem
    have hm := h.balanced.max
    have hmod : (s.sem.counter + 1) % 2 ^ 32 = s.sem.counter + 1 := Nat.mod_eq_of_lt (by omega)
    simp only [hmod, List.length_erase_of_mem hmem]
    omega
  · -- a holder has a permit that the counter lacks
    have hpos := List.length_pos_of_mem (hc.2 t rfl)
    have hm := h.balanced.max
    omega
  · cases hlook with
    | take hpos =>
      simp only [System.finish, if_true, List.length_cons]
      omega
    | fail h0 => exact hp
    | sleep d h0 => exact hp

/-- **Where threads release what they acquired** there are never more holders than permits, in a binary
semaphore at most one; and a thread that sleeps does so while all permits are held. -/
theorem permits_held (hmax : maxCount < 2 ^ 32) (hle : initialCounter ≤ maxCount)
    (h : Reaches step Lawful (start maxCount initialCounter) s) :
    s.holders.length + s.sem.counter = initialCounter ∧ s.sem.counter ≤ maxCount ∧
      ∀ t d, s.phase t = .asleep d → s.holders.length = initialCounter := by
  have hshared : Shared maxCount initialCounter s := by
    refine h.invariant (I := Shared maxCount initialCounter) (fun e s s' hs hc he => hs.step hmax hle hc he) ?_
    refine ⟨⟨rfl, rfl, rfl, ?_⟩, ?_, ?_⟩
    · exact Nat.le_max_right maxCount initialCounter
    · simp [start]
    · intro _ t d
      simp [start]
  have hp := hshared.permits
  refine ⟨hp, by omega, fun t d ht => ?_⟩
  have h0 : s.sem.counter = 0 := Nat.eq_zero_of_not_pos fun hpos => hshared.awake hpos t d ht
  omega

/-- A binary semaphore that two threads want. -/
theorem permits_held_two : ∃ s : System ℕ,
    runEvents step [.acquire 0, .acquire 1] (start 1 1) = some s ∧ s.phase 1 = .asleep false ∧ s.holders.length = 1 := by
  have hrun : runEvents step [.acquire 0, .acquire 1] (start 1 1 : System ℕ) = some _ := rfl
  refine ⟨_, hrun, rfl, (permits_held (by decide) (Nat.le_refl 1) (reaches_of_forall ?_ hrun)).2.2 1 false rfl⟩
  intro e he s
  refine ⟨fun t ht => ?_, fun t ht => ?_⟩
  · subst ht
    simp at he
  · subst ht
    simp at he

end Libtarp.Semaphores
