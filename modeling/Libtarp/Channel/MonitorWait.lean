import Libtarp.Channel.MonitorRuns

/-!
# Waiting on a monitor (`evchan.hxx`, `semaphore.hxx`)

One thread calls `wait` and `wait_until`, others call `watch` and `unwatch`, and notifications of any id, flags
and action come at any time. A notification changes the state of the monitor with its mutex locked, and
releases the semaphore afterwards. One event is one section of the monitor's mutex or of the semaphore's.

* `notify_ready`: a notification that does not release the semaphore leaves no id ready that was not.
* `no_lost_wakeup`: the thread is not left blocked while an id is ready.
-/

namespace Libtarp.Evchan

open Lib Function

variable {K : Type} [DecidableEq K]

/-- `m_max_count` of a binary semaphore. -/
def maxCount : ℕ := 1

/-- `wake` in `channel_notifier::notify`: whether it goes on to release the semaphore. -/
def notifyWakes (m : MonitorState K) (key : K) (events : Mask) (action : Action) : Bool :=
  match m.notified key with
  | none => false
  | some (stored, _) => action = .apply || .closed ∈ flagsAfter action stored events

/-- Where the thread that waits is. -/
inductive Waiter where
  | idle
  /-- It has found nothing pending, and is about to lock the semaphore's mutex. -/
  | checked (useDeadline : Bool)
  /-- In the wait on the semaphore's condition variable, which may have been signalled. -/
  | blocked (useDeadline signalled : Bool)
  /-- It has left the semaphore, and is about to get the list it returns. -/
  | leaving
  deriving DecidableEq

/-- The monitor and its semaphore; `releasing` are the notifications that have left the monitor's mutex and are
about to release the semaphore. -/
structure Waiting (K : Type) where
  mon : MonitorState K
  counter : ℕ
  waiter : Waiter
  releasing : ℕ

inductive WaitEvent (K : Type) where
  /-- The section of `channel_notifier::notify`. -/
  | notify (key : K) (events : Mask) (action : Action)
  | release
  /-- The section of `watch`; the notification it may make itself is one like the others. -/
  | watch (id : K) (mask : Mask)
  | unwatch (id : K)
  /-- The first section of `wait`, `wait_until` and `wait_for`. -/
  | wait (useDeadline : Bool)
  /-- The semaphore's mutex is locked. -/
  | acquire
  /-- The wait on the condition variable returns, signalled or not. -/
  | wake
  | timeout
  /-- The last section. -/
  | collect

/-- `semaphore::release`, with `notify_all`. -/
def Waiting.release (s : Waiting K) : Waiting K :=
  if s.counter < maxCount then
    { s with
      counter := s.counter + 1
      waiter := match s.waiter with
        | .blocked useDeadline _ => .blocked useDeadline true
        | w => w }
  else s

/-- The loop of `acquire` and of `try_acquire_until`, with the mutex locked. -/
def Waiting.acquire (s : Waiting K) (useDeadline : Bool) : Waiting K :=
  if s.counter = 0 then { s with waiter := .blocked useDeadline false }
  else { s with counter := s.counter - 1, waiter := .leaving }

/-- `get_latest` as the first section has it. -/
def Waiting.check (s : Waiting K) (useDeadline : Bool) : Waiting K :=
  if s.mon.high = ∅ then { s with waiter := .checked useDeadline }
  else match getLatest s.mon with
    | .error _ => s
    | .ok (mon, pending) => { s with mon := mon, waiter := if pending = ∅ then .checked useDeadline else .idle }

def Waiting.step : WaitEvent K → Waiting K → Option (Waiting K)
  | .notify key events action, s =>
    some { s with
      mon := (Evchan.notify s.mon key events action).1
      releasing := if notifyWakes s.mon key events action then s.releasing + 1 else s.releasing }
  | .release, s => if s.releasing = 0 then none else some { s.release with releasing := s.releasing - 1 }
  | .watch id mask, s =>
    some { s with mon := { s.mon with notified := update s.mon.notified id (some (∅, mask)) } }
  | .unwatch id, s =>
    some { s with
      mon := { notified := update s.mon.notified id none, edged := s.mon.edged.erase id, high := s.mon.high.erase id } }
  | .wait useDeadline, s => if s.waiter = .idle then some (s.check useDeadline) else none
  | .acquire, s =>
    match s.waiter with
    | .checked useDeadline => some (s.acquire useDeadline)
    | _ => none
  | .wake, s =>
    match s.waiter with
    | .blocked useDeadline _ => some (s.acquire useDeadline)
    | _ => none
  | .timeout, s =>
    match s.waiter with
    | .blocked true _ => some { s with counter := s.counter - 1, waiter := .leaving }
    | _ => none
  | .collect, s =>
    if s.waiter = .leaving then
      some { s with mon := (getLatest s.mon).toOption.elim s.mon Prod.fst, waiter := .idle }
    else none

/-- `monitor()`. -/
def Waiting.start : Waiting K where
  mon := { notified := fun _ => none, high := ∅, edged := ∅ }
  counter := 0
  waiter := .idle
  releasing := 0

/-- An id that is watched is recorded as ready, and has events pending. -/
def Ready (m : MonitorState K) : Prop :=
  ∃ k ∈ m.high, ∃ flags interest, m.notified k = some (flags, interest) ∧ flags ≠ ∅

/-- The thread waits on the semaphore's condition variable. -/
def Waiting.Blocked (s : Waiting K) : Prop := ∃ useDeadline signalled, s.waiter = .blocked useDeadline signalled

/-! ## The monitor -/

variable {m : MonitorState K}

/-- An id with a flag of interest is recorded as ready. -/
def Level (m : MonitorState K) : Prop :=
  ∀ k flags interest, m.notified k = some (flags, interest) → (flags ∩ levels ∩ interest).Nonempty → k ∈ m.high

theorem notify_high_subset (key : K) (events : Mask) (action : Action) (hno : m.notified key = none) :
    (notify m key events action).1.notified = m.notified ∧ (notify m key events action).1.high = m.high.erase key := by
  unfold notify
  rw [hno]
  exact ⟨rfl, rfl⟩

/-- Without a flag of interest, and open, an id is not recorded as ready after a notification. -/
theorem notify_high_self {key : K} {events : Mask} {action : Action} {stored interest : Mask}
    (h : m.notified key = some (stored, interest)) (hhigh : key ∈ (notify m key events action).1.high)
    (hopen : .closed ∉ flagsAfter action stored events) :
    (flagsAfter action stored events ∩ levels ∩ interest).Nonempty := by
  by_contra hno
  unfold notify at hhigh
  rw [h] at hhigh
  simp only [if_neg hno, if_neg hopen] at hhigh
  exact absurd hhigh (Finset.notMem_erase key m.high)

theorem Level.notify (h : Level m) (key : K) (events : Mask) (action : Action) :
    Level (notify m key events action).1 := by
  intro k flags interest hk hne
  cases hkey : m.notified key with
  | none =>
    obtain ⟨hnotified, hhigh⟩ := notify_high_subset key events action hkey
    rw [hnotified] at hk
    rw [hhigh]
    refine Finset.mem_erase.2 ⟨?_, h k flags interest hk hne⟩
    rintro rfl
    exact absurd (hk.symm.trans hkey) (by simp)
  | some p =>
    obtain ⟨stored, mask⟩ := p
    obtain ⟨-, hnotified, hother, -, hself⟩ := notify_spec events action hkey
    rw [hnotified] at hk
    by_cases hkk : k = key
    · subst hkk
      rw [update_self] at hk
      obtain ⟨rfl, rfl⟩ := Prod.mk.inj (Option.some.inj hk)
      exact hself (.inl hne)
    · rw [update_of_ne hkk] at hk
      exact (hother k hkk).2 (h k flags interest hk hne)

/-- **A notification that does not release the semaphore** makes no id ready. -/
theorem notify_ready (h : Level m) {key : K} {events : Mask} {action : Action}
    (hno : notifyWakes m key events action = false) (hready : Ready (notify m key events action).1) : Ready m := by
  obtain ⟨k, hk, flags, interest, hnotified', hne⟩ := hready
  cases hkey : m.notified key with
  | none =>
    obtain ⟨hnotified, hhigh⟩ := notify_high_subset key events action hkey
    rw [hnotified] at hnotified'
    rw [hhigh] at hk
    exact ⟨k, Finset.mem_of_mem_erase hk, flags, interest, hnotified', hne⟩
  | some p =>
    obtain ⟨stored, mask⟩ := p
    obtain ⟨-, hnotified, hother, -, -⟩ := notify_spec events action hkey
    unfold notifyWakes at hno
    rw [hkey] at hno
    obtain ⟨hclear, hopen⟩ : action ≠ .apply ∧ .closed ∉ flagsAfter action stored events := by simpa using hno
    rw [hnotified] at hnotified'
    by_cases hkk : k = key
    · -- what is left of interest after flags were cleared was there before
      subst hkk
      obtain ⟨f, hf⟩ := notify_high_self hkey hk hopen
      obtain rfl : action = .clear := by
        cases action with
        | apply => exact absurd rfl hclear
        | clear => rfl
      have hstored : f ∈ stored ∩ levels ∩ mask := by
        simp only [flagsAfter, Finset.mem_inter, Finset.mem_sdiff] at hf ⊢
        exact ⟨⟨hf.1.1.1, hf.1.2⟩, hf.2⟩
      refine ⟨k, h k stored mask hkey ⟨f, hstored⟩, stored, mask, hkey, ?_⟩
      exact Finset.ne_empty_of_mem (Finset.mem_of_mem_inter_left (Finset.mem_of_mem_inter_left hstored))
    · rw [update_of_ne hkk] at hnotified'
      exact ⟨k, (hother k hkk).1 hk, flags, interest, hnotified', hne⟩

/-- What `get_latest` leaves. -/
theorem getLatest_ok {mon : MonitorState K} {pending : Finset (K × Mask)} (h : getLatest m = .ok (mon, pending)) :
    mon.notified = m.notified ∧ mon.high = m.high ∧ (pending = ∅ → ¬Ready mon) := by
  unfold getLatest at h
  split_ifs at h with hbad
  obtain ⟨rfl, rfl⟩ := Prod.mk.inj (Except.ok.inj h)
  refine ⟨rfl, rfl, ?_⟩
  rintro hempty ⟨k, hk, flags, interest, hnotified, hne⟩
  have hmem : (k, flags) ∈ (m.high.image fun k => (k, (m.notified k).elim ∅ Prod.fst)).filter fun p => p.2 ≠ ∅ := by
    refine Finset.mem_filter.2 ⟨Finset.mem_image.2 ⟨k, hk, ?_⟩, hne⟩
    rw [show m.notified k = some (flags, interest) from hnotified]
    rfl
  rw [hempty] at hmem
  exact absurd hmem (Finset.notMem_empty _)

/-! ## Runs -/

variable {s s' : Waiting K}

/-- The thread has found nothing pending and goes to the semaphore, or waits there. -/
def Waiter.past : Waiter → Bool
  | .checked _ | .blocked _ _ => true
  | .idle | .leaving => false

structure Waiting.Inv (s : Waiting K) : Prop where
  level : Level s.mon
  ready : s.waiter.past = true → Ready s.mon → 0 < s.counter ∨ 0 < s.releasing
  unsignalled : ∀ useDeadline, s.waiter = .blocked useDeadline false → s.counter = 0

omit [DecidableEq K] in
theorem inv_waiting_start : (Waiting.start : Waiting K).Inv := ⟨nofun, nofun, nofun⟩

omit [DecidableEq K] in
/-- The monitor changes, and no id becomes ready. -/
theorem Waiting.Inv.become (h : s.Inv) {mon : MonitorState K} (hlevel : Level mon) (hready : Ready mon → Ready s.mon) :
    { s with mon := mon }.Inv :=
  ⟨hlevel, fun hpast hr => h.ready hpast (hready hr), h.unsignalled⟩

omit [DecidableEq K] in
theorem Waiting.Inv.leave (h : s.Inv) (counter : ℕ) : { s with counter := counter, waiter := .leaving }.Inv :=
  ⟨h.level, nofun, nofun⟩

omit [DecidableEq K] in
/-- In the loop at the semaphore a permit is taken, or there is none. -/
theorem Waiting.Inv.acquire (h : s.Inv) (hpast : s.waiter.past = true) (useDeadline : Bool) :
    (s.acquire useDeadline).Inv := by
  unfold Waiting.acquire
  by_cases hzero : s.counter = 0
  · rw [if_pos hzero]
    exact ⟨h.level, fun _ => h.ready hpast, fun _ _ => hzero⟩
  · rw [if_neg hzero]
    exact h.leave _

omit [DecidableEq K] in
theorem release_spec (s : Waiting K) : s.release.mon = s.mon ∧ s.release.releasing = s.releasing ∧ 0 < s.release.counter ∧
    (∀ useDeadline, s.release.waiter = .blocked useDeadline false →
      s.waiter = .blocked useDeadline false ∧ maxCount ≤ s.counter) := by
  unfold Waiting.release
  by_cases hlt : s.counter < maxCount
  · rw [if_pos hlt]
    refine ⟨rfl, rfl, Nat.succ_pos _, ?_⟩
    intro useDeadline hw
    dsimp only at hw
    split at hw
    · cases hw
    · next hno => exact absurd hw (hno _ _)
  · rw [if_neg hlt]
    have hle := Nat.le_of_not_lt hlt
    exact ⟨rfl, rfl, hle, fun useDeadline hw => ⟨hw, hle⟩⟩

theorem Waiting.Inv.check (h : s.Inv) (useDeadline : Bool) : (s.check useDeadline).Inv := by
  unfold Waiting.check
  by_cases hhigh : s.mon.high = ∅
  · rw [if_pos hhigh]
    refine ⟨h.level, ?_, nofun⟩
    rintro - ⟨k, hk, -⟩
    rw [show s.mon.high = ∅ from hhigh] at hk
    exact absurd hk (Finset.notMem_empty k)
  · rw [if_neg hhigh]
    split
    · exact h
    · next mon pending heq =>
      obtain ⟨hnotified, hsame, hnone⟩ := getLatest_ok heq
      have hlevel : Level mon := by
        unfold Level
        rw [hnotified, hsame]
        exact h.level
      by_cases hempty : pending = ∅
      · rw [if_pos hempty]
        exact ⟨hlevel, fun _ hready => absurd hready (hnone hempty), nofun⟩
      · rw [if_neg hempty]
        exact ⟨hlevel, nofun, nofun⟩

/-- **One event** keeps the invariant. -/
theorem Waiting.Inv.step {e : WaitEvent K} (h : s.Inv) (he : Waiting.step e s = some s') : s'.Inv := by
  cases e with
  | notify key events action =>
    obtain rfl := Option.some.inj he
    cases hwakes : notifyWakes s.mon key events action with
    | true => exact ⟨h.level.notify key events action, fun _ _ => .inr (Nat.succ_pos _), h.unsignalled⟩
    | false => exact h.become (h.level.notify key events action) (notify_ready h.level hwakes)
  | release =>
    unfold Waiting.step at he
    dsimp only at he
    split_ifs at he with hzero
    obtain rfl := Option.some.inj he
    obtain ⟨hmon, -, hpos, hunsignalled⟩ := release_spec s
    refine ⟨?_, fun _ _ => .inl hpos, ?_⟩
    · show Level s.release.mon
      rw [hmon]
      exact h.level
    · -- a thread that was not signalled had come to an empty semaphore
      intro useDeadline hw
      obtain ⟨hw', hfull⟩ := hunsignalled useDeadline hw
      rw [h.unsignalled useDeadline hw'] at hfull
      exact absurd hfull (Nat.not_succ_le_zero 0)
  | watch id mask =>
    obtain rfl := Option.some.inj he
    refine h.become ?_ ?_
    · intro k flags interest hk hne
      dsimp only at hk
      by_cases hkk : k = id
      · subst hkk
        rw [update_self] at hk
        obtain ⟨rfl, -⟩ := Prod.mk.inj (Option.some.inj hk)
        rw [Finset.empty_inter, Finset.empty_inter] at hne
        exact absurd hne Finset.not_nonempty_empty
      · rw [update_of_ne hkk] at hk
        exact h.level k flags interest hk hne
    · rintro ⟨k, hk, flags, interest, hnotified, hne⟩
      dsimp only at hnotified
      by_cases hkk : k = id
      · subst hkk
        rw [update_self] at hnotified
        obtain ⟨rfl, -⟩ := Prod.mk.inj (Option.some.inj hnotified)
        exact absurd rfl hne
      · rw [update_of_ne hkk] at hnotified
        exact ⟨k, hk, flags, interest, hnotified, hne⟩
  | unwatch id =>
    obtain rfl := Option.some.inj he
    have hother : ∀ (k : K) (p : Mask × Mask), update s.mon.notified id none k = some p →
        k ≠ id ∧ s.mon.notified k = some p := by
      intro k p hk
      by_cases hkk : k = id
      · rw [hkk, update_self] at hk
        cases hk
      · rw [update_of_ne hkk] at hk
        exact ⟨hkk, hk⟩
    refine h.become ?_ ?_
    · intro k flags interest hk hne
      obtain ⟨hkk, hk⟩ := hother k _ hk
      exact Finset.mem_erase.2 ⟨hkk, h.level k flags interest hk hne⟩
    · rintro ⟨k, hk, flags, interest, hnotified, hne⟩
      exact ⟨k, Finset.mem_of_mem_erase hk, flags, interest, (hother k _ hnotified).2, hne⟩
  | wait useDeadline =>
    unfold Waiting.step at he
    dsimp only at he
    split_ifs at he
    obtain rfl := Option.some.inj he
    exact h.check useDeadline
  | acquire =>
    unfold Waiting.step at he
    cases hw : s.waiter with
    | checked useDeadline =>
      simp only [hw] at he
      obtain rfl := Option.some.inj he
      exact h.acquire (by rw [hw]; rfl) useDeadline
    | _ => simp [hw] at he
  | wake =>
    unfold Waiting.step at he
    cases hw : s.waiter with
    | blocked useDeadline signalled =>
      simp only [hw] at he
      obtain rfl := Option.some.inj he
      exact h.acquire (by rw [hw]; rfl) useDeadline
    | _ => simp [hw] at he
  | timeout =>
    unfold Waiting.step at he
    dsimp only at he
    split at he
    · obtain rfl := Option.some.inj he
      exact h.leave _
    · cases he
  | collect =>
    unfold Waiting.step at he
    dsimp only at he
    split_ifs at he
    obtain rfl := Option.some.inj he
    refine ⟨?_, nofun, nofun⟩
    cases hlatest : getLatest s.mon with
    | error _ => exact h.level
    | ok p =>
      obtain ⟨hnotified, hhigh, -⟩ := getLatest_ok hlatest
      show Level p.1
      unfold Level
      rw [hnotified, hhigh]
      exact h.level

/-- **No wake-up is lost.** A thread that waits on the semaphore while an id is ready finds a permit there, or a
notification is about to release it. One that waits although there is a permit has been signalled. -/
theorem no_lost_wakeup (h : Reaches Waiting.step Free (Waiting.start : Waiting K) s) (hblocked : s.Blocked) :
    ¬(s.counter = 0 ∧ Ready s.mon ∧ s.releasing = 0) ∧
      ∀ useDeadline, s.waiter = .blocked useDeadline false → s.counter = 0 := by
  have hinv : s.Inv := h.invariant (fun _ _ _ hi _ hs => hi.step hs) inv_waiting_start
  refine ⟨?_, hinv.unsignalled⟩
  rintro ⟨hzero, hready, hnone⟩
  obtain ⟨useDeadline, signalled, hw⟩ := hblocked
  rcases hinv.ready (by rw [hw]; rfl) hready with hpos | hpos
  · omega
  · omega

/-- The thread has checked and blocks, with an id ready by then; the notification has not released yet. -/
theorem no_lost_wakeup_one : ∃ s : Waiting ℕ, s.Blocked ∧ Ready s.mon ∧ s.releasing = 1 ∧
    ¬(s.counter = 0 ∧ Ready s.mon ∧ s.releasing = 0) := by
  obtain ⟨s, hreach, hw, ⟨hhigh, hnotified⟩, hreleasing⟩ : ∃ s : Waiting ℕ, Reaches Waiting.step Free Waiting.start s ∧
      s.waiter = .blocked false false ∧
        (0 ∈ s.mon.high ∧ s.mon.notified 0 = some ({.readable}, {.readable})) ∧ s.releasing = 1 :=
    exists_of_events [.watch 0 {.readable}, .wait false, .notify 0 {.readable} .apply, .acquire] (by decide +kernel)
  have hready : Ready s.mon := ⟨0, hhigh, _, _, hnotified, Finset.singleton_ne_empty _⟩
  exact ⟨s, ⟨_, _, hw⟩, hready, hreleasing, (no_lost_wakeup hreach ⟨_, _, hw⟩).1⟩

end Libtarp.Evchan
