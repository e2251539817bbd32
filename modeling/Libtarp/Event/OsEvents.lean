import Mathlib.Data.List.Basic
import Mathlib.Logic.Function.Basic
import Mathlib.Order.Nat

/-!
# Events from the operating system (`linux-event.c`)

`epoll_wait` stores a batch of events in a buffer on the stack. What the memory holds after them
is not known: the buffer of a batch has an entry at every index.

* `pumpLoop_spec`: what the loop reads and appends.
* `pumpOsEvents_iff`: it takes over the batch as it is exactly where there are at most two events, since
  the pointer moves on by the index.
-/

namespace Libtarp.Event

open Function

/-! ## Flags -/

def EPOLLIN : BitVec 32 := 0x001
def EPOLLOUT : BitVec 32 := 0x004
def EPOLLERR : BitVec 32 := 0x008
def EPOLLHUP : BitVec 32 := 0x010
def EPOLLRDHUP : BitVec 32 := 0x2000

/-- `FD_EVENT_READABLE`. -/
def fdEventReadable : BitVec 32 := 1

/-- `FD_EVENT_WRITABLE`. -/
def fdEventWritable : BitVec 32 := 2

/-- `FD_EVENT_ERROR`. -/
def fdEventError : BitVec 32 := 4

/-- The flags for the events of an entry. -/
def translate (events : BitVec 32) : BitVec 32 :=
  let revents := if events &&& EPOLLIN ≠ 0 then fdEventReadable else 0
  let revents := if events &&& EPOLLRDHUP ≠ 0 then revents ||| fdEventReadable else revents
  let revents := if events &&& EPOLLOUT ≠ 0 then revents ||| fdEventWritable else revents
  let revents := if events &&& EPOLLERR ≠ 0 then revents ||| fdEventError else revents
  if events &&& EPOLLHUP ≠ 0 then revents ||| fdEventError else revents

/-! ## The loop -/

/-- `struct epoll_event`. -/
structure EpollEvent (φ : Type) where
  events : BitVec 32
  ptr : φ

/-- `MAX_EPOLL_BATCH`. -/
def maxEpollBatch : ℕ := 50

/-- The buffer with `rc` events in it. A monitor has one event in a batch. -/
structure Batch (φ : Type) where
  buff : ℕ → EpollEvent φ
  rc : ℕ
  pos : 1 ≤ rc
  bound : rc ≤ maxEpollBatch
  distinct : ∀ i < rc, ∀ j < rc, (buff i).ptr = (buff j).ptr → i = j

/-- The event queue, `revents` of every monitor, and the indices of the entries read so far. -/
structure Queue (φ : Type) where
  evq : List φ
  revents : φ → BitVec 32
  reads : List ℕ

variable {φ : Type} [DecidableEq φ]

/-- The loop of `pump_os_events`; `ev` is the index that the pointer has come to. -/
def pumpLoop (buff : ℕ → EpollEvent φ) (rc i ev : ℕ) (q : Queue φ) : Queue φ :=
  if i < rc then
    let fdev := (buff ev).ptr
    let q := {
      evq := q.evq ++ [fdev]
      revents := update q.revents fdev (translate (buff ev).events)
      reads := q.reads ++ [ev] }
    pumpLoop buff rc (i + 1) (ev + (i + 1)) q
  else q
termination_by rc - i

/-- `pump_os_events`, once `epoll_wait` has stored a batch. -/
def pumpOsEvents (b : Batch φ) (q : Queue φ) : Queue φ := pumpLoop b.buff b.rc 0 0 { q with reads := [] }

/-- The index of the entry that the loop reads in round `i`. -/
def entryIdx : ℕ → ℕ
  | 0 => 0
  | i + 1 => entryIdx i + (i + 1)

/-- The queue has got the events of the batch, in order, with the flags of their entries, and no other entry
was read. -/
def TakesOver (b : Batch φ) (q q' : Queue φ) : Prop :=
  q'.evq = q.evq ++ (List.range b.rc).map (fun i => (b.buff i).ptr) ∧
    (∀ i < b.rc, q'.revents (b.buff i).ptr = translate (b.buff i).events) ∧ ∀ ev ∈ q'.reads, ev < b.rc

/-- The loop reads one entry a round. -/
theorem pumpLoop_spec (buff : ℕ → EpollEvent φ) (rc i : ℕ) (q : Queue φ) :
    (pumpLoop buff rc i (entryIdx i) q).evq = q.evq ++ (List.range' i (rc - i)).map (fun j => (buff (entryIdx j)).ptr) ∧
      (pumpLoop buff rc i (entryIdx i) q).reads = q.reads ++ (List.range' i (rc - i)).map entryIdx := by
  induction hn : rc - i generalizing i q with
  | zero =>
    rw [pumpLoop, if_neg (by omega)]
    exact ⟨(List.append_nil _).symm, (List.append_nil _).symm⟩
  | succ n ih =>
    rw [pumpLoop, if_pos (by omega)]
    obtain ⟨hevq, hreads⟩ := ih (i + 1) _ (by omega)
    rw [entryIdx] at hevq hreads
    rw [hevq, hreads, List.range'_succ]
    simp only [List.map_cons, List.append_assoc, List.singleton_append, and_self]

theorem entryIdx_ge {i : ℕ} (h : 2 ≤ i) : i + 1 ≤ entryIdx i := by
  induction i with
  | zero => omega
  | succ i ih =>
    rw [entryIdx]
    rcases Nat.lt_or_ge i 2 with hi | hi
    · obtain rfl : i = 1 := by omega
      decide
    · have := ih hi
      omega

/-- **Exactly the batch** is taken over, of one or two events. Of three or more the last entry that is read lies
after them. -/
theorem pumpOsEvents_iff (b : Batch φ) (q : Queue φ) : TakesOver b q (pumpOsEvents b q) ↔ b.rc ≤ 2 := by
  constructor
  · rintro ⟨-, -, hreads⟩
    by_contra hrc
    have hread : (pumpOsEvents b q).reads = (List.range' 0 b.rc).map entryIdx := by
      exact (pumpLoop_spec b.buff b.rc 0 { q with reads := [] }).2
    have hlast : entryIdx (b.rc - 1) ∈ (pumpOsEvents b q).reads := by
      rw [hread]
      refine List.mem_map_of_mem ?_
      rw [List.mem_range'_1]
      omega
    have hlt := hreads _ hlast
    have hge := entryIdx_ge (i := b.rc - 1) (by omega)
    omega
  · intro hrc
    obtain ⟨buff, rc, hpos, hbound, hdistinct⟩ := b
    obtain rfl | rfl : rc = 1 ∨ rc = 2 := by
      dsimp only at hrc
      omega
    · refine ⟨?_, fun i hi => ?_, ?_⟩
      · simp [pumpOsEvents, pumpLoop]
      · obtain rfl : i = 0 := Nat.lt_one_iff.1 hi
        simp [pumpOsEvents, pumpLoop]
      · simp [pumpOsEvents, pumpLoop]
    · have hne : (buff 0).ptr ≠ (buff 1).ptr := fun he => absurd (hdistinct 0 (by omega) 1 (by omega) he) (by decide)
      refine ⟨?_, fun i hi => ?_, ?_⟩
      · simp [pumpOsEvents, pumpLoop, List.range_succ]
      · obtain rfl | rfl : i = 0 ∨ i = 1 := by
          dsimp only at hi
          omega
        · simp [pumpOsEvents, pumpLoop, update_of_ne hne]
        · simp [pumpOsEvents, pumpLoop]
      · simp [pumpOsEvents, pumpLoop]

/-- Three events, of the monitors 0, 1 and 2. -/
def threeEvents : Batch ℕ where
  buff i := { events := EPOLLIN, ptr := i }
  rc := 3
  pos := by decide
  bound := by decide
  distinct _ _ _ _ h := h

/-- **The third event is lost**, and the entry after it is read instead. -/
theorem third_lost : ¬∀ b : Batch ℕ, ∀ q : Queue ℕ, TakesOver b q (pumpOsEvents b q) := by
  intro hall
  obtain ⟨hevq, -, -⟩ := hall threeEvents { evq := [], revents := fun _ => 0, reads := [] }
  have hspec := (pumpLoop_spec threeEvents.buff 3 0 { evq := [], revents := fun _ => 0, reads := [] }).1
  exact absurd (hevq.symm.trans hspec) (by decide)

end Libtarp.Event
