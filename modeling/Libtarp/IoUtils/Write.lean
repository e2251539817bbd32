import Libtarp.Common
import Libtarp.IoUtils.Transfer
import Mathlib.Algebra.Order.Ring.Int

/-!
# `try_write` (`ioutils.c`)

A prefix of the buffer is always written, but what the last call wrote is returned.

* `Write.run_cases`: how far a run has come, from what the system did.
* `written_eq_take`: the bytes written are the first of the buffer, in order.
* `tryWrite_iff`: their number is returned if there is nothing to write or one call writes everything.
-/

namespace Libtarp.IoUtils

/-- What `try_write` returned, the bytes that were written, and how many calls were made. -/
structure Written where
  returned : ℤ
  bytes : List UInt8
  calls : ℕ
  deriving DecidableEq, Repr

/-- The loop of `try_write`: `write(dst, src, to_write)`. -/
def writeRun (os : Replies ℕ) (nbytes rounds : ℕ) : Transfer := Transfer.run Int.toNat os nbytes rounds

/-- The bytes the calls wrote. -/
def writtenBy (src : List UInt8) (calls : List Attempt) : List UInt8 :=
  calls.flatMap fun c => (src.drop c.pos).take (c.result.getD 0)

/-- `try_write` of the bytes of a buffer; no buffer is a null pointer. -/
def tryWrite (src : Option (List UInt8)) (os : Replies ℕ) (rounds : ℕ) : Except Fault Written :=
  match src with
  | none => .error .assertion
  | some src =>
    let s := writeRun os src.length rounds
    if s.ended = true then .ok ⟨s.last, writtenBy src s.calls, s.calls.length⟩ else .error .rounds

/-- The bytes the system had room for in the calls so far. -/
def offers (os : Replies ℕ) (n : ℕ) : ℕ := ((List.range n).map fun i => (os i).toOption.getD 0).sum

/-- The call fails, and is not tried again. -/
def Fatal : Except Errno ℕ → Prop
  | .ok _ => False
  | .error e => e.temporary = false

/-- The system takes as many bytes before a call fails for good, or ten in a row for the time being. -/
def TakenAll (os : Replies ℕ) (left : ℤ) : Prop :=
  left ≤ 0 ∨ ∃ j, (∀ i ≤ j, ¬ Fatal (os i) ∧ streak os i ≠ maxTries) ∧ left ≤ offers os (j + 1)

/-- The first call that takes any bytes takes as many at once. -/
def TakenAtOnce (os : Replies ℕ) (left : ℤ) : Prop :=
  ∃ j offered, (∀ i < j, Idle (os i)) ∧ (∀ i ≤ j, streak os i ≠ maxTries) ∧ os j = .ok offered ∧ left ≤ offered

variable {os : Replies ℕ} {nbytes n : ℕ} {s : Transfer} {src : List UInt8}

/-! ## Numbers in an `int` -/

theorem toInt32_lt (z : ℤ) : toInt32 z < 2 ^ 31 := by
  unfold toInt32
  have h := @Int.bmod_lt z (2 ^ 32) (by decide)
  omega

theorem toInt32_le (n : ℕ) : toInt32 n ≤ n := by
  unfold toInt32
  exact le_of_eq_of_le (Int.bmod_def ..) (by split_ifs <;> omega)

theorem toInt32_self {z : ℤ} (hlow : 0 ≤ z) (hhigh : z < 2 ^ 31) : toInt32 z = z := by
  unfold toInt32
  exact Int.bmod_eq_of_le (by omega) (by omega)

/-- A call is granted what it asks for, if it is offered so much. -/
theorem granted_left {left : ℤ} {pos offered : ℕ} (hpos : (pos : ℤ) + left < 2 ^ 31) :
    granted left.toNat pos offered = min offered left.toNat := by
  have hmax : left.toNat ≤ ptrdiffMax - pos := by
    unfold ptrdiffMax
    omega
  unfold granted
  rw [Nat.min_eq_left hmax]

theorem takenAtOnce_iff {left : ℤ} (hpos : 0 < left) (hlt : left < 2 ^ 31) :
    AtOnce Int.toNat os left ↔ TakenAtOnce os left := by
  have hgranted : ∀ offered, granted left.toNat 0 offered = min offered left.toNat := fun offered =>
    granted_left (by omega)
  constructor
  · rintro ⟨j, offered, hidle, htries, hos, -, hfinish⟩
    refine ⟨j, offered, hidle, htries, hos, ?_⟩
    by_contra hless
    rw [hgranted, Nat.min_eq_left (by omega), toInt32_self (by omega) (by omega)] at hfinish
    omega
  · rintro ⟨j, offered, hidle, htries, hos, hle⟩
    refine ⟨j, offered, hidle, htries, hos, ?_, ?_⟩
    · rw [hgranted]
      omega
    · rw [hgranted, Nat.min_eq_right (by omega), toInt32_self (by omega) (by omega)]
      omega

/-! ## How far a run has come -/

theorem offers_succ (os : Replies ℕ) (n : ℕ) : offers os (n + 1) = offers os n + (os n).toOption.getD 0 := by
  unfold offers
  rw [List.range_succ, List.map_append, List.sum_append]
  exact congrArg _ (Nat.add_zero _)

theorem offers_mono {m : ℕ} (h : m ≤ n) : offers os m ≤ offers os n := by
  induction h with
  | refl => exact Nat.le_refl _
  | step _ ih =>
    rw [offers_succ]
    omega

/-- Before a failure that ends the loop, the system took less. -/
theorem not_takenAll {left : ℤ} (hless : offers os n < left) (hfail : Fatal (os n) ∨ streak os n = maxTries) :
    ¬ TakenAll os left := by
  rintro (hnone | ⟨j, hall, htaken⟩)
  · omega
  · have hj : n ≤ j := by
      by_contra hlt
      have hmono : offers os (j + 1) ≤ offers os n := offers_mono (by omega)
      omega
    obtain ⟨hfatal, htries⟩ := hall n hj
    exact hfail.elim hfatal htries

/-- The last call failed. -/
def LastFailed (os : Replies ℕ) (calls : ℕ) : Prop := ∃ i e, calls = i + 1 ∧ os i = .error e

theorem streak_failed (h : 0 < streak os n) : LastFailed os n := by
  cases n with
  | zero => exact absurd h (Nat.lt_irrefl 0)
  | succ i =>
    cases hos : os i with
    | error e => exact ⟨i, e, rfl, hos⟩
    | ok offered =>
      unfold streak at h
      rw [hos] at h
      exact absurd h (Nat.lt_irrefl 0)

/-- A run that goes on has written all that it was offered. -/
structure Write.Going (os : Replies ℕ) (nbytes n : ℕ) (s : Transfer) : Prop where
  opened : s.ended = false
  counted : Counted os n s
  going : 0 < s.left
  left : s.left = toInt32 nbytes - offers os n
  pos : s.pos = offers os n
  tried : ∀ i < n, ¬ Fatal (os i) ∧ streak os i ≠ maxTries
  last : s.last ≤ s.pos

/-- A run that has written everything. -/
structure Write.Ended (os : Replies ℕ) (nbytes : ℕ) (s : Transfer) : Prop where
  left : s.left ≤ 0
  taken : TakenAll os (toInt32 nbytes)
  pos : s.pos = (toInt32 nbytes).toNat
  last : 0 ≤ s.last ∧ s.last ≤ s.pos
  failed : ¬ LastFailed os s.calls.length

/-- A run that was given up. -/
structure Write.GivenUp (os : Replies ℕ) (nbytes : ℕ) (s : Transfer) : Prop where
  ended : s.ended = true
  taken : ¬ TakenAll os (toInt32 nbytes)
  pos : (s.pos : ℤ) < toInt32 nbytes
  last : s.last = -1
  failed : LastFailed os s.calls.length

/-- A run goes on, has written everything, or was given up. -/
def Write.State (os : Replies ℕ) (nbytes n : ℕ) (s : Transfer) : Prop :=
  Write.Going os nbytes n s ∨ Write.Ended os nbytes s ∨ Write.GivenUp os nbytes s

theorem Write.state_start : Write.State os nbytes 0 (Transfer.start nbytes) := by
  by_cases hleft : toInt32 nbytes ≤ 0
  · refine Or.inr (Or.inl ⟨hleft, Or.inl hleft, ?_, ⟨le_rfl, le_rfl⟩, ?_⟩)
    · exact (Int.toNat_of_nonpos hleft).symm
    · rintro ⟨i, e, hlength, -⟩
      exact absurd hlength (Nat.succ_ne_zero i).symm
  · refine Or.inl ⟨rfl, counted_start, Int.not_le.mp hleft, (Int.sub_zero _).symm, rfl, ?_, le_rfl⟩
    exact fun i hi => absurd hi (Nat.not_lt_zero i)

/-- The call was tried in vain ten times. -/
theorem Write.Going.leave (h : Write.Going os nbytes n s) (hten : streak os n = maxTries) :
    Write.GivenUp os nbytes { s with ended := true } := by
  have hpos : 0 < streak os n := by
    rw [hten]
    decide
  have hless : (offers os n : ℤ) < toInt32 nbytes := by
    have h1 := h.left
    have h2 := h.going
    omega
  refine ⟨rfl, not_takenAll hless (Or.inr hten), h.pos ▸ hless, ?_, ?_⟩
  · exact h.counted.failed (h.counted.tries ▸ hpos)
  · rw [h.counted.calls]
    exact streak_failed hpos

theorem Write.Going.moved {offered : ℕ} (h : Write.Going os nbytes n s) (hos : os n = .ok offered)
    (htries : streak os n ≠ maxTries) :
    Write.State os nbytes (n + 1) (s.moved s.left.toNat (granted s.left.toNat s.pos offered)) := by
  have hgoing := h.going
  have hleft := h.left
  have hpos := h.pos
  have hbound := toInt32_lt nbytes
  have hcounted : Counted os (n + 1) (s.moved s.left.toNat (granted s.left.toNat s.pos offered)) := h.counted.moved hos
  have htried : ∀ i < n + 1, ¬ Fatal (os i) ∧ streak os i ≠ maxTries := by
    intro i hi
    rcases Nat.lt_succ_iff_lt_or_eq.mp hi with hi | rfl
    · exact h.tried i hi
    · rw [hos]
      exact ⟨not_false, htries⟩
  have hoffers : offers os (n + 1) = offers os n + offered := by
    rw [offers_succ, hos]
    rfl
  rw [granted_left (by omega)] at hcounted ⊢
  rcases Nat.lt_or_ge offered s.left.toNat with hpart | hfull
  · -- some bytes are left, and the offers so far are those written
    rw [Nat.min_eq_left hpart.le] at hcounted ⊢
    have hself : toInt32 (s.left - offered) = s.left - offered := toInt32_self (by omega) (by omega)
    refine Or.inl ⟨rfl, hcounted, ?_, ?_, ?_, htried, ?_⟩ <;> unfold Transfer.moved <;> dsimp only
    · rw [hself]
      omega
    · rw [hself, hoffers]
      omega
    · rw [hoffers, hpos]
    · omega
  · -- the call takes all that is left
    rw [Nat.min_eq_right hfull] at hcounted ⊢
    have hself : toInt32 (s.left - s.left.toNat) = 0 := by
      rw [toInt32_self (by omega) (by omega)]
      omega
    refine Or.inr (Or.inl ⟨?_, ?_, ?_, ?_, ?_⟩)
    · exact hself.le
    · exact Or.inr ⟨n, fun i hi => htried i (Nat.lt_succ_of_le hi), by rw [hoffers]; omega⟩
    · unfold Transfer.moved
      dsimp only
      omega
    · unfold Transfer.moved
      dsimp only
      omega
    · rw [hcounted.calls]
      rintro ⟨i, e, hi, he⟩
      obtain rfl : n = i := Nat.succ.inj hi
      rw [hos] at he
      cases he

theorem Write.Going.failed {e : Errno} (h : Write.Going os nbytes n s) (hos : os n = .error e)
    (htries : streak os n ≠ maxTries) : Write.State os nbytes (n + 1) (s.failed s.left.toNat e) := by
  have hless : (offers os n : ℤ) < toInt32 nbytes := by
    have h1 := h.left
    have h2 := h.going
    omega
  cases he : e.temporary with
  | true =>
    have hoffers : offers os (n + 1) = offers os n := by
      rw [offers_succ, hos]
      rfl
    refine Or.inl ⟨by rw [failed_over, he]; rfl, h.counted.failed_again hos he, h.going, ?_, ?_, ?_, ?_⟩
    · rw [hoffers]
      exact h.left
    · rw [hoffers]
      exact h.pos
    · intro i hi
      rcases Nat.lt_succ_iff_lt_or_eq.mp hi with hi | rfl
      · exact h.tried i hi
      · refine ⟨?_, htries⟩
        rw [hos]
        exact fun hfatal => Bool.true_eq_false.mp (he.symm.trans hfatal)
    · exact le_trans (show (-1 : ℤ) ≤ 0 by decide) (Int.natCast_nonneg _)
  | false =>
    have hfatal : Fatal (os n) := by
      rw [hos]
      exact he
    refine Or.inr (Or.inr ⟨by rw [failed_over, he]; rfl, not_takenAll hless (Or.inl hfatal), h.pos ▸ hless, rfl, ?_⟩)
    refine ⟨n, e, ?_, hos⟩
    unfold Transfer.failed
    rw [List.length_append, h.counted.calls]
    rfl

theorem Write.state_step (h : Write.State os nbytes n s) : Write.State os nbytes (n + 1) (s.step Int.toNat os) := by
  rcases h with hgoing | hended | hup
  · have hcalls := hgoing.counted.calls
    have htries := hgoing.counted.tries
    obtain ⟨hover, -⟩ | ⟨-, hleave, hstep⟩ | ⟨-, -, hne, ⟨offered, hos, hstep⟩ | ⟨e, hos, hstep⟩⟩ :=
      step_cases Int.toNat os s
    · rw [hgoing.opened] at hover
      exact absurd hover Bool.false_ne_true
    · rw [hstep]
      exact Or.inr (Or.inr (hgoing.leave (htries ▸ hleave.resolve_left (Int.not_le.mpr hgoing.going))))
    · rw [hstep]
      exact hgoing.moved (hcalls ▸ hos) (htries ▸ hne)
    · rw [hstep]
      exact hgoing.failed (hcalls ▸ hos) (htries ▸ hne)
  · -- everything is written: at most the loop is left
    refine Or.inr (Or.inl ?_)
    cases hover : s.ended with
    | true =>
      rw [step_over hover]
      exact hended
    | false =>
      rw [step_leave hover (Or.inl hended.left)]
      exact ⟨hended.left, hended.taken, hended.pos, hended.last, hended.failed⟩
  · rw [step_over hup.ended]
    exact Or.inr (Or.inr hup)

/-- **How far a run has come**, from what the system did. -/
theorem Write.run_cases (os : Replies ℕ) (nbytes n : ℕ) : Write.State os nbytes n (writeRun os nbytes n) :=
  run_induction Write.state_start (fun _ _ => Write.state_step) n

theorem Write.Going.not_over (h : Write.Going os nbytes n s) : s.ended ≠ true := by
  rw [h.opened]
  exact Bool.false_ne_true

/-- The bytes that were taken are returned in a run that wrote everything, and `-1` in one that was given up. -/
theorem Write.over_cases (hover : (writeRun os nbytes n).ended = true) :
    Write.Ended os nbytes (writeRun os nbytes n) ∨ Write.GivenUp os nbytes (writeRun os nbytes n) :=
  (Write.run_cases os nbytes n).resolve_left fun h => h.not_over hover

theorem writeRun_le (os : Replies ℕ) (nbytes n : ℕ) : (writeRun os nbytes n).pos ≤ nbytes := by
  have hle := toInt32_le nbytes
  rcases Write.run_cases os nbytes n with h | h | h
  · have h1 := h.left
    have h2 := h.pos
    have h3 := h.going
    omega
  · rw [h.pos]
    omega
  · have := h.pos
    omega

/-- The bytes written so far are the first of the buffer, as many as the pointer was moved by. -/
theorem written_eq_take (src : List UInt8) (os : Replies ℕ) (n : ℕ) :
    writtenBy src (writeRun os src.length n).calls = src.take (writeRun os src.length n).pos := by
  have happend : ∀ calls c, writtenBy src (calls ++ [c]) =
      writtenBy src calls ++ (src.drop c.pos).take (c.result.getD 0) := by
    intro calls c
    unfold writtenBy
    rw [List.flatMap_append, List.flatMap_singleton]
  refine run_induction (P := fun _ s => writtenBy src s.calls = src.take s.pos) rfl (fun _ s ih => ?_) n
  obtain ⟨-, h⟩ | ⟨-, -, h⟩ | ⟨-, -, -, ⟨_, -, h⟩ | ⟨_, -, h⟩⟩ := step_cases Int.toNat os s <;> rw [h]
  · exact ih
  · exact ih
  · unfold Transfer.moved
    rw [happend, ih, List.take_add]
    rfl
  · unfold Transfer.failed
    rw [happend, ih]
    exact List.append_nil _

theorem written_length (src : List UInt8) (os : Replies ℕ) (n : ℕ) :
    (writtenBy src (writeRun os src.length n).calls).length = (writeRun os src.length n).pos := by
  rw [written_eq_take, List.length_take]
  exact Nat.min_eq_left (writeRun_le ..)

theorem tryWrite_ok {w : Written} (h : tryWrite (some src) os n = .ok w) :
    (writeRun os src.length n).ended = true ∧ w.returned = (writeRun os src.length n).last ∧
      w.bytes = src.take (writeRun os src.length n).pos ∧ w.bytes.length = (writeRun os src.length n).pos ∧
      w.calls = (writeRun os src.length n).calls.length := by
  unfold tryWrite at h
  dsimp only at h
  split_ifs at h with hover
  obtain rfl := Except.ok.inj h
  exact ⟨hover, rfl, written_eq_take .., written_length .., rfl⟩

theorem tryWrite_over (hover : (writeRun os src.length n).ended = true) :
    ∃ w, tryWrite (some src) os n = .ok w := by
  unfold tryWrite
  exact ⟨_, if_pos hover⟩

/-- A call that returned returns the same however many rounds it is given. -/
theorem tryWrite_more {w : Written} {m : ℕ} (h : tryWrite (some src) os n = .ok w) (hle : n ≤ m) :
    tryWrite (some src) os m = .ok w := by
  have hsame : writeRun os src.length m = writeRun os src.length n := run_over (tryWrite_ok h).1 hle
  unfold tryWrite at h ⊢
  dsimp only at h ⊢
  rwa [hsame]

theorem tryWrite_unique {w w' : Written} {m : ℕ} (h : tryWrite (some src) os n = .ok w)
    (h' : tryWrite (some src) os m = .ok w') : w = w' := by
  rcases Nat.le_total n m with hle | hle
  · exact Except.ok.inj ((tryWrite_more h hle).symm.trans h')
  · exact Except.ok.inj (h.symm.trans (tryWrite_more h' hle))

/-- **What `try_write` returns**: everything was taken, and at most as many bytes as were written are returned, or it
was given up, and `-1` is. -/
theorem tryWrite_cases {w : Written} (h : tryWrite (some src) os n = .ok w) :
    (TakenAll os (toInt32 src.length) ∧ w.bytes.length = (toInt32 src.length).toNat ∧ 0 ≤ w.returned ∧
      w.returned ≤ w.bytes.length ∧ ¬ LastFailed os w.calls) ∨
    (¬ TakenAll os (toInt32 src.length) ∧ (w.bytes.length : ℤ) < toInt32 src.length ∧ w.returned = -1 ∧
      LastFailed os w.calls) := by
  obtain ⟨hover, hreturned, -, hlength, hcalls⟩ := tryWrite_ok h
  rw [hreturned, hlength, hcalls]
  rcases Write.over_cases hover with hended | hup
  · exact Or.inl ⟨hended.taken, hended.pos, hended.last.1, hended.last.2, hended.failed⟩
  · exact Or.inr ⟨hup.taken, hup.pos, hup.last, hup.failed⟩

/-- The bytes written are a prefix of the buffer at any time, and `try_write` returns their number. -/
structure WriteRight (src : List UInt8) (os : Replies ℕ) : Prop where
  isPrefix : ∀ rounds, writtenBy src (writeRun os src.length rounds).calls <+: src
  returned : ∃ rounds w, tryWrite (some src) os rounds = .ok w ∧ w.returned = w.bytes.length

/-- There is nothing to write, or the first call that writes anything writes all of it. -/
def WriteCond (src : List UInt8) (os : Replies ℕ) : Prop :=
  toInt32 src.length ≤ 0 ∨ TakenAtOnce os (toInt32 src.length)

/-- **The number returned** is that of the bytes written if one call writes everything, and then only. -/
theorem tryWrite_iff (src : List UInt8) (os : Replies ℕ) : WriteRight src os ↔ WriteCond src os := by
  have hreturned : WriteRight src os ↔ ∃ n, (writeRun os src.length n).ended = true ∧
      (writeRun os src.length n).last = (writeRun os src.length n).pos := by
    constructor
    · rintro ⟨-, n, w, hw, hlast⟩
      obtain ⟨hover, hreturned, -, hlength, -⟩ := tryWrite_ok hw
      exact ⟨n, hover, by rw [← hreturned, hlast, hlength]⟩
    · rintro ⟨n, hover, hlast⟩
      obtain ⟨w, hw⟩ := tryWrite_over hover
      obtain ⟨-, hreturned, -, hlength, -⟩ := tryWrite_ok hw
      refine ⟨fun rounds => ?_, n, w, hw, by rw [hreturned, hlast, hlength]⟩
      rw [written_eq_take]
      exact List.take_prefix ..
  rw [hreturned]
  unfold WriteCond
  by_cases hleft : toInt32 src.length ≤ 0
  · refine iff_of_true ⟨1, ?_⟩ (Or.inl hleft)
    unfold writeRun
    rw [run_nothing hleft]
    exact ⟨rfl, rfl⟩
  · have hpos : 0 < toInt32 src.length := Int.not_le.mp hleft
    rw [or_iff_right hleft, ← takenAtOnce_iff hpos (toInt32_lt _)]
    exact returns_total_iff hpos (Int.lt_toNat.mpr hpos)

end Libtarp.IoUtils
