import Mathlib.Algebra.BigOperators.Group.List.Basic
import Mathlib.Algebra.GroupWithZero.Nat
import Mathlib.Logic.Function.Iterate
import Mathlib.Tactic.Common

/-!
# The retry loop of `try_write` and `try_read` (`ioutils.c`)

Both functions make calls to the operating system until nothing is left to do, a call fails for good, or ten calls
in a row failed for the time being.  They differ in how many bytes a call asks for.  Both return what the last call
did.

* `Transfer`, `Transfer.step`: the variables of the loop, and one round.
* `atOnce_run`: the calls of a run in which one call does everything, after some that moved nothing.
* `returns_total_iff`: the number returned is that of the bytes moved in such runs only.
-/

namespace Libtarp.IoUtils

/-- What `errno` says of a failed call. -/
inductive Errno
  | again
  | wouldBlock
  | intr
  | other (code : ℕ)
  deriving DecidableEq, Repr

/-- `errno` is `EAGAIN` or `EWOULDBLOCK`. -/
def Errno.temporary : Errno → Bool
  | .again | .wouldBlock => true
  | .intr | .other _ => false

/-- What the system makes of the calls, one after the other. -/
abbrev Replies (α : Type) := ℕ → Except Errno α

/-- The largest object there can be, and the largest count a call can return. -/
def ptrdiffMax : ℕ := 2 ^ 63 - 1

/-- The bytes a call moves that asks for some from a position on, when the system has as many for it. -/
def granted (request pos offered : ℕ) : ℕ := min offered (min request (ptrdiffMax - pos))

/-- A number stored in an `int`. -/
@[irreducible] def toInt32 (z : ℤ) : ℤ := z.bmod (2 ^ 32)

/-- `max_tries`. -/
def maxTries : ℕ := 10

/-- A call: where in the buffer, how many bytes were asked for, and how many moved (`-1` is `none`). -/
structure Attempt where
  pos : ℕ
  request : ℕ
  result : Option ℕ
  deriving DecidableEq, Repr

/-- The variables of the loop: `tries`, `to_write` or `to_read`, how far `src` or `buff` was moved, and
`bytes_written` or `bytes_read`; the calls made; and whether the loop was left. -/
structure Transfer where
  tries : ℕ
  left : ℤ
  pos : ℕ
  last : ℤ
  calls : List Attempt
  ended : Bool
  deriving DecidableEq, Repr

/-- The loop is entered. -/
def Transfer.start (nbytes : ℕ) : Transfer := ⟨0, toInt32 nbytes, 0, 0, [], false⟩

/-- A call that moved bytes. -/
def Transfer.moved (s : Transfer) (request n : ℕ) : Transfer :=
  ⟨0, toInt32 (s.left - n), s.pos + n, n, s.calls ++ [⟨s.pos, request, some n⟩], false⟩

/-- A call that failed. -/
def Transfer.failed (s : Transfer) (request : ℕ) (e : Errno) : Transfer :=
  ⟨if e.temporary then s.tries + 1 else s.tries, s.left, s.pos, -1, s.calls ++ [⟨s.pos, request, none⟩], !e.temporary⟩

/-- One round of the loop; `ask` is the number of bytes asked for when some are left. -/
def Transfer.step (ask : ℤ → ℕ) (os : Replies ℕ) (s : Transfer) : Transfer :=
  if s.ended = true then s
  else if s.left ≤ 0 ∨ s.tries = maxTries then { s with ended := true }
  else
    match os s.calls.length with
    | .ok offered => s.moved (ask s.left) (granted (ask s.left) s.pos offered)
    | .error e => s.failed (ask s.left) e

/-- The loop after some rounds. -/
def Transfer.run (ask : ℤ → ℕ) (os : Replies ℕ) (nbytes rounds : ℕ) : Transfer :=
  (Transfer.step ask os)^[rounds] (Transfer.start nbytes)

/-- How many calls just before one failed for the time being. -/
def streak (os : Replies ℕ) : ℕ → ℕ
  | 0 => 0
  | i + 1 =>
    match os i with
    | .error e => if e.temporary then streak os i + 1 else 0
    | .ok _ => 0

/-- The call moves nothing, and is tried again. -/
def Idle : Except Errno ℕ → Prop
  | .ok offered => offered = 0
  | .error e => e.temporary = true

/-- One call does everything; those before it move nothing, and never do ten in a row fail. -/
def AtOnce (ask : ℤ → ℕ) (os : Replies ℕ) (left : ℤ) : Prop :=
  ∃ j offered, (∀ i < j, Idle (os i)) ∧ (∀ i ≤ j, streak os i ≠ maxTries) ∧ os j = .ok offered ∧
    0 < granted (ask left) 0 offered ∧ toInt32 (left - granted (ask left) 0 offered) ≤ 0

variable {ask : ℤ → ℕ} {os : Replies ℕ} {nbytes n : ℕ} {s : Transfer}

/-! ## A round -/

theorem failed_over (s : Transfer) (request : ℕ) (e : Errno) : (s.failed request e).ended = !e.temporary := rfl

theorem run_zero : Transfer.run ask os nbytes 0 = Transfer.start nbytes := rfl

theorem run_succ : Transfer.run ask os nbytes (n + 1) = (Transfer.run ask os nbytes n).step ask os :=
  Function.iterate_succ_apply' ..

theorem step_over (hover : s.ended = true) : s.step ask os = s := if_pos hover

theorem step_leave (hopen : s.ended = false) (hleave : s.left ≤ 0 ∨ s.tries = maxTries) :
    s.step ask os = { s with ended := true } := by
  unfold Transfer.step
  rw [if_neg (Bool.eq_false_iff.mp hopen), if_pos hleave]

theorem step_call (ask : ℤ → ℕ) (os : Replies ℕ) (hopen : s.ended = false) (hleft : 0 < s.left)
    (htries : s.tries ≠ maxTries) : s.step ask os = match os s.calls.length with
      | .ok offered => s.moved (ask s.left) (granted (ask s.left) s.pos offered)
      | .error e => s.failed (ask s.left) e := by
  unfold Transfer.step
  rw [if_neg (Bool.eq_false_iff.mp hopen), if_neg (by rintro (h | h) <;> omega)]

/-- **A round**: the loop was left before, is left now, or a call is made, which moves bytes or fails. -/
theorem step_cases (ask : ℤ → ℕ) (os : Replies ℕ) (s : Transfer) :
    (s.ended = true ∧ s.step ask os = s) ∨
    (s.ended = false ∧ (s.left ≤ 0 ∨ s.tries = maxTries) ∧ s.step ask os = { s with ended := true }) ∨
    (s.ended = false ∧ 0 < s.left ∧ s.tries ≠ maxTries ∧
      ((∃ offered, os s.calls.length = .ok offered ∧
        s.step ask os = s.moved (ask s.left) (granted (ask s.left) s.pos offered)) ∨
      ∃ e, os s.calls.length = .error e ∧ s.step ask os = s.failed (ask s.left) e)) := by
  cases hover : s.ended with
  | true => exact Or.inl ⟨rfl, step_over hover⟩
  | false =>
    by_cases hleave : s.left ≤ 0 ∨ s.tries = maxTries
    · exact Or.inr (Or.inl ⟨rfl, hleave, step_leave hover hleave⟩)
    · obtain ⟨hleft, htries⟩ := not_or.mp hleave
      refine Or.inr (Or.inr ⟨rfl, by omega, htries, ?_⟩)
      have hstep := step_call ask os hover (by omega) htries
      cases hos : os s.calls.length with
      | ok offered => exact Or.inl ⟨offered, rfl, by rw [hstep, hos]⟩
      | error e => exact Or.inr ⟨e, rfl, by rw [hstep, hos]⟩

/-- What every round keeps, every run keeps. -/
theorem run_induction {P : ℕ → Transfer → Prop} (start : P 0 (Transfer.start nbytes))
    (step : ∀ n s, P n s → P (n + 1) (s.step ask os)) (n : ℕ) : P n (Transfer.run ask os nbytes n) := by
  induction n with
  | zero => exact start
  | succ n ih =>
    rw [run_succ]
    exact step n _ ih

theorem run_over {m : ℕ} (hover : (Transfer.run ask os nbytes n).ended = true) (hle : n ≤ m) :
    Transfer.run ask os nbytes m = Transfer.run ask os nbytes n := by
  induction hle with
  | refl => rfl
  | step _ ih => rw [run_succ, ih, step_over hover]

/-- Two runs of one loop that was left in both are in one state. -/
theorem run_over_unique {m : ℕ} (hn : (Transfer.run ask os nbytes n).ended = true)
    (hm : (Transfer.run ask os nbytes m).ended = true) :
    Transfer.run ask os nbytes n = Transfer.run ask os nbytes m := by
  rcases Nat.le_total n m with hle | hle
  · exact (run_over hn hle).symm
  · exact run_over hm hle

/-! ## The calls -/

/-- The last call returned `-1`, or at most the number of bytes moved so far. -/
theorem run_last (n : ℕ) : (Transfer.run ask os nbytes n).pos ≤ ptrdiffMax ∧
    ((Transfer.run ask os nbytes n).last = -1 ∨ 0 ≤ (Transfer.run ask os nbytes n).last ∧
      (Transfer.run ask os nbytes n).last ≤ (Transfer.run ask os nbytes n).pos) := by
  refine run_induction (P := fun _ s => s.pos ≤ ptrdiffMax ∧ (s.last = -1 ∨ 0 ≤ s.last ∧ s.last ≤ s.pos))
    ⟨Nat.zero_le _, Or.inr ⟨Int.le_refl 0, Int.le_refl 0⟩⟩ (fun _ s ih => ?_) n
  obtain ⟨-, h⟩ | ⟨-, -, h⟩ | ⟨-, -, -, ⟨offered, -, h⟩ | ⟨_, -, h⟩⟩ := step_cases ask os s <;> rw [h]
  · exact ih
  · exact ih
  · have hgranted : granted (ask s.left) s.pos offered ≤ ptrdiffMax - s.pos :=
      Nat.le_trans (Nat.min_le_right ..) (Nat.min_le_right ..)
    have hpos := ih.1
    unfold Transfer.moved
    dsimp only
    omega
  · exact ⟨ih.1, Or.inl rfl⟩

/-- While the loop goes on, each round made a call, and the failures in a row are counted. -/
structure Counted (os : Replies ℕ) (n : ℕ) (s : Transfer) : Prop where
  calls : s.calls.length = n
  tries : s.tries = streak os n
  failed : 0 < s.tries → s.last = -1

theorem counted_start : Counted os 0 (Transfer.start nbytes) :=
  ⟨rfl, rfl, fun h => absurd h (Nat.lt_irrefl 0)⟩

theorem Counted.moved {request offered m : ℕ} (h : Counted os n s) (hos : os n = .ok offered) :
    Counted os (n + 1) (s.moved request m) := by
  refine ⟨?_, ?_, fun hpos => absurd hpos (Nat.lt_irrefl 0)⟩
  · unfold Transfer.moved
    rw [List.length_append, h.calls]
    rfl
  · unfold Transfer.moved streak
    rw [hos]

theorem Counted.failed_again {request : ℕ} {e : Errno} (h : Counted os n s) (hos : os n = .error e)
    (he : e.temporary = true) : Counted os (n + 1) (s.failed request e) := by
  refine ⟨?_, ?_, fun _ => rfl⟩
  · unfold Transfer.failed
    rw [List.length_append, h.calls]
    rfl
  · unfold Transfer.failed streak
    rw [hos]
    dsimp only
    rw [if_pos he, if_pos he, h.tries]

/-! ## One call that does everything -/

/-- The calls so far moved nothing. -/
structure Fruitless (ask : ℤ → ℕ) (os : Replies ℕ) (nbytes n : ℕ) (s : Transfer) : Prop where
  opened : s.ended = false
  counted : Counted os n s
  left : s.left = toInt32 nbytes
  pos : s.pos = 0
  calls : ∀ c ∈ s.calls, c.pos = 0 ∧ c.request = ask (toInt32 nbytes) ∧ c.result.getD 0 = 0

theorem fruitless_start : Fruitless ask os nbytes 0 (Transfer.start nbytes) where
  opened := rfl
  counted := counted_start
  left := rfl
  pos := rfl
  calls := fun _ hc => absurd hc List.not_mem_nil

theorem granted_zero (request pos : ℕ) : granted request pos 0 = 0 := Nat.zero_min _

theorem toInt32_toInt32 (z : ℤ) : toInt32 (toInt32 z) = toInt32 z := by
  unfold toInt32
  exact Int.bmod_bmod

/-- A round in which a call is made that is tried again. -/
theorem Fruitless.idle (h : Fruitless ask os nbytes n s) (hleft : 0 < toInt32 nbytes)
    (htries : streak os n ≠ maxTries) (hidle : Idle (os n)) : Fruitless ask os nbytes (n + 1) (s.step ask os) := by
  rw [step_call _ _ h.opened (h.left ▸ hleft) (by rw [h.counted.tries]; exact htries), h.counted.calls]
  have hcalls : ∀ r : Option ℕ, r.getD 0 = 0 → ∀ c ∈ s.calls ++ [⟨s.pos, ask s.left, r⟩],
      c.pos = 0 ∧ c.request = ask (toInt32 nbytes) ∧ c.result.getD 0 = 0 := by
    intro r hr c hc
    rcases List.mem_append.1 hc with hc | hc
    · exact h.calls c hc
    · rw [List.mem_singleton.1 hc]
      exact ⟨h.pos, by rw [h.left], hr⟩
  -- a call that moves nothing sets `tries` back, one that fails for the time being counts it
  cases hos : os n with
  | ok offered =>
    rw [hos] at hidle
    obtain rfl : offered = 0 := hidle
    dsimp only
    rw [granted_zero]
    refine ⟨rfl, h.counted.moved hos, ?_, h.pos, hcalls (some 0) rfl⟩
    unfold Transfer.moved
    rw [Int.ofNat_zero, Int.sub_zero, h.left, toInt32_toInt32]
  | error e =>
    rw [hos] at hidle
    exact ⟨congrArg (! ·) hidle, h.counted.failed_again hos hidle, h.left, h.pos, hcalls none rfl⟩

/-- The calls of a run before the one that does everything. -/
theorem fruitless_run (ask : ℤ → ℕ) {j : ℕ} (hleft : 0 < toInt32 nbytes) (hidle : ∀ i < j, Idle (os i))
    (htries : ∀ i ≤ j, streak os i ≠ maxTries) :
    ∀ i ≤ j, Fruitless ask os nbytes i (Transfer.run ask os nbytes i) := by
  intro i
  induction i with
  | zero => exact fun _ => fruitless_start
  | succ i ih =>
    intro hi
    rw [run_succ]
    exact (ih (by omega)).idle hleft (htries i (by omega)) (hidle i hi)

/-- The state a run ends in when one call does everything. -/
structure Done (ask : ℤ → ℕ) (nbytes : ℕ) (s : Transfer) : Prop where
  ended : s.ended = true
  last : s.last = s.pos
  left : s.left ≤ 0
  calls : ∀ c ∈ s.calls, c.pos = 0 ∧ c.request = ask (toInt32 nbytes)

/-- **One call does everything**: the run ends, and returns what was moved. -/
theorem atOnce_run (hleft : 0 < toInt32 nbytes) (h : AtOnce ask os (toInt32 nbytes)) :
    ∃ j, (∀ i ≤ j, Fruitless ask os nbytes i (Transfer.run ask os nbytes i)) ∧
      (∀ c ∈ (Transfer.run ask os nbytes (j + 1)).calls, c.pos = 0 ∧ c.request = ask (toInt32 nbytes)) ∧
      Done ask nbytes (Transfer.run ask os nbytes (j + 2)) := by
  obtain ⟨j, offered, hidle, htries, hos, -, hfinish⟩ := h
  have hrun := fruitless_run ask hleft hidle htries
  have hj := hrun j (Nat.le_refl j)
  -- nothing was moved before call `j`, so it asks for everything from the start of the buffer
  have hnext : Transfer.run ask os nbytes (j + 1) = (Transfer.run ask os nbytes j).moved (ask (toInt32 nbytes))
      (granted (ask (toInt32 nbytes)) 0 offered) := by
    rw [run_succ, step_call _ _ hj.opened (hj.left ▸ hleft) (by rw [hj.counted.tries]; exact htries j (Nat.le_refl j)),
      hj.counted.calls, hos]
    dsimp only
    rw [hj.left, hj.pos]
  have hcalls : ∀ c ∈ (Transfer.run ask os nbytes (j + 1)).calls, c.pos = 0 ∧ c.request = ask (toInt32 nbytes) := by
    intro c hc
    rw [hnext] at hc
    rcases List.mem_append.1 hc with hc | hc
    · obtain ⟨hpos, hrequest, -⟩ := hj.calls c hc
      exact ⟨hpos, hrequest⟩
    · rw [List.mem_singleton.1 hc]
      exact ⟨hj.pos, rfl⟩
  have hleft' : (Transfer.run ask os nbytes (j + 1)).left ≤ 0 := by
    rw [hnext]
    unfold Transfer.moved
    rw [hj.left]
    exact hfinish
  refine ⟨j, hrun, hcalls, ?_⟩
  rw [run_succ, step_leave (by rw [hnext]; rfl) (Or.inl hleft')]
  refine ⟨rfl, ?_, hleft', hcalls⟩
  rw [hnext]
  unfold Transfer.moved
  rw [hj.pos, Nat.zero_add]

/-! ## The number returned -/

/-- A run in which no call does everything: nothing was moved so far, or the loop goes on after some bytes were moved,
or it has moved more than the last call did, or it was given up. -/
def Behind (ask : ℤ → ℕ) (os : Replies ℕ) (nbytes n : ℕ) (s : Transfer) : Prop :=
  (Fruitless ask os nbytes n s ∧ (∀ i < n, Idle (os i)) ∧ ∀ i < n, streak os i ≠ maxTries) ∨
  (s.ended = false ∧ 0 < s.pos ∧ 0 < s.left ∧ (0 < s.tries → s.last = -1)) ∨
  (s.left ≤ 0 ∧ s.last < s.pos) ∨
  (s.ended = true ∧ s.last = -1)

theorem behind_start : Behind ask os nbytes 0 (Transfer.start nbytes) :=
  Or.inl ⟨fruitless_start, fun _ h => absurd h (Nat.not_lt_zero _), fun _ h => absurd h (Nat.not_lt_zero _)⟩

/-- A call that moves bytes without doing everything. -/
theorem behind_moved {request m : ℕ} (hbehind : 0 < s.pos + m) (hpart : 0 < toInt32 (s.left - m) ∨ 0 < s.pos) :
    Behind ask os nbytes n (s.moved request m) := by
  by_cases hend : toInt32 (s.left - m) ≤ 0
  · have hpos : 0 < s.pos := hpart.resolve_left (by omega)
    refine Or.inr (Or.inr (Or.inl ⟨hend, ?_⟩))
    unfold Transfer.moved
    dsimp only
    omega
  · exact Or.inr (Or.inl ⟨rfl, hbehind, Int.not_le.mp hend, fun h => absurd h (Nat.lt_irrefl 0)⟩)

theorem granted_pos {request offered : ℕ} (hrequest : 0 < request) (hoffered : 0 < offered) :
    0 < granted request 0 offered := by
  have hmax : 0 < ptrdiffMax - 0 := by decide
  exact Nat.lt_min.mpr ⟨hoffered, Nat.lt_min.mpr ⟨hrequest, hmax⟩⟩

theorem behind_step (hleft : 0 < toInt32 nbytes) (hask : 0 < ask (toInt32 nbytes))
    (hnot : ¬ AtOnce ask os (toInt32 nbytes)) (h : Behind ask os nbytes n s) :
    Behind ask os nbytes (n + 1) (s.step ask os) := by
  rcases h with ⟨hfruitless, hidle, htries⟩ | ⟨hopen, hpos, hgoes, hfailed⟩ | ⟨hended, hlast⟩ | ⟨hover, hlast⟩
  · -- nothing was moved so far
    have hcounted := hfruitless.counted
    by_cases hten : streak os n = maxTries
    · rw [step_leave hfruitless.opened (Or.inr (hcounted.tries.trans hten))]
      refine Or.inr (Or.inr (Or.inr ⟨rfl, hcounted.failed ?_⟩))
      rw [hcounted.tries, hten]
      decide
    have htries' : ∀ i < n + 1, streak os i ≠ maxTries := fun i hi =>
      (Nat.lt_succ_iff_lt_or_eq.mp hi).elim (htries i) (fun h => h ▸ hten)
    by_cases hidle_n : Idle (os n)
    · exact Or.inl ⟨hfruitless.idle hleft hten hidle_n, fun i hi =>
        (Nat.lt_succ_iff_lt_or_eq.mp hi).elim (hidle i) (fun h => h ▸ hidle_n), htries'⟩
    · rw [step_call _ _ hfruitless.opened (hfruitless.left ▸ hleft) (by rw [hcounted.tries]; exact hten), hcounted.calls]
      cases hos : os n with
      | ok offered =>
        rw [hos] at hidle_n
        have hgranted := granted_pos hask (Nat.pos_of_ne_zero hidle_n)
        dsimp only
        rw [hfruitless.left, hfruitless.pos]
        refine behind_moved (by omega) (Or.inl (Int.not_le.mp fun hfinish => hnot ?_))
        rw [hfruitless.left] at hfinish
        exact ⟨n, offered, hidle, fun i hi => htries' i (Nat.lt_succ_of_le hi), hos, hgranted, hfinish⟩
      | error e =>
        rw [hos] at hidle_n
        exact Or.inr (Or.inr (Or.inr ⟨by rw [failed_over, Bool.eq_false_iff.mpr hidle_n]; rfl, rfl⟩))
  · -- some bytes were moved, and the next call cannot have moved them all
    obtain ⟨hover, -⟩ | ⟨-, hleave, h⟩ | ⟨-, -, -, ⟨_, -, h⟩ | ⟨e, -, h⟩⟩ := step_cases ask os s
    · rw [hopen] at hover
      exact absurd hover Bool.false_ne_true
    · rw [h]
      have hten : s.tries = maxTries := hleave.resolve_left (Int.not_le.mpr hgoes)
      exact Or.inr (Or.inr (Or.inr ⟨rfl, hfailed (hten ▸ by decide)⟩))
    · rw [h]
      exact behind_moved (by omega) (Or.inr hpos)
    · rw [h]
      cases he : e.temporary with
      | true => exact Or.inr (Or.inl ⟨by rw [failed_over, he]; rfl, hpos, hgoes, fun _ => rfl⟩)
      | false => exact Or.inr (Or.inr (Or.inr ⟨by rw [failed_over, he]; rfl, rfl⟩))
  · -- nothing is left, and the last call moved less than all of them
    refine Or.inr (Or.inr (Or.inl ?_))
    cases hover : s.ended with
    | true =>
      rw [step_over hover]
      exact ⟨hended, hlast⟩
    | false =>
      rw [step_leave hover (Or.inl hended)]
      exact ⟨hended, hlast⟩
  · -- it was given up
    rw [step_over hover]
    exact Or.inr (Or.inr (Or.inr ⟨hover, hlast⟩))

/-- **The number returned** is that of the bytes moved when one call does everything, and then only. -/
theorem returns_total_iff (hleft : 0 < toInt32 nbytes) (hask : 0 < ask (toInt32 nbytes)) :
    (∃ n, (Transfer.run ask os nbytes n).ended = true ∧
      (Transfer.run ask os nbytes n).last = (Transfer.run ask os nbytes n).pos) ↔
    AtOnce ask os (toInt32 nbytes) := by
  constructor
  · rintro ⟨n, hover, hlast⟩
    by_contra hnot
    obtain ⟨h, -, -⟩ | ⟨hopen, -⟩ | ⟨-, h⟩ | ⟨-, h⟩ :=
      run_induction (P := Behind ask os nbytes) behind_start (fun n s => behind_step hleft hask hnot) n
    · rw [h.opened] at hover
      exact absurd hover Bool.false_ne_true
    · rw [hopen] at hover
      exact absurd hover Bool.false_ne_true
    · omega
    · omega
  · intro h
    obtain ⟨j, -, -, hdone⟩ := atOnce_run hleft h
    exact ⟨j + 2, hdone.ended, hdone.last⟩

/-- Nothing is left from the start: no call is made, and nothing was moved. -/
theorem run_nothing (hleft : toInt32 nbytes ≤ 0) :
    Transfer.run ask os nbytes 1 = { Transfer.start nbytes with ended := true } := by
  rw [run_succ, run_zero, step_leave rfl (Or.inl hleft)]

end Libtarp.IoUtils
