import Libtarp.IoUtils.Send

/-!
# `try_read` (`ioutils.c`)

Every call asks for as many bytes as the whole buffer holds, and the end of the file is taken for a read that went well.

* `read_contiguous`: the bytes read are stored one after the other from the start of the buffer.
* `tryRead_iff`: the loop ends at the end of the file, asks for no more than there is room for and returns the number of
  bytes read if there is nothing to read or one call reads everything.
-/

namespace Libtarp.IoUtils

open Lib

/-- How many bytes the system has for a call. -/
def available (reads : Replies (List UInt8)) : Replies ℕ := fun i => (reads i).map List.length

/-- The loop of `try_read`: `read(src, buff, buffsz)`. -/
def readRun (reads : Replies (List UInt8)) (buffsz rounds : ℕ) : Transfer :=
  Transfer.run (fun _ => buffsz) (available reads) buffsz rounds

/-- The bytes a call read. -/
def bytesOf (reads : Replies (List UInt8)) (c : Attempt × ℕ) : List UInt8 :=
  ((reads c.2).toOption.getD []).take (c.1.result.getD 0)

/-- The bytes the calls read, one after the other. -/
def readBy (reads : Replies (List UInt8)) (calls : List Attempt) : List UInt8 := calls.zipIdx.flatMap (bytesOf reads)

/-- The memory from the buffer on after the calls, each of which stores at its position what it read. -/
def storedBy (reads : Replies (List UInt8)) (buff : List UInt8) (calls : List Attempt) : List UInt8 :=
  calls.zipIdx.foldl (fun mem c => store mem c.1.pos (bytesOf reads c)) buff

/-- What `try_read` returned, the memory from the buffer on, and the bytes that were read. -/
structure Filled where
  returned : ℤ
  buff : List UInt8
  bytes : List UInt8
  deriving DecidableEq, Repr

/-- `try_read`; no buffer is a null pointer. -/
def tryRead (src : ℤ) (buff : Option (List UInt8)) (buffsz : ℕ) (reads : Replies (List UInt8)) (rounds : ℕ) :
    Except Fault Filled :=
  match buff with
  | none => .error .assertion
  | some buff =>
    if src ≤ 0 ∨ buffsz = 0 then .error .assertion
    else
      let s := readRun reads buffsz rounds
      if s.ended = true then .ok ⟨s.last, storedBy reads buff s.calls, readBy reads s.calls⟩ else .error .rounds

/-- No call asks for bytes beyond the buffer; the loop ends if the end of the file is reported; what was read is stored
in order from the start of the buffer; and the number of bytes read is returned. -/
structure ReadRight (src : ℤ) (buff : List UInt8) (buffsz : ℕ) (reads : Replies (List UInt8)) : Prop where
  inside : ∀ rounds, ∀ c ∈ (readRun reads buffsz rounds).calls, c.pos + c.request ≤ buffsz
  ends : ∀ rounds, (∃ i < (readRun reads buffsz rounds).calls.length, reads i = .ok []) →
    ∃ more filled, tryRead src (some buff) buffsz reads more = .ok filled
  contiguous : ∀ rounds, storedBy reads buff (readRun reads buffsz rounds).calls =
    readBy reads (readRun reads buffsz rounds).calls ++
      buff.drop (readBy reads (readRun reads buffsz rounds).calls).length
  returned : ∀ rounds filled, tryRead src (some buff) buffsz reads rounds = .ok filled →
    filled.returned = filled.bytes.length

/-- There is nothing to read, or the first call that reads anything leaves nothing to be read. -/
def ReadCond (buffsz : ℕ) (reads : Replies (List UInt8)) : Prop :=
  toInt32 buffsz ≤ 0 ∨ AtOnce (fun _ => buffsz) (available reads) (toInt32 buffsz)

variable {src : ℤ} {buff : List UInt8} {buffsz n : ℕ} {reads : Replies (List UInt8)} {s : Transfer}

/-! ## What is stored -/

theorem available_ok {i offered : ℕ} (h : available reads i = .ok offered) :
    ∃ data, reads i = .ok data ∧ data.length = offered := by
  unfold available at h
  cases hread : reads i with
  | error e =>
    rw [hread] at h
    cases h
  | ok data =>
    rw [hread] at h
    exact ⟨data, rfl, Except.ok.inj h⟩

theorem readBy_append (calls : List Attempt) (c : Attempt) :
    readBy reads (calls ++ [c]) = readBy reads calls ++ bytesOf reads (c, calls.length) := by
  unfold readBy
  rw [List.zipIdx_append, List.flatMap_append, Nat.zero_add]
  exact congrArg _ (List.flatMap_singleton ..)

theorem storedBy_append (calls : List Attempt) (c : Attempt) : storedBy reads buff (calls ++ [c]) =
    store (storedBy reads buff calls) c.pos (bytesOf reads (c, calls.length)) := by
  unfold storedBy
  rw [List.zipIdx_append, List.foldl_append, Nat.zero_add]
  rfl

/-- **What is stored**: the bytes read so far, one after the other, as many as the pointer was moved by. -/
theorem read_contiguous (reads : Replies (List UInt8)) (buff : List UInt8) (buffsz n : ℕ) :
    (readBy reads (readRun reads buffsz n).calls).length = (readRun reads buffsz n).pos ∧
    storedBy reads buff (readRun reads buffsz n).calls =
      readBy reads (readRun reads buffsz n).calls ++
        buff.drop (readBy reads (readRun reads buffsz n).calls).length := by
  refine run_induction (P := fun _ s => (readBy reads s.calls).length = s.pos ∧
    storedBy reads buff s.calls = readBy reads s.calls ++ buff.drop (readBy reads s.calls).length)
    ⟨rfl, rfl⟩ (fun _ s ih => ?_) n
  obtain ⟨hlength, hstored⟩ := ih
  have hcall : ∀ request result, (bytesOf reads (⟨s.pos, request, result⟩, s.calls.length)).length = result.getD 0 →
      (readBy reads (s.calls ++ [⟨s.pos, request, result⟩])).length = s.pos + result.getD 0 ∧
      storedBy reads buff (s.calls ++ [⟨s.pos, request, result⟩]) =
        readBy reads (s.calls ++ [⟨s.pos, request, result⟩]) ++
          buff.drop (readBy reads (s.calls ++ [⟨s.pos, request, result⟩])).length := by
    intro request result hbytes
    rw [readBy_append, storedBy_append, List.length_append, hlength, hbytes]
    refine ⟨rfl, ?_⟩
    dsimp only
    rw [hstored, ← hlength, store_next, List.length_append, hlength, hbytes]
  obtain ⟨-, h⟩ | ⟨-, -, h⟩ | ⟨-, -, -, ⟨offered, hos, h⟩ | ⟨_, -, h⟩⟩ :=
    step_cases (fun _ => buffsz) (available reads) s <;> rw [h]
  · exact ⟨hlength, hstored⟩
  · exact ⟨hlength, hstored⟩
  · refine hcall buffsz (some (granted buffsz s.pos offered)) ?_
    obtain ⟨data, hdata, hlen⟩ := available_ok hos
    unfold bytesOf
    rw [hdata]
    refine List.length_take_of_le ?_
    rw [Except.toOption, Option.getD_some, Option.getD_some, hlen]
    exact Nat.min_le_left ..
  · exact hcall buffsz none (List.length_eq_zero_iff.mpr List.take_zero)

/-! ## The end of the loop -/

theorem tryRead_ok {filled : Filled} (h : tryRead src (some buff) buffsz reads n = .ok filled) :
    (readRun reads buffsz n).ended = true ∧ filled.returned = (readRun reads buffsz n).last ∧
      filled.bytes.length = (readRun reads buffsz n).pos := by
  unfold tryRead at h
  dsimp only at h
  split_ifs at h with hassert hover
  obtain rfl := Except.ok.inj h
  exact ⟨hover, rfl, (read_contiguous reads buff buffsz n).1⟩

/-- The assertion on the descriptor held. -/
theorem tryRead_src {filled : Filled} (h : tryRead src (some buff) buffsz reads n = .ok filled) : 0 < src := by
  unfold tryRead at h
  dsimp only at h
  split_ifs at h with hassert hover
  omega

theorem tryRead_over (buff : List UInt8) (hsrc : 0 < src) (hbuffsz : 0 < buffsz)
    (hover : (readRun reads buffsz n).ended = true) : ∃ filled, tryRead src (some buff) buffsz reads n = .ok filled := by
  unfold tryRead
  exact ⟨_, (if_neg (by omega)).trans (if_pos hover)⟩

/-- A call that fails for the time being every time is given up. -/
theorem streak_all {os : Replies ℕ} (h : ∀ i < n, ∃ e : Errno, os i = .error e ∧ e.temporary = true) :
    streak os n = n := by
  induction n with
  | zero => rfl
  | succ n ih =>
    obtain ⟨e, he, htemporary⟩ := h n (Nat.lt_succ_self n)
    unfold streak
    rw [he]
    dsimp only
    rw [if_pos htemporary, ih fun i hi => h i (Nat.lt_succ_of_lt hi)]

theorem readRun_succ : readRun reads buffsz (n + 1) = (readRun reads buffsz n).step (fun _ => buffsz) (available reads) :=
  run_succ

/-- A loop that goes on for ever comes to the end of the file, or asks for bytes beyond the buffer. -/
theorem read_ends (hleft : 0 < toInt32 buffsz) (hbuffsz : 0 < buffsz)
    (hnot : ¬ AtOnce (fun _ => buffsz) (available reads) (toInt32 buffsz))
    (hinside : ∀ rounds, ∀ c ∈ (readRun reads buffsz rounds).calls, c.pos + c.request ≤ buffsz)
    (hfile : ∀ rounds, ∀ i < (readRun reads buffsz rounds).calls.length, reads i ≠ .ok []) :
    ∃ n, (readRun reads buffsz n).ended = true := by
  by_contra hgoes
  simp only [not_exists, Bool.not_eq_true] at hgoes
  have hbehind : ∀ n, Behind (fun _ => buffsz) (available reads) buffsz n (readRun reads buffsz n) :=
    run_induction behind_start fun n s => behind_step hleft hbuffsz hnot
  have hfruitless : ∀ n, Fruitless (fun _ => buffsz) (available reads) buffsz n (readRun reads buffsz n) ∧
      (∀ i < n, Idle (available reads i)) ∧ ∀ i < n, streak (available reads) i ≠ maxTries := by
    intro n
    obtain h | ⟨hopen, hpos, -, -⟩ | ⟨hended, -⟩ | ⟨hover, -⟩ := hbehind n
    · exact h
    · -- the next call asks for more than there is room for behind what was read
      have hcall : ∃ result, ⟨(readRun reads buffsz n).pos, buffsz, result⟩ ∈ (readRun reads buffsz (n + 1)).calls := by
        have hnext := hgoes (n + 1)
        rw [readRun_succ] at hnext ⊢
        obtain ⟨hover, -⟩ | ⟨-, -, h⟩ | ⟨-, -, -, ⟨_, -, h⟩ | ⟨_, -, h⟩⟩ :=
          step_cases (fun _ => buffsz) (available reads) (readRun reads buffsz n)
        · rw [hopen] at hover
          exact absurd hover Bool.false_ne_true
        · rw [h] at hnext
          exact absurd hnext Bool.true_eq_false.mp
        · rw [h]
          exact ⟨_, List.mem_append_right _ (List.mem_singleton_self _)⟩
        · rw [h]
          exact ⟨_, List.mem_append_right _ (List.mem_singleton_self _)⟩
      obtain ⟨result, hmem⟩ := hcall
      have hle := hinside (n + 1) _ hmem
      dsimp only at hle
      omega
    · have hnext := hgoes (n + 1)
      rw [readRun_succ, step_leave (hgoes n) (Or.inl hended)] at hnext
      exact absurd hnext Bool.true_eq_false.mp
    · rw [hgoes n] at hover
      exact absurd hover Bool.false_ne_true
  -- so every call fails for the time being, and the tenth ends the loop
  have hfailed : ∀ i < 10, ∃ e : Errno, available reads i = .error e ∧ e.temporary = true := by
    intro i hi
    have hidle := (hfruitless 11).2.1 i (by omega)
    have hcalls := (hfruitless 11).1.counted.calls
    cases hos : available reads i with
    | error e =>
      rw [hos] at hidle
      exact ⟨e, rfl, hidle⟩
    | ok offered =>
      rw [hos] at hidle
      obtain rfl : offered = 0 := hidle
      obtain ⟨data, hdata, hlen⟩ := available_ok hos
      obtain rfl := List.length_eq_zero_iff.mp hlen
      exact absurd hdata (hfile 11 i (by omega))
  exact (hfruitless 11).2.2 10 (by omega) (streak_all hfailed)

/-- One call reads everything, or none is made: every call asks for what there is room for. -/
theorem read_done (hcond : ReadCond buffsz reads) : ∃ n, Done (fun _ => buffsz) buffsz (readRun reads buffsz n) ∧
    ∀ rounds, ∀ c ∈ (readRun reads buffsz rounds).calls, c.pos = 0 ∧ c.request = buffsz := by
  by_cases hleft : toInt32 buffsz ≤ 0
  · have hone : readRun reads buffsz 1 = { Transfer.start buffsz with ended := true } := run_nothing hleft
    have hdone : Done (fun _ => buffsz) buffsz (readRun reads buffsz 1) := by
      rw [hone]
      exact ⟨rfl, rfl, hleft, fun c hc => absurd hc List.not_mem_nil⟩
    refine ⟨1, hdone, fun rounds c hc => ?_⟩
    rcases Nat.eq_zero_or_pos rounds with rfl | hpos
    · exact absurd hc List.not_mem_nil
    · rw [show readRun reads buffsz rounds = readRun reads buffsz 1 from run_over hdone.ended hpos] at hc
      exact hdone.calls c hc
  · obtain ⟨j, hfruitless, hlast, hdone⟩ := atOnce_run (Int.not_le.mp hleft) (hcond.resolve_left hleft)
    refine ⟨j + 2, hdone, fun rounds c hc => ?_⟩
    rcases Nat.lt_or_ge j rounds with hlt | hle
    · rcases Nat.eq_or_lt_of_le hlt with rfl | hlt'
      · exact hlast c hc
      · rw [show readRun reads buffsz rounds = readRun reads buffsz (j + 2) from run_over hdone.ended hlt'] at hc
        exact hdone.calls c hc
    · obtain ⟨hpos, hrequest, -⟩ := (hfruitless rounds hle).calls c hc
      exact ⟨hpos, hrequest⟩

/-- The number returned is that of the bytes read. -/
theorem read_count_iff (hbuffsz : 0 < buffsz) : (∃ n, (readRun reads buffsz n).ended = true ∧
    (readRun reads buffsz n).last = (readRun reads buffsz n).pos) ↔ ReadCond buffsz reads := by
  constructor
  · rintro ⟨n, hover, hlast⟩
    by_cases hleft : toInt32 buffsz ≤ 0
    · exact Or.inl hleft
    · exact Or.inr ((returns_total_iff (Int.not_le.mp hleft) hbuffsz).mp ⟨n, hover, hlast⟩)
  · intro hcond
    obtain ⟨n, hdone, -⟩ := read_done hcond
    exact ⟨n, hdone.ended, hdone.last⟩

/-- **When `try_read` is right**: if there is nothing to read or one call reads everything, and then only. -/
theorem tryRead_iff (hsrc : 0 < src) (hbuffsz : 0 < buffsz) :
    ReadRight src buff buffsz reads ↔ ReadCond buffsz reads := by
  constructor
  · intro hright
    by_contra hcond
    obtain ⟨hleft, hnot⟩ := not_or.mp hcond
    have hover : ∃ n, (readRun reads buffsz n).ended = true := by
      by_cases hfile : ∃ rounds, ∃ i < (readRun reads buffsz rounds).calls.length, reads i = .ok []
      · obtain ⟨rounds, hreported⟩ := hfile
        obtain ⟨more, filled, hfilled⟩ := hright.ends rounds hreported
        exact ⟨more, (tryRead_ok hfilled).1⟩
      · exact read_ends (Int.not_le.mp hleft) hbuffsz hnot hright.inside fun rounds i hi hread =>
          hfile ⟨rounds, i, hi, hread⟩
    obtain ⟨n, hover⟩ := hover
    obtain ⟨filled, hfilled⟩ := tryRead_over buff hsrc hbuffsz hover
    obtain ⟨-, hreturned, hlength⟩ := tryRead_ok hfilled
    have hlast := hright.returned n filled hfilled
    rw [hreturned, hlength] at hlast
    exact hcond ((read_count_iff hbuffsz).mp ⟨n, hover, hlast⟩)
  · intro hcond
    obtain ⟨n, hdone, hcalls⟩ := read_done hcond
    refine ⟨fun rounds c hc => ?_, fun rounds _ => ⟨n, tryRead_over buff hsrc hbuffsz hdone.ended⟩,
      fun rounds => (read_contiguous ..).2, fun rounds filled hfilled => ?_⟩
    · obtain ⟨hpos, hrequest⟩ := hcalls rounds c hc
      omega
    · obtain ⟨hover, hreturned, hlength⟩ := tryRead_ok hfilled
      have hsame : readRun reads buffsz rounds = readRun reads buffsz n := run_over_unique hover hdone.ended
      rw [hreturned, hlength, hsame]
      exact hdone.last

end Libtarp.IoUtils
