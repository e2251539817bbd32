import Libtarp.ByteBuffer.Buffer
import Libtarp.Lib.Run
import Mathlib.Logic.Function.Basic

/-!
# Runs of calls on byte buffers

* `Call`, `exec`: the calls on some buffers, which are empty at first.
* `specify`: what the calls do to tapes, and return.
* `tapes_iff`: the buffers are tapes in the runs that call `from_fd` on empty buffers, for no more than its count can
  count, copy from buffers at their start, and skip no further than a `size_t` can count. No skip of any size takes an
  offset out of its buffer.
-/

namespace Libtarp.ByteBuffer

open Lib

variable {ι : Type} [DecidableEq ι]

/-- The calls, on buffers named by `ι`. -/
inductive Call (ι : Type)
  | push (i : ι) (bytes : Option (List UInt8))
  | get (i : ι) (n : ℕ+) (advance : Bool)
  | getByte (i : ι) (advance : Bool)
  | skip (i : ι) (nbytes : BitVec 64)
  | unwind (i : ι) (nbytes : BitVec 64)
  | truncate (i : ι)
  | reset (i : ι)
  | clear (i : ι)
  | fromFd (i : ι) (fd : ℤ) (numBytes : BitVec 32) (outcomes : List (Option (List UInt8)))
  | copy (dst src : ι)
  | copyAssign (dst src : ι)
  | move (dst src : ι)
  | moveAssign (dst src : ι)

/-- What a call returns. -/
inductive Reply
  | done
  | value (bytes : Option (List UInt8))
  | byte (b : UInt8)
  deriving DecidableEq

/-- The calls on the buffers. -/
def exec (c : Call ι) (w : ι → Buffer) : Except Thrown ((ι → Buffer) × Reply) :=
  match c with
  | .push i bytes =>
    match (w i).push bytes with
    | .error e => .error e
    | .ok b => .ok (Function.update w i b, .done)
  | .get i n advance =>
    match (w i).get n advance with
    | .error e => .error e
    | .ok (b, ret) => .ok (Function.update w i b, .value ret)
  | .getByte i advance =>
    let (b, ret) := (w i).getByte advance
    .ok (Function.update w i b, .byte ret)
  | .skip i nbytes => .ok (Function.update w i ((w i).skip nbytes), .done)
  | .unwind i nbytes => .ok (Function.update w i ((w i).unwind nbytes), .done)
  | .truncate i => .ok (Function.update w i (w i).truncate, .done)
  | .reset i => .ok (Function.update w i (w i).reset, .done)
  | .clear i => .ok (Function.update w i (w i).clear, .done)
  | .fromFd i fd numBytes outcomes => .ok (Function.update w i ((w i).fromFd fd numBytes outcomes), .done)
  | .copy dst src => .ok (Function.update w dst (w src).copy, .done)
  | .copyAssign dst src => .ok (if src ≠ dst then Function.update w dst (w src).copy else w, .done)
  | .move dst src | .moveAssign dst src =>
    .ok (Function.update (Function.update w src Buffer.empty) dst (w src), .done)

/-- The calls on tapes. -/
def specify (c : Call ι) (t : ι → Tape) : (ι → Tape) × Reply :=
  match c with
  | .push i bytes => (Function.update t i ((t i).push (bytes.getD [])), .done)
  | .get i n advance =>
    (Function.update t i (if advance ∧ ((t i).next n).isSome then (t i).forward n else t i), .value ((t i).next n))
  | .getByte i advance =>
    (Function.update t i (if advance then (t i).forward 1 else t i), .byte ((t i).unread.headD 0))
  | .skip i nbytes => (Function.update t i ((t i).forward nbytes.toNat), .done)
  | .unwind i nbytes => (Function.update t i ((t i).back nbytes.toNat), .done)
  | .truncate i => (Function.update t i (t i).cut, .done)
  | .reset i => (Function.update t i (t i).rewind, .done)
  | .clear i => (Function.update t i ⟨[], []⟩, .done)
  | .fromFd i fd numBytes outcomes =>
    (Function.update t i (if fd < 0 then t i else (t i).push (received numBytes outcomes)), .done)
  | .copy dst src | .copyAssign dst src => (Function.update t dst (t src), .done)
  | .move dst src | .moveAssign dst src => (Function.update (Function.update t src ⟨[], []⟩) dst (t src), .done)

/-- The tapes of the buffers. -/
def tapes (w : ι → Buffer) (i : ι) : Tape := (w i).tape

/-- No offset exceeds the size of its buffer. -/
def AllFit (w : ι → Buffer) : Prop := ∀ i, (w i).Fit

/-- The call ends as it does on tapes, with every offset in its buffer.  A null pointer fails the assertion. -/
def Right (c : Call ι) (w : ι → Buffer) (out : Except Thrown ((ι → Buffer) × Reply)) : Prop :=
  match c with
  | .push _ none => out = .error .assertion
  | c => ∃ w' r, out = .ok (w', r) ∧ AllFit w' ∧ specify c (tapes w) = (tapes w', r)

/-- The call ends with every offset in its buffer, and a typed get returns the next bytes if there are so many. -/
def Bounded (c : Call ι) (w : ι → Buffer) (out : Except Thrown ((ι → Buffer) × Reply)) : Prop :=
  match c with
  | .push _ none => out = .error .assertion
  | .get i n _ => ∃ w', out = .ok (w', .value ((w i).tape.next n)) ∧ AllFit w'
  | _ => ∃ w' r, out = .ok (w', r) ∧ AllFit w'

/-- `from_fd` reads into an empty buffer, and copies are made of buffers at their start. -/
def Fresh (c : Call ι) (w : ι → Buffer) : Prop :=
  match c with
  | .fromFd i fd _ _ => fd < 0 ∨ (w i).buff = []
  | .copy _ src => (w src).offset = 0
  | .copyAssign dst src => src = dst ∨ (w src).offset = 0
  | _ => True

/-- Besides, a skip does not count beyond a `size_t`, and reads without a limit give no more bytes than it takes the
count to come round to 0. -/
def Admitted (c : Call ι) (w : ι → Buffer) : Prop :=
  match c with
  | .skip i nbytes => (w i).offset + nbytes.toNat < 2 ^ 64
  | .fromFd i fd numBytes outcomes => fd < 0 ∨
      (w i).buff = [] ∧ (numBytes.slt 0#32 = true → (given outcomes).length ≤ numBytes.toNat)
  | c => Fresh c w

variable {w : ι → Buffer} {c : Call ι}

/-! ## A call -/

theorem allFit_update {i : ι} {b : Buffer} (h : AllFit w) (hb : b.Fit) : AllFit (Function.update w i b) := by
  intro j
  by_cases hj : j = i
  · rw [hj, Function.update_self]
    exact hb
  · rw [Function.update_of_ne hj]
    exact h j

theorem tapes_update (w : ι → Buffer) (i : ι) (b : Buffer) :
    tapes (Function.update w i b) = Function.update (tapes w) i b.tape := by
  funext j
  unfold tapes
  by_cases hj : j = i
  · rw [hj, Function.update_self, Function.update_self]
  · rw [Function.update_of_ne hj, Function.update_of_ne hj]

/-- A call that changes one buffer is right if it does with it what is done with its tape. -/
theorem update_iff {i : ι} {b : Buffer} {t : Tape} {r : Reply} (h : AllFit w) :
    (∃ w' r', (Except.ok (Function.update w i b, r) : Except Thrown _) = .ok (w', r') ∧ AllFit w' ∧
      (Function.update (tapes w) i t, r) = (tapes w', r')) ↔ b.Fit ∧ b.tape = t := by
  constructor
  · rintro ⟨w', r', hout, hfit, hspec⟩
    obtain ⟨rfl, rfl⟩ := Prod.mk.inj (Except.ok.inj hout)
    have hi := hfit i
    rw [Function.update_self] at hi
    have htape := congrFun (Prod.mk.inj hspec).1 i
    rw [tapes_update, Function.update_self, Function.update_self] at htape
    exact ⟨hi, htape.symm⟩
  · rintro ⟨hb, rfl⟩
    exact ⟨_, r, rfl, allFit_update h hb, by rw [tapes_update]⟩

theorem empty_fit : Buffer.empty.Fit := Nat.le_refl 0

theorem copy_fit (b : Buffer) : b.copy.Fit := Nat.zero_le _

/-- A moved buffer is the source as it was. -/
theorem move_right (h : AllFit w) (dst src : ι) : ∃ w' r,
    (Except.ok (Function.update (Function.update w src Buffer.empty) dst (w src), Reply.done) : Except Thrown _) =
      .ok (w', r) ∧ AllFit w' ∧
    (Function.update (Function.update (tapes w) src ⟨[], []⟩) dst (tapes w src), Reply.done) = (tapes w', r) := by
  refine ⟨_, _, rfl, allFit_update (allFit_update h empty_fit) (h src), ?_⟩
  rw [tapes_update, tapes_update, tape_empty]
  rfl

/-- **When a call is right.** -/
theorem right_iff (c : Call ι) (h : AllFit w) : Right c w (exec c w) ↔ Admitted c w := by
  cases c with
  | push i bytes =>
    cases bytes with
    | none => exact iff_of_true rfl trivial
    | some bytes => exact iff_of_true ((update_iff h).mpr ((h i).push bytes)) trivial
  | get i n advance =>
    obtain ⟨b', hget, hfit, htape⟩ := (h i).get n advance
    refine iff_of_true ?_ trivial
    unfold Right exec
    dsimp only
    rw [hget]
    exact (update_iff h).mpr ⟨hfit, htape⟩
  | getByte i advance =>
    obtain ⟨hret, hfit, htape⟩ := (h i).getByte advance
    refine iff_of_true ?_ trivial
    unfold Right exec specify
    dsimp only
    rw [hret]
    exact (update_iff h).mpr ⟨hfit, htape⟩
  | skip i nbytes =>
    refine (update_iff h).trans ?_
    rw [and_iff_right ((w i).skip_fit nbytes)]
    exact (h i).skip_iff nbytes
  | unwind i nbytes => exact iff_of_true ((update_iff h).mpr ((h i).unwind nbytes)) trivial
  | truncate i => exact iff_of_true ((update_iff h).mpr (h i).truncate) trivial
  | reset i => exact iff_of_true ((update_iff h).mpr (w i).reset_tape) trivial
  | clear i => exact iff_of_true ((update_iff h).mpr ⟨empty_fit, rfl⟩) trivial
  | fromFd i fd numBytes outcomes =>
    refine (update_iff h).trans ?_
    rcases lt_or_ge fd 0 with hneg | hfd
    · rw [if_pos hneg]
      refine iff_of_true ?_ (Or.inl hneg)
      unfold Buffer.fromFd
      rw [if_pos hneg]
      exact ⟨h i, rfl⟩
    · rw [if_neg (Int.not_lt.mpr hfd)]
      exact ((h i).fromFd_iff hfd numBytes outcomes).trans (or_iff_right (Int.not_lt.mpr hfd)).symm
  | copy dst src =>
    exact (update_iff h).trans ((and_iff_right (copy_fit _)).trans (h src).copy_iff)
  | copyAssign dst src =>
    -- `operator=` checks for an assignment to itself
    by_cases hself : src = dst
    · subst hself
      refine iff_of_true ⟨w, .done, ?_, h, congrArg (·, Reply.done) (Function.update_eq_self ..)⟩ (Or.inl rfl)
      unfold exec
      dsimp only
      rw [if_neg (not_not.mpr rfl)]
    · unfold Right exec
      dsimp only
      rw [if_pos hself]
      exact (update_iff h).trans ((and_iff_right (copy_fit _)).trans
        ((h src).copy_iff.trans (or_iff_right hself).symm))
  | move dst src => exact iff_of_true (move_right h dst src) trivial
  | moveAssign dst src => exact iff_of_true (move_right h dst src) trivial

theorem fromFd_fit {b : Buffer} (h : b.Fit) {fd : ℤ} {numBytes : BitVec 32} {outcomes : List (Option (List UInt8))}
    (hfresh : fd < 0 ∨ b.buff = []) : (b.fromFd fd numBytes outcomes).Fit := by
  rcases lt_or_ge fd 0 with hneg | hfd
  · unfold Buffer.fromFd
    rw [if_pos hneg]
    exact h
  · rw [fromFd_eq b hfd]
    unfold Buffer.Fit at h ⊢
    rw [hfresh.resolve_left (Int.not_lt.mpr hfd)] at h
    exact h.trans (Nat.zero_le _)

/-- Where buffers are fresh, every call keeps the offsets in their buffers, and a get returns what is next. -/
theorem bounded_of_fresh (h : AllFit w) (hfresh : Fresh c w) : Bounded c w (exec c w) := by
  by_cases hadmitted : Admitted c w
  · have hright := (right_iff c h).mpr hadmitted
    cases c with
    | push i bytes =>
      cases bytes with
      | none => rfl
      | some bytes =>
        obtain ⟨w', r, hout, hfit, -⟩ := hright
        exact ⟨w', r, hout, hfit⟩
    | get i n advance =>
      obtain ⟨w', r, hout, hfit, hspec⟩ := hright
      obtain ⟨-, rfl⟩ := Prod.mk.inj hspec
      exact ⟨w', hout, hfit⟩
    | _ =>
      obtain ⟨w', r, hout, hfit, -⟩ := hright
      exact ⟨w', r, hout, hfit⟩
  · -- only skips that wrap round are left, and counts
    cases c with
    | skip i nbytes => exact ⟨_, _, rfl, allFit_update h ((w i).skip_fit nbytes)⟩
    | fromFd i fd numBytes outcomes => exact ⟨_, _, rfl, allFit_update h (fromFd_fit (h i) hfresh)⟩
    | _ => exact absurd hfresh hadmitted

theorem bounded_fit (h : Bounded c w (exec c w)) {w' : ι → Buffer} {r : Reply} (hout : exec c w = .ok (w', r)) :
    AllFit w' := by
  rw [hout] at h
  cases c with
  | push i bytes =>
    cases bytes with
    | none => cases h
    | some bytes =>
      obtain ⟨w'', r', heq, hfit⟩ := h
      obtain ⟨rfl, -⟩ := Prod.mk.inj (Except.ok.inj heq)
      exact hfit
  | get i n advance =>
    obtain ⟨w'', heq, hfit⟩ := h
    obtain ⟨rfl, -⟩ := Prod.mk.inj (Except.ok.inj heq)
    exact hfit
  | _ =>
    obtain ⟨w'', r', heq, hfit⟩ := h
    obtain ⟨rfl, -⟩ := Prod.mk.inj (Except.ok.inj heq)
    exact hfit

/-! ## The runs -/

/-- Buffers made by the default constructor. -/
def noBytes : ι → Buffer := fun _ => Buffer.empty

omit [DecidableEq ι] in
theorem noBytes_fit : AllFit (noBytes : ι → Buffer) := fun _ => empty_fit

/-- **The buffers are tapes** in the runs whose calls are admitted, and in no others; and in all runs on fresh buffers
the offsets stay in their buffers, whatever is skipped. -/
theorem tapes_iff (cs : List (Call ι)) :
    (Always exec Right cs noBytes ↔ Meets exec Admitted cs noBytes) ∧
    (Meets exec Fresh cs noBytes → Always exec Bounded cs noBytes) := by
  constructor
  · refine always_iff_meets AllFit (fun c w h => ⟨right_iff c h, fun hadmitted w' r hout => ?_⟩) noBytes_fit
    have hfresh : Fresh c w := by
      cases c with
      | skip i nbytes => trivial
      | fromFd i fd numBytes outcomes => exact hadmitted.imp_right And.left
      | _ => exact hadmitted
    exact bounded_fit (bounded_of_fresh h hfresh) hout
  · intro hmeets
    -- a call is fresh before it is known to be bounded, so both are carried through the run
    have hboth := (always_iff_meets AllFit (P := fun c w out => Fresh c w ∧ Bounded c w out) (fun c w h =>
      ⟨and_iff_left_of_imp (bounded_of_fresh h), fun hfresh w' r hout =>
        bounded_fit (bounded_of_fresh h hfresh) hout⟩) noBytes_fit).mpr hmeets
    exact fun pre c w rs hpre hrun => (hboth pre c w rs hpre hrun).2

theorem tapes_iff_skip : Always exec Bounded [.push () (some [1, 2]), .get () 1 true, .skip () (2 ^ 64 - 1)] noBytes :=
  (tapes_iff _).2 ⟨trivial, fun _ _ _ => ⟨trivial, fun _ _ _ => ⟨trivial, fun _ _ _ => trivial⟩⟩⟩

/-- Two bytes are pushed and read, and one more is read from a descriptor: it is the only one left, in front of the
offset. -/
theorem offset_beyond : (∃ w rs,
      runCalls exec [.push () (some [1, 2]), .get () 2 true, .fromFd () 3 1 [some [7]]] noBytes = .ok (w, rs) ∧
        w () = ⟨[7], 2⟩) ∧
    ¬ Always exec Right [.push () (some [1, 2]), .get () 2 true, .fromFd () 3 1 [some [7]]] noBytes := by
  refine ⟨⟨_, _, rfl, rfl⟩, fun h => ?_⟩
  obtain ⟨w', r, hout, hfit, -⟩ := h [.push () (some [1, 2]), .get () 2 true] (.fromFd () 3 1 [some [7]]) _ _
    (List.prefix_refl _) rfl
  obtain ⟨rfl, -⟩ := Prod.mk.inj (Except.ok.inj hout)
  exact absurd (hfit ()) (by decide)

end Libtarp.ByteBuffer
