import Libtarp.Lib.Bytes
import Mathlib.Data.PNat.Defs
import Mathlib.Data.BitVec

/-!
# Byte buffers (`buffer.hxx`, `buffer.cxx`)

A `ByteBuffer` has its bytes in a vector, and the offset of the next byte to be read.

* `Tape`: what a buffer is for: the bytes read so far and those to be read.
* `fromFd_eq`: what `from_fd` reads takes the place of what the buffer had.
* The other operations do on the vector and the offset what those of a tape do.
-/

namespace Libtarp.ByteBuffer

open Lib

/-- `m_buff` and `m_buff_offset`. -/
structure Buffer where
  buff : List UInt8
  offset : ℕ
  deriving DecidableEq, Repr

/-- How a call can end without returning: `std::out_of_range`, or a failed `assert`. -/
inductive Thrown
  | outOfRange
  | assertion
  deriving DecidableEq, Repr

def Buffer.empty : Buffer := ⟨[], 0⟩

/-- The copy constructor. -/
def Buffer.copy (src : Buffer) : Buffer := { Buffer.empty with buff := Buffer.empty.buff ++ src.buff }

/-- `push`; no start is a null pointer. -/
def Buffer.push (b : Buffer) : Option (List UInt8) → Except Thrown Buffer
  | none => .error .assertion
  | some bytes => .ok { b with buff := b.buff ++ bytes }

/-- `std::vector::resize`. -/
def resize (buff : List UInt8) (n : ℕ) : List UInt8 := buff.take n ++ List.replicate (n - buff.length) 0

/-- `size_increment`. -/
def sizeIncrement (numBytes : BitVec 32) : ℕ :=
  if (0#32).slt numBytes ∧ numBytes.slt 4096#32 then numBytes.toNat else 4096

/-- The loop of `from_fd`: the outcomes of the reads (`none` is `-1`), of which there are none any more at the end of the
file. The count is an `int32_t`, and one that is negative at first wraps round. -/
def fromFdLoop (buff : List UInt8) (writeCursor : ℕ) (numBytes : BitVec 32) :
    List (Option (List UInt8)) → List UInt8 × ℕ
  | [] => if numBytes = 0 then (buff, writeCursor) else (resize buff (buff.length + sizeIncrement numBytes), writeCursor)
  | outcome :: outcomes =>
    if numBytes = 0 then (buff, writeCursor)
    else
      let grown := resize buff (buff.length + sizeIncrement numBytes)
      match outcome with
      | none => (grown, writeCursor)
      | some data =>
        let read := data.take (sizeIncrement numBytes)
        let stored := store grown writeCursor read
        if read.length < sizeIncrement numBytes then (stored, writeCursor + read.length)
        else
          fromFdLoop stored (writeCursor + sizeIncrement numBytes)
            (numBytes - BitVec.ofNat 32 (sizeIncrement numBytes)) outcomes

/-- `from_fd`. -/
def Buffer.fromFd (b : Buffer) (fd : ℤ) (numBytes : BitVec 32) (outcomes : List (Option (List UInt8))) : Buffer :=
  if fd < 0 then b
  else
    let (buff, writeCursor) := fromFdLoop b.buff 0 numBytes outcomes
    { b with buff := resize buff writeCursor }

/-- `left`, a difference of two values of type `size_t`. -/
def Buffer.left (b : Buffer) : ℕ :=
  if b.offset ≤ b.buff.length then b.buff.length - b.offset else b.buff.length + 2 ^ 64 - b.offset

/-- `within_bounds`. -/
def Buffer.withinBounds (b : Buffer) : Bool := b.offset < b.buff.length

/-- `get<T>` and `get_ptr<T>`, where `n` is `sizeof(T)`. -/
def Buffer.get (b : Buffer) (n : ℕ+) (advance : Bool) : Except Thrown (Buffer × Option (List UInt8)) :=
  if b.left < n then .ok (b, none)
  else if b.offset ≥ b.buff.length then .error .outOfRange
  else
    let ret := (b.buff.drop b.offset).take n
    .ok (if advance then { b with offset := b.offset + n } else b, some ret)

/-- `get_byte`. -/
def Buffer.getByte (b : Buffer) (advance : Bool) : Buffer × UInt8 :=
  if b.withinBounds = false then (b, 0)
  else (if advance then { b with offset := b.offset + 1 } else b, b.buff.getD b.offset 0)

/-- `truncate`. -/
def Buffer.truncate (b : Buffer) : Buffer :=
  if b.withinBounds = false then b else { b with buff := b.buff.take b.offset }

/-- `skip`. -/
def Buffer.skip (b : Buffer) (nbytes : BitVec 64) : Buffer :=
  { b with offset := min ((b.offset + nbytes.toNat) % 2 ^ 64) b.buff.length }

/-- `unwind`. -/
def Buffer.unwind (b : Buffer) (nbytes : BitVec 64) : Buffer :=
  if nbytes.toNat > b.offset then { b with offset := 0 } else { b with offset := b.offset - nbytes.toNat }

/-- `reset`. -/
def Buffer.reset (b : Buffer) : Buffer := { b with offset := 0 }

/-- `clear`. -/
def Buffer.clear (_ : Buffer) : Buffer := ⟨[], 0⟩

/-! ## Tapes -/

/-- The bytes behind the read position, and those in front of it. -/
@[ext] structure Tape where
  consumed : List UInt8
  unread : List UInt8
  deriving DecidableEq, Repr

namespace Tape

def push (t : Tape) (bytes : List UInt8) : Tape := ⟨t.consumed, t.unread ++ bytes⟩

/-- The position goes forward over as many bytes, or to the end. -/
def forward (t : Tape) (n : ℕ) : Tape := ⟨t.consumed ++ t.unread.take n, t.unread.drop n⟩

/-- The position goes back over as many bytes, or to the start. -/
def back (t : Tape) (n : ℕ) : Tape :=
  ⟨t.consumed.take (t.consumed.length - n), t.consumed.drop (t.consumed.length - n) ++ t.unread⟩

/-- The next `n` bytes, if there are so many. -/
def next (t : Tape) (n : ℕ) : Option (List UInt8) := if n ≤ t.unread.length then some (t.unread.take n) else none

def rewind (t : Tape) : Tape := ⟨[], t.consumed ++ t.unread⟩

def cut (t : Tape) : Tape := ⟨t.consumed, []⟩

end Tape

/-- The tape of a buffer. -/
def Buffer.tape (b : Buffer) : Tape := ⟨b.buff.take b.offset, b.buff.drop b.offset⟩

/-- The offset does not exceed the size. -/
def Buffer.Fit (b : Buffer) : Prop := b.offset ≤ b.buff.length

instance (b : Buffer) : Decidable b.Fit := inferInstanceAs (Decidable (_ ≤ _))

variable {b : Buffer}

/-! ## The operations -/

theorem tape_empty : Buffer.empty.tape = ⟨[], []⟩ := rfl

theorem Buffer.tape_whole (b : Buffer) : b.tape.consumed ++ b.tape.unread = b.buff := List.take_append_drop ..

theorem Buffer.Fit.consumed_length (h : b.Fit) : b.tape.consumed.length = b.offset := List.length_take_of_le h

theorem Buffer.Fit.left_eq (h : b.Fit) : b.left = b.tape.unread.length := by
  unfold Buffer.left Buffer.tape
  rw [List.length_drop]
  exact if_pos h

theorem Buffer.Fit.push (h : b.Fit) (bytes : List UInt8) : ({ b with buff := b.buff ++ bytes } : Buffer).Fit ∧
    ({ b with buff := b.buff ++ bytes } : Buffer).tape = b.tape.push bytes := by
  unfold Buffer.Fit at h ⊢
  refine ⟨?_, ?_⟩
  · rw [List.length_append]
    exact Nat.le_add_right_of_le h
  · unfold Buffer.tape Tape.push
    rw [List.take_append_of_le_length h, List.drop_append_of_le_length h]

/-- The offset goes forward within the buffer. -/
theorem tape_forward {n : ℕ} (hle : b.offset + n ≤ b.buff.length) :
    ({ b with offset := b.offset + n } : Buffer).Fit ∧
      ({ b with offset := b.offset + n } : Buffer).tape = b.tape.forward n := by
  refine ⟨hle, ?_⟩
  unfold Buffer.tape Tape.forward
  rw [List.take_add, List.drop_drop]

/-- **A typed get** returns the next bytes if there are so many, and does not throw. -/
theorem Buffer.Fit.get (h : b.Fit) (n : ℕ+) (advance : Bool) : ∃ b', b.get n advance = .ok (b', b.tape.next n) ∧ b'.Fit ∧
    b'.tape = if advance ∧ (b.tape.next n).isSome then b.tape.forward n else b.tape := by
  have hpos := n.pos
  have hleft := h.left_eq
  unfold Buffer.get Tape.next
  rw [hleft]
  by_cases hroom : (n : ℕ) ≤ b.tape.unread.length
  · have hlength : b.tape.unread.length = b.buff.length - b.offset := List.length_drop
    rw [if_neg (by omega), if_neg (by omega), if_pos hroom]
    cases advance with
    | false => exact ⟨b, rfl, h, rfl⟩
    | true =>
      obtain ⟨hfit, htape⟩ := tape_forward (n := n) (b := b) (by omega)
      exact ⟨_, rfl, hfit, htape⟩
  · rw [if_pos (by omega), if_neg hroom]
    refine ⟨b, rfl, h, (if_neg ?_).symm⟩
    rintro ⟨-, hsome⟩
    exact absurd hsome Bool.false_ne_true

theorem Buffer.Fit.getByte (h : b.Fit) (advance : Bool) : (b.getByte advance).2 = b.tape.unread.headD 0 ∧
    (b.getByte advance).1.Fit ∧
    (b.getByte advance).1.tape = if advance then b.tape.forward 1 else b.tape := by
  unfold Buffer.Fit at h
  unfold Buffer.getByte Buffer.withinBounds
  by_cases hin : b.offset < b.buff.length
  · rw [if_neg (by rw [decide_eq_true hin]; exact Bool.true_eq_false.mp)]
    have hhead : b.buff.getD b.offset 0 = b.tape.unread.headD 0 := by
      unfold Buffer.tape
      rw [List.headD_eq_head?_getD, List.head?_drop, List.getD_eq_getElem?_getD]
    cases advance with
    | false => exact ⟨hhead, h, rfl⟩
    | true => exact ⟨hhead, tape_forward hin⟩
  · -- at the end the getter returns 0, and the offset stays
    rw [if_pos (decide_eq_false hin)]
    have hend : b.tape.unread = [] := List.drop_of_length_le (Nat.not_lt.mp hin)
    refine ⟨by rw [hend]; rfl, h, ?_⟩
    have hforward : b.tape.forward 1 = b.tape := by
      unfold Tape.forward
      rw [hend, List.take_nil, List.drop_nil, List.append_nil]
      exact Tape.ext rfl hend.symm
    rw [hforward, ite_self]

/-- **A skip** never leaves the buffer. -/
theorem Buffer.skip_fit (b : Buffer) (nbytes : BitVec 64) : (b.skip nbytes).Fit := Nat.min_le_right ..

/-- It goes forward exactly if the sum with the offset does not wrap round. -/
theorem Buffer.Fit.skip_iff (h : b.Fit) (nbytes : BitVec 64) :
    (b.skip nbytes).tape = b.tape.forward nbytes.toNat ↔ b.offset + nbytes.toNat < 2 ^ 64 := by
  have hlt := nbytes.isLt
  unfold Buffer.Fit at h
  constructor
  · intro htape
    by_contra hwraps
    -- the offset goes back when it wraps round
    have hback : (b.offset + nbytes.toNat) % 2 ^ 64 < b.offset := by omega
    have hlength := congrArg (fun t => t.consumed.length) htape
    dsimp only [Buffer.skip, Buffer.tape, Tape.forward] at hlength
    rw [List.length_append, List.length_take, List.length_take, List.length_take] at hlength
    omega
  · intro hsum
    unfold Buffer.skip
    rw [Nat.mod_eq_of_lt hsum]
    rcases Nat.le_total (b.offset + nbytes.toNat) b.buff.length with hin | hout
    · rw [Nat.min_eq_left hin]
      exact (tape_forward hin).2
    · -- a skip past the end stops there
      rw [Nat.min_eq_right hout]
      have htake : b.tape.unread.take nbytes.toNat = b.tape.unread := List.take_of_length_le (by
        unfold Buffer.tape
        rw [List.length_drop]
        omega)
      have hdrop : b.tape.unread.drop nbytes.toNat = [] := List.drop_of_length_le (by
        unfold Buffer.tape
        rw [List.length_drop]
        omega)
      unfold Tape.forward
      rw [htake, hdrop, b.tape_whole]
      exact Tape.ext (List.take_of_length_le le_rfl) (List.drop_of_length_le le_rfl)

theorem Buffer.Fit.unwind (h : b.Fit) (nbytes : BitVec 64) : (b.unwind nbytes).Fit ∧
    (b.unwind nbytes).tape = b.tape.back nbytes.toNat := by
  have hoffset : (b.unwind nbytes) = { b with offset := b.offset - nbytes.toNat } := by
    unfold Buffer.unwind
    split_ifs with hmore
    · rw [Nat.sub_eq_zero_of_le (Nat.le_of_lt hmore)]
    · rfl
  rw [hoffset]
  refine ⟨Nat.le_trans (Nat.sub_le ..) h, ?_⟩
  unfold Tape.back
  rw [h.consumed_length]
  have hle : b.offset - nbytes.toNat ≤ b.offset := Nat.sub_le ..
  generalize b.offset - nbytes.toNat = k at hle
  unfold Buffer.tape
  refine Tape.ext ?_ ?_ <;> dsimp only
  · rw [List.take_take, Nat.min_eq_left hle]
  · rw [← List.take_append_drop b.offset b.buff, List.drop_append_of_le_length, List.take_append_drop]
    rw [List.length_take_of_le h]
    exact hle

theorem Buffer.Fit.truncate (h : b.Fit) : b.truncate.Fit ∧ b.truncate.tape = b.tape.cut := by
  unfold Buffer.Fit at h
  unfold Buffer.truncate Buffer.withinBounds
  by_cases hin : b.offset < b.buff.length
  · rw [if_neg (by rw [decide_eq_true hin]; exact Bool.true_eq_false.mp)]
    have hlength : (b.buff.take b.offset).length = b.offset := List.length_take_of_le h
    refine ⟨hlength.ge, ?_⟩
    unfold Buffer.tape Tape.cut
    refine Tape.ext (List.take_of_length_le hlength.le) (List.drop_of_length_le hlength.le)
  · rw [if_pos (decide_eq_false hin)]
    exact ⟨h, Tape.ext rfl (List.drop_of_length_le (Nat.not_lt.mp hin))⟩

theorem Buffer.reset_tape (b : Buffer) : b.reset.Fit ∧ b.reset.tape = b.tape.rewind :=
  ⟨Nat.zero_le _, Tape.ext rfl b.tape_whole.symm⟩

/-- **A copy** starts at the start of the bytes. -/
theorem Buffer.Fit.copy_iff (h : b.Fit) : b.copy.tape = b.tape ↔ b.offset = 0 := by
  constructor
  · intro htape
    rw [← h.consumed_length, ← htape]
    rfl
  · intro hstart
    exact Tape.ext (by unfold Buffer.tape; rw [hstart]; rfl) (by unfold Buffer.tape; rw [hstart]; rfl)

/-! ## Reading from a descriptor -/

/-- The bytes that reads of up to 4096 each give, until one of them is short. -/
def given : List (Option (List UInt8)) → List UInt8
  | [] => []
  | none :: _ => []
  | some data :: outcomes => if data.length < 4096 then data else data.take 4096 ++ given outcomes

/-- The bytes that `from_fd` is to read: as many as are asked for, and all where the count is negative. -/
def received (numBytes : BitVec 32) (outcomes : List (Option (List UInt8))) : List UInt8 :=
  if numBytes.slt 0#32 then given outcomes else (given outcomes).take numBytes.toNat

theorem sizeIncrement_eq {numBytes : BitVec 32} (h : numBytes ≠ 0) :
    sizeIncrement numBytes = min 4096 numBytes.toNat := by
  have hpos : 0 < numBytes.toNat := Nat.pos_of_ne_zero fun hno => h (BitVec.eq_of_toNat_eq hno)
  have hlt := numBytes.isLt
  unfold sizeIncrement
  simp only [BitVec.slt_iff_toInt_lt, BitVec.toInt_eq_toNat_cond, BitVec.toNat_ofNat]
  split_ifs <;> omega

theorem toNat_sub_sizeIncrement {numBytes : BitVec 32} (h : numBytes ≠ 0) :
    (numBytes - BitVec.ofNat 32 (sizeIncrement numBytes)).toNat = numBytes.toNat - sizeIncrement numBytes := by
  have hlt := numBytes.isLt
  rw [sizeIncrement_eq h, BitVec.toNat_sub, BitVec.toNat_ofNat]
  omega

variable {numBytes : BitVec 32} {data : List UInt8} {outcomes : List (Option (List UInt8))}

theorem given_short (h : numBytes ≠ 0) (hshort : data.length < sizeIncrement numBytes) :
    (given (some data :: outcomes)).take numBytes.toNat = data.take (sizeIncrement numBytes) := by
  rw [sizeIncrement_eq h] at hshort ⊢
  unfold given
  rw [if_pos (by omega), List.take_of_length_le (by omega), List.take_of_length_le (by omega)]

theorem given_full (h : numBytes ≠ 0) (hfull : sizeIncrement numBytes ≤ data.length) :
    (given (some data :: outcomes)).take numBytes.toNat = data.take (sizeIncrement numBytes) ++
      (given outcomes).take (numBytes - BitVec.ofNat 32 (sizeIncrement numBytes)).toNat := by
  rw [toNat_sub_sizeIncrement h]
  rw [sizeIncrement_eq h] at hfull ⊢
  conv_lhs => unfold given
  rcases Nat.lt_or_ge numBytes.toNat 4096 with hlast | hmore
  · -- the last read asks for what is left
    rw [Nat.min_eq_right hlast.le, Nat.sub_self, List.take_zero, List.append_nil]
    split_ifs with hless
    · rfl
    · rw [List.take_append_of_le_length (by rw [List.length_take]; omega), List.take_take, Nat.min_eq_left hlast.le]
  · rw [Nat.min_eq_left hmore, if_neg (by omega), List.take_append, List.take_take, Nat.min_eq_right hmore,
      List.length_take_of_le (by omega)]

theorem resize_more (buff : List UInt8) {n : ℕ} (h : buff.length ≤ n) :
    (resize buff n).length = n ∧ ∀ k ≤ buff.length, (resize buff n).take k = buff.take k := by
  unfold resize
  rw [List.take_of_length_le h]
  refine ⟨?_, fun k hk => List.take_append_of_le_length hk⟩
  rw [List.length_append, List.length_replicate]
  omega

/-- The bytes up to the cursor, and behind them those that are read. -/
theorem fromFdLoop_eq (outcomes : List (Option (List UInt8))) (buff : List UInt8) (cursor : ℕ) (numBytes : BitVec 32)
    (hcursor : cursor ≤ buff.length) :
    (fromFdLoop buff cursor numBytes outcomes).2 ≤ (fromFdLoop buff cursor numBytes outcomes).1.length ∧
    (fromFdLoop buff cursor numBytes outcomes).1.take (fromFdLoop buff cursor numBytes outcomes).2 =
      buff.take cursor ++ (given outcomes).take numBytes.toNat := by
  induction outcomes generalizing buff cursor numBytes with
  | nil =>
    obtain ⟨hgrown, hkept⟩ := resize_more buff (Nat.le_add_right buff.length (sizeIncrement numBytes))
    unfold fromFdLoop given
    rw [List.take_nil, List.append_nil]
    split_ifs
    · exact ⟨hcursor, rfl⟩
    · exact ⟨by rw [hgrown]; omega, hkept cursor hcursor⟩
  | cons outcome outcomes ih =>
    obtain ⟨hgrown, hkept⟩ := resize_more buff (Nat.le_add_right buff.length (sizeIncrement numBytes))
    unfold fromFdLoop
    split_ifs with hzero
    · subst hzero
      exact ⟨hcursor, (List.append_nil _).symm⟩
    cases outcome with
    | none =>
      unfold given
      rw [List.take_nil, List.append_nil]
      exact ⟨by dsimp only; rw [hgrown]; omega, hkept cursor hcursor⟩
    | some data =>
      dsimp only
      have hread : (data.take (sizeIncrement numBytes)).length = min (sizeIncrement numBytes) data.length :=
        List.length_take
      have hroom : cursor ≤ (resize buff (buff.length + sizeIncrement numBytes)).length := by
        rw [hgrown]
        omega
      have htake := take_store hroom (data.take (sizeIncrement numBytes))
      have hlength : (store (resize buff (buff.length + sizeIncrement numBytes)) cursor
          (data.take (sizeIncrement numBytes))).length = buff.length + sizeIncrement numBytes := by
        rw [store_length (by rw [hgrown]; omega), hgrown]
      rw [hkept cursor hcursor] at htake
      -- a short read ends the loop
      split_ifs with hshort
      · refine ⟨by rw [hlength]; omega, ?_⟩
        rw [htake, given_short hzero (by omega)]
      · have hfull : (data.take (sizeIncrement numBytes)).length = sizeIncrement numBytes := by omega
        rw [hfull] at htake
        obtain ⟨hle, hrest⟩ := ih
          (store (resize buff (buff.length + sizeIncrement numBytes)) cursor (data.take (sizeIncrement numBytes)))
          (cursor + sizeIncrement numBytes) (numBytes - BitVec.ofNat 32 (sizeIncrement numBytes))
          (by rw [hlength]; omega)
        refine ⟨hle, ?_⟩
        rw [hrest, htake, List.append_assoc, given_full hzero (by omega)]

/-- **What `from_fd` reads** takes the place of what the buffer had. A negative count is read as one without a sign. -/
theorem fromFd_eq (b : Buffer) {fd : ℤ} (hfd : 0 ≤ fd) (numBytes : BitVec 32) (outcomes : List (Option (List UInt8))) :
    b.fromFd fd numBytes outcomes = { b with buff := (given outcomes).take numBytes.toNat } := by
  obtain ⟨hle, htake⟩ := fromFdLoop_eq outcomes b.buff 0 numBytes (Nat.zero_le _)
  unfold Buffer.fromFd
  rw [if_neg (by omega)]
  dsimp only
  unfold resize
  rw [htake, Nat.sub_eq_zero_of_le hle]
  rw [List.take_zero, List.nil_append, List.replicate_zero, List.append_nil]

/-- As many bytes are read as are to be, unless a negative count has come round to 0. -/
theorem received_iff (numBytes : BitVec 32) (outcomes : List (Option (List UInt8))) :
    (given outcomes).take numBytes.toNat = received numBytes outcomes ↔
      (numBytes.slt 0#32 = true → (given outcomes).length ≤ numBytes.toNat) := by
  unfold received
  split_ifs with hneg
  · rw [List.take_eq_self_iff]
    exact (imp_iff_right hneg).symm
  · exact iff_of_true rfl fun hno => absurd hno hneg

/-- It appends what it is to read exactly if the buffer had nothing, and as much is read. -/
theorem Buffer.Fit.fromFd_iff (h : b.Fit) {fd : ℤ} (hfd : 0 ≤ fd) (numBytes : BitVec 32)
    (outcomes : List (Option (List UInt8))) :
    ((b.fromFd fd numBytes outcomes).Fit ∧
      (b.fromFd fd numBytes outcomes).tape = b.tape.push (received numBytes outcomes)) ↔
        b.buff = [] ∧ (numBytes.slt 0#32 = true → (given outcomes).length ≤ numBytes.toNat) := by
  rw [fromFd_eq b hfd, ← received_iff]
  have hcut : ((given outcomes).take numBytes.toNat).length ≤ (received numBytes outcomes).length := by
    unfold received
    split_ifs
    · exact List.length_take_le' ..
    · exact le_rfl
  have hlength : b.tape.unread.length = b.buff.length - b.offset := List.length_drop
  generalize (given outcomes).take numBytes.toNat = bytes at hcut ⊢
  generalize received numBytes outcomes = wanted at hcut ⊢
  unfold Buffer.Fit at h ⊢
  constructor
  · rintro ⟨hfit, htape⟩
    -- the offset is kept and the bytes are new, so the lengths of what is unread differ by what was there
    have hunread := congrArg (fun t => t.unread.length) htape
    dsimp only [Tape.push] at hunread
    rw [List.length_append, hlength] at hunread
    unfold Buffer.tape at hunread
    rw [List.length_drop] at hunread
    dsimp only at hfit hunread
    have hnone : b.buff = [] := by
      rw [← List.length_eq_zero_iff]
      omega
    refine ⟨hnone, ?_⟩
    have hwhole := congrArg (fun t => t.consumed ++ t.unread) htape
    dsimp only [Tape.push] at hwhole
    rw [Buffer.tape_whole, ← List.append_assoc, Buffer.tape_whole, hnone] at hwhole
    exact hwhole
  · rintro ⟨hnone, rfl⟩
    rw [hnone] at h
    have hstart : b.offset = 0 := Nat.le_zero.mp h
    refine ⟨by rw [hstart]; exact Nat.zero_le _, ?_⟩
    unfold Tape.push Buffer.tape
    rw [hnone, hstart]
    rfl

end Libtarp.ByteBuffer
