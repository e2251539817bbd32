import Libtarp.Checksum.CrcRuns
import Mathlib.Data.List.Basic

/-!
# What a CRC detects (`hash/crc/crc.hxx`)

The bits of a message come in the order they are read in: of each byte the highest first, or the lowest
where `reflect_in` is set. Every generator of `params` is odd (`catalogue_odd`).

* `byteLoop_eq`: the loop over a message, bit by bit.
* `burst_detected`: messages that differ in a burst no longer than the register have different CRCs.
* `codeword_residue`: a message with its CRC behind it leaves what depends on the parameters only.
-/

namespace Libtarp.Crc

open Lib Bits

variable {k : ℕ}

/-! ## The parameters -/

/-- The width of a register, as `8 * k + 8`, and a set of parameters for it. -/
abbrev Entry : Type := Σ k : ℕ, Params k

def crc16Dectx : Params 1 := ⟨0x0589#16, 0x0000#16, 0x0000#16, false, false⟩
def crc16Usb : Params 1 := ⟨0x8005#16, 0xffff#16, 0xffff#16, true, true⟩
def crc16Gsm : Params 1 := ⟨0x1021#16, 0x0000#16, 0xffff#16, false, false⟩
def crc16Kermit : Params 1 := ⟨0x1021#16, 0x0000#16, 0x0000#16, true, true⟩
def crc16Modbus : Params 1 := ⟨0x8005#16, 0xffff#16, 0x0000#16, true, true⟩
def crc8Bluetooth : Params 0 := ⟨0xa7#8, 0x00#8, 0x00#8, true, true⟩
def crc32Bzip2 : Params 3 := ⟨0x04c11db7#32, 0xffffffff#32, 0xffffffff#32, false, false⟩
def crc32Cksum : Params 3 := ⟨0x04c11db7#32, 0x00000000#32, 0xffffffff#32, false, false⟩
def crc32c : Params 3 := ⟨0x1edc6f41#32, 0xffffffff#32, 0xffffffff#32, true, true⟩
def crc32Hdlc : Params 3 := ⟨0x04c11db7#32, 0xffffffff#32, 0xffffffff#32, true, true⟩
def crc64Go : Params 7 := ⟨0x000000000000001b#64, ~~~0#64, ~~~0#64, true, true⟩
def crc64Xz : Params 7 := ⟨0x42f0e1eba9ea3693#64, ~~~0#64, ~~~0#64, true, true⟩

/-- `namespace params`. -/
def catalogue : List Entry :=
  [⟨1, crc16Dectx⟩, ⟨1, crc16Usb⟩, ⟨1, crc16Gsm⟩, ⟨1, crc16Kermit⟩, ⟨1, crc16Modbus⟩, ⟨0, crc8Bluetooth⟩,
    ⟨3, crc32Bzip2⟩, ⟨3, crc32Cksum⟩, ⟨3, crc32c⟩, ⟨3, crc32Hdlc⟩, ⟨7, crc64Go⟩, ⟨7, crc64Xz⟩]

theorem catalogue_odd : ∀ q ∈ catalogue, q.2.G.getLsbD 0 = true ∧ q.2.reflectIn = q.2.reflectOut := by
  unfold catalogue
  simp only [List.forall_mem_cons, List.not_mem_nil, false_implies, implies_true, and_true]
  decide +kernel

/-! ## The bits of a message -/

def byteBits (byte : BitVec 8) : List Bool := (List.range 8).map byte.getMsbD

/-- The bits in the order they are read. -/
def Params.bits (p : Params k) (msg : List (BitVec 8)) : List Bool := msg.flatMap fun byte => byteBits (p.read byte)

theorem packTop_bits {w : ℕ} (x : BitVec w) : packTop w ((List.range w).map x.getMsbD) = x := by
  refine BitVec.eq_of_getMsbD_eq fun i hi => ?_
  rw [getMsbD_packTop _ hi]
  simp [hi]

theorem byteLoop_eq (p : Params k) (r : BitVec (8 * k + 8)) (msg : List (BitVec 8)) :
    byteLoop p r msg = feed p.G r (p.bits msg) := by
  induction msg generalizing r with
  | nil => rfl
  | cons byte msg ih =>
    have hpack : packTop (8 * k + 8) (byteBits (p.read byte)) = (p.read byte).setWidth (8 * k + 8) <<< (8 * k) := by
      refine BitVec.eq_of_getMsbD_eq fun i hi => ?_
      rw [getMsbD_packTop _ hi, BitVec.getMsbD_shiftLeft, BitVec.getMsbD_setWidth, byteBits]
      by_cases h8 : i < 8
      · simp [h8, show i + 8 * k + 8 - (8 * k + 8) = i by omega]
      · simp [h8, BitVec.getMsbD_of_ge (p.read byte) i (by omega)]
    have hbyte : bitLoop p.G (r ^^^ (p.read byte).setWidth (8 * k + 8) <<< (8 * k)) 8 =
        feed p.G r (byteBits (p.read byte)) := by
      rw [bitLoop_eq, feed_eq p.G r (by simp [byteBits]), hpack]
      simp [byteBits]
    show byteLoop p (bitLoop p.G (r ^^^ (p.read byte).setWidth (8 * k + 8) <<< (8 * k)) 8) msg = _
    have hbits : p.bits (byte :: msg) = byteBits (p.read byte) ++ p.bits msg := List.flatMap_cons
    rw [ih, hbyte, hbits, feed_append]

theorem finish_injective (p : Params k) (undef : BitVec (8 * k + 8)) : Function.Injective (p.finish undef) := by
  intro r r' h
  unfold Params.finish at h
  simp only [reflectBits_reverse, BitVec.xor_left_inj] at h
  split_ifs at h
  · rw [← BitVec.reverse_reverse_eq (x := r), h, BitVec.reverse_reverse_eq]
  · exact h

/-- **A burst no longer than the register changes the CRC**, wherever it is and whatever the message. -/
theorem burst_detected (p : Params k) (hodd : p.G.getLsbD 0 = true) (undef undef' : BitVec (8 * k + 8))
    {msg msg' : List (BitVec 8)} {pre a b post : List Bool} (h : p.bits msg = pre ++ a ++ post)
    (h' : p.bits msg' = pre ++ b ++ post) (hlen : a.length = b.length) (hshort : a.length ≤ 8 * k + 8) (hne : a ≠ b) :
    crc1bitAatV2 p undef msg ≠ crc1bitAatV2 p undef' msg' := by
  intro hcrc
  unfold crc1bitAatV2 at hcrc
  rw [finish_undef p undef undef'] at hcrc
  have hloop := finish_injective p undef' hcrc
  rw [byteLoop_eq, byteLoop_eq, h, h'] at hloop
  exact hne (feed_burst hodd _ hlen hshort hloop)

/-! ## A message with its CRC -/

/-- The bytes of a CRC, the lowest first where the bits are reflected. -/
def Params.crcBytes (p : Params k) (crc : BitVec (8 * k + 8)) : List (BitVec 8) :=
  (List.range (k + 1)).map fun j => (crc >>> (8 * if p.reflectIn then j else k - j)).setWidth 8

theorem range_blocks (f : ℕ → Bool) (n : ℕ) :
    ((List.range n).flatMap fun j => (List.range 8).map fun i => f (8 * j + i)) = (List.range (8 * n)).map f := by
  induction n with
  | zero => rfl
  | succ n ih =>
    rw [List.range_succ (n := n), List.flatMap_append, ih, List.flatMap_singleton, Nat.mul_succ, List.range_add,
      List.map_append, List.map_map]
    rfl

theorem bits_crcBytes (p : Params k) (crc : BitVec (8 * k + 8)) :
    p.bits (p.crcBytes crc) = (List.range (8 * k + 8)).map (if p.reflectIn then crc.reverse else crc).getMsbD := by
  have hbyte : ∀ j ∈ List.range (k + 1), byteBits (p.read ((crc >>> (8 * if p.reflectIn then j else k - j)).setWidth 8)) =
      (List.range 8).map fun i => (if p.reflectIn then crc.reverse else crc).getMsbD (8 * j + i) := by
    intro j hj
    have hj' : j < k + 1 := List.mem_range.1 hj
    refine List.map_congr_left fun i hi => ?_
    have hi' : i < 8 := List.mem_range.1 hi
    unfold Params.read
    cases p.reflectIn with
    | true =>
      rw [if_pos rfl, if_pos rfl, if_pos rfl, reflectBits_reverse, BitVec.getMsbD_reverse, BitVec.getMsbD_reverse]
      simp [hi']
    | false =>
      rw [if_neg Bool.false_ne_true, if_neg Bool.false_ne_true, if_neg Bool.false_ne_true, BitVec.getMsbD_setWidth,
        BitVec.getMsbD_ushiftRight]
      have hin : i + (8 * k + 8) - 8 = 8 * (k - j) + (8 * j + i) := by omega
      have hlt : 8 * (k - j) + (8 * j + i) < 8 * k + 8 := by omega
      have hge : ¬8 * (k - j) + (8 * j + i) < 8 * (k - j) := by omega
      rw [hin, Nat.add_sub_cancel_left]
      simp [hlt, hge]
  rw [Params.bits, Params.crcBytes, List.flatMap_map, List.flatMap_congr hbyte, range_blocks, Nat.mul_succ]

/-- What a codeword leaves. -/
def Params.residue (p : Params k) (undef : BitVec (8 * k + 8)) : BitVec (8 * k + 8) :=
  p.finish undef (divSteps p.G (8 * k + 8) (if p.reflectIn then p.xorOut.reverse else p.xorOut))

theorem crc_codeword (p : Params k) (hsame : p.reflectIn = p.reflectOut) (undef undef' : BitVec (8 * k + 8))
    (msg : List (BitVec 8)) :
    crc1bitAatV2 p undef (msg ++ p.crcBytes (crc1bitAatV2 p undef' msg)) = p.residue undef := by
  have hbits : ∀ xs ys, p.bits (xs ++ ys) = p.bits xs ++ p.bits ys := fun xs ys => List.flatMap_append
  unfold crc1bitAatV2 Params.residue
  rw [byteLoop_eq, byteLoop_eq, hbits, feed_append, bits_crcBytes, feed_eq _ _ (by simp), packTop_bits, List.length_map,
    List.length_range]
  congr 2
  set r := feed p.G p.rinit (p.bits msg)
  unfold Params.finish
  rw [reflectBits_reverse, ← hsame]
  cases p.reflectIn with
  | true =>
    have hrev : (r.reverse ^^^ p.xorOut).reverse = r ^^^ p.xorOut.reverse := by
      refine BitVec.eq_of_getMsbD_eq fun i hi => ?_
      rw [BitVec.getMsbD_reverse, BitVec.getLsbD_xor, BitVec.getLsbD_reverse, BitVec.getMsbD_xor, BitVec.getMsbD_reverse]
    rw [if_pos rfl, if_pos rfl, if_pos rfl, hrev, ← BitVec.xor_assoc, BitVec.xor_self, BitVec.zero_xor]
  | false =>
    rw [if_neg Bool.false_ne_true, if_neg Bool.false_ne_true, if_neg Bool.false_ne_true, ← BitVec.xor_assoc,
      BitVec.xor_self, BitVec.zero_xor]

/-- **By any parameters of the catalogue** messages that differ in a burst no longer than the register have different
CRCs, and a message with its CRC behind it leaves a residue that does not depend on the message: so a codeword that
was damaged in such a burst does not leave it. -/
theorem errors_detected (q : Entry) (hq : q ∈ catalogue) (undef : BitVec (8 * q.1 + 8)) :
    (∀ msg msg' pre a b post, q.2.bits msg = pre ++ a ++ post → q.2.bits msg' = pre ++ b ++ post →
      a.length = b.length → a.length ≤ 8 * q.1 + 8 → a ≠ b → crc1bitAatV2 q.2 undef msg ≠ crc1bitAatV2 q.2 undef msg') ∧
    ∀ msg, crc1bitAatV2 q.2 undef (msg ++ q.2.crcBytes (crc1bitAatV2 q.2 undef msg)) = q.2.residue undef ∧
      ∀ received pre a b post, q.2.bits (msg ++ q.2.crcBytes (crc1bitAatV2 q.2 undef msg)) = pre ++ a ++ post →
        q.2.bits received = pre ++ b ++ post → a.length = b.length → a.length ≤ 8 * q.1 + 8 → a ≠ b →
        crc1bitAatV2 q.2 undef received ≠ q.2.residue undef := by
  obtain ⟨hodd, hsame⟩ := catalogue_odd q hq
  refine ⟨fun msg msg' pre a b post h h' hlen hshort hne => burst_detected q.2 hodd undef undef h h' hlen hshort hne, ?_⟩
  intro msg
  have hcode := crc_codeword q.2 hsame undef undef msg
  refine ⟨hcode, fun received pre a b post h h' hlen hshort hne => ?_⟩
  rw [← hcode]
  exact (burst_detected q.2 hodd undef undef h h' hlen hshort hne).symm

theorem errors_detected_usb :
    crc1bitAatV2 crc16Usb 0#16 [0x31#8, 0x32#8, 0x33#8] ≠ crc1bitAatV2 crc16Usb 0#16 [0x31#8, 0xcd#8, 0x33#8] :=
  (errors_detected ⟨1, crc16Usb⟩ (by simp [catalogue]) 0#16).1 _ _ (byteBits 0x8c#8) (byteBits 0x4c#8)
    (byteBits 0xb3#8) (byteBits 0xcc#8) (by decide +kernel) (by decide +kernel) rfl (by decide) (by decide)

end Libtarp.Crc
