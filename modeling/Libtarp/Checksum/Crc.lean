import Libtarp.Lib.Division
import Libtarp.Bits.Permutations

/-!
# Cyclic redundancy checks (`hash/crc/crc.hxx`)

The register has `8 * k + 8` bits. `crc1bitAatV1` is the long division, with as many zero bits
appended to the message as the register has; `crc1bitAatV2` brings each byte in at the top of the
register and needs none; `makeCrc1byteAat` looks the work on a byte up in a table.

The three leave the same register: a step of the division is linear, and a byte that is brought in
at the top is the same byte brought in at the bottom and moved up. But `crc_1bit_aat_v1` calls
`reflect_bits` without its namespace, so that the template has no instances (`crc_agree`).
-/

namespace Libtarp.Crc

open Lib Bits

variable {k : ℕ}

/-- `MSB`. -/
def MSB (input : BitVec (8 * k + 8)) : BitVec 8 := (input >>> (8 * k) &&& 255#(8 * k + 8)).setWidth 8

/-- `msb`. -/
def msb (byte : BitVec 8) : BitVec 8 := (128#8 &&& byte) >>> 7

/-- A namespace of `params`. -/
structure Params (k : ℕ) where
  G : BitVec (8 * k + 8)
  rinit : BitVec (8 * k + 8)
  xorOut : BitVec (8 * k + 8)
  reflectIn : Bool
  reflectOut : Bool

/-- `crc_context`. -/
structure Context (k : ℕ) where
  r : BitVec (8 * k + 8)
  initialized : Bool

def Context.new : Context k := { r := 0#_, initialized := false }

/-- A byte of the message, as it is read. -/
def Params.read (p : Params k) (byte : BitVec 8) : BitVec 8 := if p.reflectIn then reflectBits 0#8 byte 8 else byte

/-- The register, as it is returned. -/
def Params.finish (p : Params k) (undef r : BitVec (8 * k + 8)) : BitVec (8 * k + 8) :=
  (if p.reflectOut then reflectBits undef r (8 * k + 8) else r) ^^^ p.xorOut

/-! ## A bit at a time -/

/-- The loop over the bits of a byte that is in the register. -/
def bitLoop (G r : BitVec (8 * k + 8)) : ℕ → BitVec (8 * k + 8)
  | 0 => r
  | i + 1 =>
    let r := bitLoop G r i
    let mustSubtract := msb (MSB r) = 1#8
    let r := r <<< 1
    if mustSubtract then r ^^^ G else r

/-- The loop over a message, without a trailer. -/
def byteLoop (p : Params k) (r : BitVec (8 * k + 8)) (msg : List (BitVec 8)) : BitVec (8 * k + 8) :=
  msg.foldl (fun r byte => bitLoop p.G (r ^^^ (p.read byte).setWidth (8 * k + 8) <<< (8 * k)) 8) r

/-- `crc_1bit_aat_v2`. -/
def crc1bitAatV2 (p : Params k) (undef : BitVec (8 * k + 8)) (msg : List (BitVec 8)) : BitVec (8 * k + 8) :=
  p.finish undef (byteLoop p p.rinit msg)

/-- The register of a context when a call starts. -/
def Context.start (p : Params k) (ctx : Context k) : BitVec (8 * k + 8) :=
  if ctx.initialized then ctx.r else p.rinit

/-- `make_crc_1bit_aat`. -/
def makeCrc1bitAat (p : Params k) (undef : BitVec (8 * k + 8)) (msg : List (BitVec 8)) (ctx : Context k) :
    BitVec (8 * k + 8) × Context k :=
  let r := byteLoop p (ctx.start p) msg
  (p.finish undef r, { r := r, initialized := true })

/-! ## The long division -/

/-- The loop over the bits of a byte that is shifted into the register. -/
def shiftLoop (G r : BitVec (8 * k + 8)) (byte : BitVec 8) : ℕ → BitVec (8 * k + 8)
  | 0 => r
  | i + 1 =>
    let r := shiftLoop G r byte i
    let mustSubtract := msb (MSB r) = 1#8
    let r := r <<< 1
    let msgBit := byte >>> (7 - i) &&& 1#8
    let r := r ||| msgBit.setWidth (8 * k + 8)
    if mustSubtract then r ^^^ G else r

/-- The loop over a message or a trailer, with what is left of the initializer. -/
def trailerLoop (G : BitVec (8 * k + 8)) (read : BitVec 8 → BitVec 8) (r initializer : BitVec (8 * k + 8)) :
    List (BitVec 8) → BitVec (8 * k + 8) × BitVec (8 * k + 8)
  | [] => (r, initializer)
  | byte :: msg =>
    let nextByte := read byte
    if initializer ≠ 0#_ then
      trailerLoop G read (shiftLoop G r (nextByte ^^^ MSB initializer) 8) (initializer <<< 8) msg
    else trailerLoop G read (shiftLoop G r nextByte 8) initializer msg

/-- What `reflect_bits` without a namespace stands for in `crc_1bit_aat_v1`: nothing. None of the namespaces around the
template declares it, and the type of a register, an integer, adds none to these. -/
def unqualifiedReflectBits : Option (BitVec (8 * k + 8) → BitVec (8 * k + 8)) := none

/-- `crc_1bit_aat_v1`, by what `reflect_bits` stands for there. Without it there is no instance of the template, for no
parameters: the branch that calls it is compiled in any case. -/
def crc1bitAatV1 (reflect : Option (BitVec (8 * k + 8) → BitVec (8 * k + 8))) (p : Params k) (msg : List (BitVec 8)) :
    Option (BitVec (8 * k + 8)) :=
  reflect.map fun reflectBits =>
    let (r, initializer) := trailerLoop p.G p.read 0#_ p.rinit msg
    let (r, _) := trailerLoop p.G p.read r initializer (List.replicate (k + 1) 0#8)
    (if p.reflectOut then reflectBits r else r) ^^^ p.xorOut

/-! ## A byte at a time -/

/-- `make_lookup_table`. -/
def makeLookupTable (G : BitVec (8 * k + 8)) : Vector (BitVec (8 * k + 8)) 256 :=
  Vector.ofFn fun byte => bitLoop G (BitVec.ofNat (8 * k + 8) byte <<< (8 * k)) 8

/-- The place in the table for a byte of the message. -/
def index (nextByte : BitVec 8) (r : BitVec (8 * k + 8)) : Fin 256 :=
  ⟨(nextByte.setWidth (8 * k + 8) ^^^ r >>> (8 * k)).toNat, by
    have hr : (r >>> (8 * k)).toNat < 2 ^ 8 := by
      rw [BitVec.toNat_ushiftRight, Nat.shiftRight_eq_div_pow]
      apply Nat.div_lt_of_lt_mul
      rw [← Nat.pow_add]
      exact r.isLt
    have hbyte : (nextByte.setWidth (8 * k + 8)).toNat < 2 ^ 8 := by
      rw [BitVec.toNat_setWidth]
      exact Nat.lt_of_le_of_lt (Nat.mod_le ..) nextByte.isLt
    rw [BitVec.toNat_xor]
    exact Nat.xor_lt_two_pow hbyte hr⟩

/-- `make_crc_1byte_aat`. -/
def makeCrc1byteAat (p : Params k) (undef : BitVec (8 * k + 8)) (msg : List (BitVec 8)) (ctx : Context k)
    (t : Vector (BitVec (8 * k + 8)) 256) : BitVec (8 * k + 8) × Context k :=
  let r := msg.foldl (fun (r : BitVec _) byte => r <<< 8 ^^^ t.get (index (p.read byte) r)) (ctx.start p)
  (p.finish undef r, { r := r, initialized := true })

end Libtarp.Crc
