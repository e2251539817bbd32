import Libtarp.Checksum.Fletcher

/-!
# The Adler-32 checksum (`hash/checksum/adler32.hxx`, `hash/adler32.cxx`)

The accumulators are kept below `2 ^ 32`, and `wrapped` tells whether an addition in `update` ever came to more; the
program does not keep it. A buffer is the list of its bytes, so that its length is the `len` that the program counts down.

`adler32` is the checksum that the sums over all bytes, unbounded, define.
-/

namespace Libtarp.Adler

open Fletcher (sum1 sum2)

/-- `MOD_ADLER`. -/
def modAdler : ℕ := 65521

/-- `MAX_ADD`. -/
def maxAdd : ℕ := 5552

def modsub (x : ℕ) : ℕ := if x < modAdler then x else x - modAdler

/-- `struct adler32_ctx`. -/
@[ext] structure Ctx where
  sum1 : ℕ
  sum2 : ℕ
  wrapped : Bool
  deriving DecidableEq, Repr

def Ctx.new : Ctx := { sum1 := 1, sum2 := 0, wrapped := false }

/-- `ADD1`. -/
def add1 (ctx : Ctx) (byte : UInt8) : Ctx :=
  let sum1 := (ctx.sum1 + byte.toNat) % 2 ^ 32
  let sum2 := (ctx.sum2 + sum1) % 2 ^ 32
  { sum1 := sum1
    sum2 := sum2
    wrapped := ctx.wrapped || 2 ^ 32 ≤ ctx.sum1 + byte.toNat || 2 ^ 32 ≤ ctx.sum2 + sum1 }

/-- `ADD16`. -/
def add16 (ctx : Ctx) (buff : List UInt8) : Ctx := (buff.take 16).foldl add1 ctx

def reduce (ctx : Ctx) : Ctx := { ctx with sum1 := ctx.sum1 % modAdler, sum2 := ctx.sum2 % modAdler }

/-- One byte by itself. -/
def updateByte (ctx : Ctx) (byte : UInt8) : Ctx :=
  let sum1 := modsub ((ctx.sum1 + byte.toNat) % 2 ^ 32)
  let sum2 := modsub ((ctx.sum2 + sum1) % 2 ^ 32)
  { sum1 := sum1
    sum2 := sum2
    wrapped := ctx.wrapped || 2 ^ 32 ≤ ctx.sum1 + byte.toNat || 2 ^ 32 ≤ ctx.sum2 + sum1 }

/-- The loop of `BULKSZ` passes over 16 bytes. -/
def adds16 : ℕ → Ctx → List UInt8 → Ctx × List UInt8
  | 0, ctx, buff => (ctx, buff)
  | n + 1, ctx, buff => adds16 n (add16 ctx buff) (buff.drop 16)

theorem adds16_snd (n : ℕ) (ctx : Ctx) (buff : List UInt8) : (adds16 n ctx buff).2 = buff.drop (16 * n) := by
  induction n generalizing ctx buff with
  | zero => rfl
  | succ n ih =>
    rw [adds16, ih, List.drop_drop]
    congr 1
    omega

/-- The loop over blocks of `MAX_ADD` bytes. -/
def bulks (ctx : Ctx) (buff : List UInt8) : Ctx × List UInt8 :=
  if buff.length ≥ maxAdd then
    bulks (reduce (adds16 (maxAdd >>> 4) ctx buff).1) (adds16 (maxAdd >>> 4) ctx buff).2
  else (ctx, buff)
termination_by buff.length
decreasing_by
  rw [adds16_snd, List.length_drop]
  simp only [maxAdd] at *
  omega

/-- The loop over 16 bytes of what is left. -/
def sixteens (ctx : Ctx) (buff : List UInt8) : Ctx × List UInt8 :=
  if buff.length ≥ 16 then sixteens (add16 ctx buff) (buff.drop 16) else (ctx, buff)
termination_by buff.length
decreasing_by
  rw [List.length_drop]
  omega

/-- `update`, of two bytes or more. -/
def updateMany (ctx : Ctx) (buff : List UInt8) : Ctx :=
  if buff.length < 16 then
    let ctx := buff.foldl add1 ctx
    { ctx with sum1 := modsub ctx.sum1, sum2 := ctx.sum2 % modAdler }
  else
    let (ctx, buff) := bulks ctx buff
    if buff.length > 0 then
      let (ctx, buff) := sixteens ctx buff
      reduce (buff.foldl add1 ctx)
    else ctx

def update (ctx : Ctx) (buff : List UInt8) : Ctx :=
  match buff with
  | [byte] => updateByte ctx byte
  | [] => ctx
  | buff => updateMany ctx buff

/-- `get_checksum`. -/
def getChecksum (ctx : Ctx) : ℕ := (ctx.sum2 <<< 16) % 2 ^ 32 ||| ctx.sum1

/-- `roll`: the byte `entering` comes in, and `leaving` goes out. The first sum is computed in 32 bits, the second in 64
from where the old contribution is subtracted. -/
def roll (ctx : Ctx) (windowSize : UInt32) (entering leaving : UInt8) : Ctx :=
  let sum1 := (ctx.sum1 + modAdler + entering.toNat + (2 ^ 32 - leaving.toNat)) % 2 ^ 32 % modAdler
  let oldContrib := leaving.toNat * windowSize.toNat % 2 ^ 64 % modAdler
  let sum2 := ((ctx.sum2 + sum1 + modAdler) % 2 ^ 32 + (2 ^ 64 - oldContrib) + (2 ^ 64 - 1)) % 2 ^ 64 % modAdler
  { ctx with sum1 := sum1, sum2 := sum2 }

/-! ## The checksum of a message -/

/-- The first sum starts at 1 and has every byte added; the second is what the first came to after every byte, added
up. -/
def adler32 (message : List UInt8) : ℕ :=
  let bytes := message.map UInt8.toNat
  (bytes.length + sum2 bytes) % modAdler * 2 ^ 16 + (1 + sum1 bytes) % modAdler

/-- Of the word "Wikipedia". -/
example : adler32 [0x57, 0x69, 0x6b, 0x69, 0x70, 0x65, 0x64, 0x69, 0x61] = 0x11e60398 := by decide

end Libtarp.Adler
