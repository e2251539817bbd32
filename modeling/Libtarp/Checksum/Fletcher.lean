import Libtarp.Lib.Blocks
import Libtarp.Math
import Mathlib.Algebra.Group.Nat.Defs
import Mathlib.Data.Nat.Digits.Defs

/-!
# The Fletcher checksum (`hash/checksum/fletcher.hxx`)

The three instances differ in the word and in the accumulators. Words are copied from memory
in the order of a little-endian machine. The accumulators are kept below `2 ^ accBits`, and
`wrapped` tells whether an addition in `update` ever came to more; the program does not keep it.

`fletcher` is the checksum that the sums over all words, unbounded, define.
-/

namespace Libtarp.Fletcher

open Lib

inductive Kind
  | fletcher16
  | fletcher32
  | fletcher64
  deriving DecidableEq

/-- `sizeof(word)`. -/
def Kind.size : Kind → ℕ
  | .fletcher16 => 1
  | .fletcher32 => 2
  | .fletcher64 => 4

/-- The width of the accumulators. -/
def Kind.accBits : Kind → ℕ
  | .fletcher16 => 32
  | .fletcher32 => 64
  | .fletcher64 => 64

/-- `width_v<word>`. -/
def Kind.width (k : Kind) : ℕ := 8 * k.size

/-- `modulus`, which is also the largest word. -/
def Kind.modulus (k : Kind) : ℕ := 2 ^ k.width - 1

/-- `MAX_ADD`, by `find_max_num_additions_without_overflow`. -/
def Kind.maxAdd (k : Kind) : ℕ :=
  let maxT := 2 ^ k.accBits - 1
  match Math.sqrt k.accBits k.accBits ((maxT / k.modulus) <<< 1 % 2 ^ k.accBits) with
  | .ok n => n
  | .error _ => 0

/-- `struct fletcher_ctx`. -/
structure Ctx where
  cnt : ℕ
  joint : List UInt8
  deficit : ℕ
  sum1 : ℕ
  sum2 : ℕ
  wrapped : Bool

/-- A new context, with anything in `joint`. -/
def Ctx.new (joint : List UInt8) : Ctx :=
  { cnt := 0, joint := joint, deficit := 0, sum1 := 0, sum2 := 0, wrapped := false }

/-- Bytes copied into a word that is zero. -/
def word (bytes : List UInt8) : ℕ := Nat.ofDigits 256 (bytes.map UInt8.toNat)

/-- `memcpy(joint + l, bytes, ...)`. -/
def store (joint : List UInt8) (l : ℕ) (bytes : List UInt8) : List UInt8 :=
  joint.take l ++ bytes ++ joint.drop (l + bytes.length)

variable (k : Kind)

/-- `update`, of a word. -/
def update (ctx : Ctx) (value : ℕ) : Ctx :=
  let ctx := if ctx.cnt = k.maxAdd then
    { ctx with sum1 := ctx.sum1 % k.modulus, sum2 := ctx.sum2 % k.modulus, cnt := 0 } else ctx
  let sum1 := (ctx.sum1 + value) % 2 ^ k.accBits
  let sum2 := (ctx.sum2 + sum1) % 2 ^ k.accBits
  { ctx with
    sum1 := sum1
    sum2 := sum2
    cnt := ctx.cnt + 1
    wrapped := ctx.wrapped || 2 ^ k.accBits ≤ ctx.sum1 + value || 2 ^ k.accBits ≤ ctx.sum2 + sum1 }

/-- A sum reduced in `subtract`. -/
def reduce (sum : ℕ) : ℕ :=
  let twoM := k.modulus <<< 1
  if sum ≥ k.modulus then if sum < twoM then sum - k.modulus else sum % k.modulus else sum

/-- `subtract`. -/
def subtract (ctx : Ctx) (value : ℕ) : Ctx :=
  let sum1 := reduce k ctx.sum1
  let sum2 := reduce k ctx.sum2
  let sum2 := if sum2 ≥ sum1 then sum2 - sum1
    else
      let sum2 := (sum2 + k.modulus - sum1) % 2 ^ k.accBits
      if sum2 ≥ k.modulus then sum2 - k.modulus else sum2
  let sum1 := if sum1 > value then sum1 - value
    else
      let sum1 := (sum1 + k.modulus - value) % 2 ^ k.accBits
      if sum1 ≥ k.modulus then sum1 - k.modulus else sum1
  { ctx with sum1 := sum1, sum2 := sum2, cnt := 0 }

/-- `get_checksum`. -/
def getChecksum (ctx : Ctx) : Ctx × ℕ :=
  let sum1 := ctx.sum1 % k.modulus
  let sum2 := ctx.sum2 % k.modulus
  ({ ctx with sum1 := sum1, sum2 := sum2, cnt := 0 }, (sum1 ||| sum2 <<< k.width) % 2 ^ (2 * k.width))

/-- The loop over full words. -/
def updateWords : ℕ → Ctx → List UInt8 → Ctx × List UInt8
  | 0, ctx, buff => (ctx, buff)
  | n + 1, ctx, buff => updateWords n (update k ctx (word (buff.take k.size))) (buff.drop k.size)

/-- `update`, of a block, from where the words are processed. -/
def updateAligned (ctx : Ctx) (buff : List UInt8) : Ctx :=
  let (ctx, buff) := updateWords k (buff.length / k.size) ctx buff
  if buff.length = 0 then ctx
  else
    let ctx := update k ctx (word buff)
    { ctx with joint := store ctx.joint 0 buff, deficit := k.size - buff.length }

/-- `update`, of a block. -/
def updateBlock (ctx : Ctx) (buff : List UInt8) : Ctx :=
  if ctx.deficit > 0 ∧ buff.length > 0 then
    let l := k.size - min k.size ctx.deficit
    if buff.length < ctx.deficit then
      let oldval := word (ctx.joint.take l)
      let ctx := { ctx with joint := store ctx.joint l buff, deficit := ctx.deficit - buff.length }
      let newval := word (ctx.joint.take (k.size - ctx.deficit))
      update k (subtract k ctx oldval) newval
    else
      let oldval := word (ctx.joint.take l)
      let ctx := { ctx with joint := store ctx.joint l (buff.take ctx.deficit) }
      let newval := word (ctx.joint.take k.size)
      let deficit := ctx.deficit
      let ctx := { update k (subtract k ctx oldval) newval with deficit := 0 }
      if (buff.drop deficit).length = 0 then ctx else updateAligned k ctx (buff.drop deficit)
  else updateAligned k ctx buff

/-! ## The checksum of a message -/

/-- The words of a message; the last is filled up with zero bytes. -/
def words (message : List UInt8) : List ℕ :=
  (blocks k.size message).map word ++ if rest k.size message = [] then [] else [word (rest k.size message)]

/-- The first sum, and the second: the first after every word, added up. -/
def sum1 (ws : List ℕ) : ℕ := ws.sum

def sum2 : List ℕ → ℕ
  | [] => 0
  | w :: ws => (ws.length + 1) * w + sum2 ws

def fletcher (message : List UInt8) : ℕ :=
  sum2 (words k message) % k.modulus * 2 ^ k.width + sum1 (words k message) % k.modulus

end Libtarp.Fletcher
