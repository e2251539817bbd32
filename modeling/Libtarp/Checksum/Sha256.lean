import Libtarp.Lib.Bytes
import Libtarp.Lib.Blocks

/-!
# SHA-256 (`hash/checksum/sha256.hxx`, `hash/sha/sha256.cxx`)

The machine is little-endian: `be32toh` and `htobe64` turn the bytes of a value round. A pointer
to a message is what is left of the message from there on.
-/

namespace Libtarp.Sha256

open Lib

/-- `word_t`. -/
abbrev Word := BitVec 32

/-- `sha256_constants`. -/
def constants : List Word :=
  [0x428a2f98, 0x71374491, 0xb5c0fbcf, 0xe9b5dba5, 0x3956c25b, 0x59f111f1,
   0x923f82a4, 0xab1c5ed5, 0xd807aa98, 0x12835b01, 0x243185be, 0x550c7dc3,
   0x72be5d74, 0x80deb1fe, 0x9bdc06a7, 0xc19bf174, 0xe49b69c1, 0xefbe4786,
   0x0fc19dc6, 0x240ca1cc, 0x2de92c6f, 0x4a7484aa, 0x5cb0a9dc, 0x76f988da,
   0x983e5152, 0xa831c66d, 0xb00327c8, 0xbf597fc7, 0xc6e00bf3, 0xd5a79147,
   0x06ca6351, 0x14292967, 0x27b70a85, 0x2e1b2138, 0x4d2c6dfc, 0x53380d13,
   0x650a7354, 0x766a0abb, 0x81c2c92e, 0x92722c85, 0xa2bfe8a1, 0xa81a664b,
   0xc24b8b70, 0xc76c51a3, 0xd192e819, 0xd6990624, 0xf40e3585, 0x106aa070,
   0x19a4c116, 0x1e376c08, 0x2748774c, 0x34b0bcb5, 0x391c0cb3, 0x4ed8aa4a,
   0x5b9cca4f, 0x682e6ff3, 0x748f82ee, 0x78a5636f, 0x84c87814, 0x8cc70208,
   0x90befffa, 0xa4506ceb, 0xbef9a3f7, 0xc67178f2]

/-- The eight words of the hash, and the working variables. -/
structure Words where
  a : Word
  b : Word
  c : Word
  d : Word
  e : Word
  f : Word
  g : Word
  h : Word
  deriving DecidableEq

/-- `sha256_ctx`. -/
structure Ctx where
  buff : Buffer 128
  offset : ℕ
  msglen : ℕ
  hash : Words

/-- The hash a context starts with. -/
def initialHash : Words where
  a := 0x6a09e667
  b := 0xbb67ae85
  c := 0x3c6ef372
  d := 0xa54ff53a
  e := 0x510e527f
  f := 0x9b05688c
  g := 0x1f83d9ab
  h := 0x5be0cd19

/-- A new context, with anything in `buff`. -/
def Ctx.new (buff : Buffer 128) : Ctx := { buff := buff, offset := 0, msglen := 0, hash := initialHash }

/-! ## `process_block` -/

/-- `rotate_right`. -/
def rotateRight (n : ℕ) (x : Word) : Word := x >>> n ||| x <<< (32 - n)

def sum0 (x : Word) : Word := rotateRight 2 x ^^^ rotateRight 13 x ^^^ rotateRight 22 x

def sum1 (x : Word) : Word := rotateRight 6 x ^^^ rotateRight 11 x ^^^ rotateRight 25 x

def op0 (x : Word) : Word := rotateRight 7 x ^^^ rotateRight 18 x ^^^ x >>> 3

def op1 (x : Word) : Word := rotateRight 17 x ^^^ rotateRight 19 x ^^^ x >>> 10

def majority (x y z : Word) : Word := (x &&& y) ^^^ (x &&& z) ^^^ (y &&& z)

def choose (x y z : Word) : Word := (x &&& y) ^^^ (~~~x &&& z)

/-- `to_hbo`, of a word. -/
def toHbo (x : Word) : Word := BitVec.ofNat 32 (swap 4 x.toNat)

/-- The words that are copied from a block. -/
def blockWords : List UInt8 → List Word
  | b₀ :: b₁ :: b₂ :: b₃ :: data => BitVec.ofNat 32 (leValue [b₀, b₁, b₂, b₃]) :: blockWords data
  | _ => []

/-- A word that has been stored in the schedule. -/
def wordAt (sched : List Word) (i : ℕ) : Word := sched.getD i 0

/-- The loop that fills the schedule up, from word `i` on. -/
def schedule : ℕ → ℕ → List Word → List Word
  | 0, _, sched => sched
  | n + 1, i, sched =>
    schedule n (i + 1) (sched ++
      [op1 (wordAt sched (i - 2)) + wordAt sched (i - 7) + op0 (wordAt sched (i - 15)) + wordAt sched (i - 16)])

/-- `DO_ONE`. -/
def doOne (sched : List Word) (w : Words) (i : ℕ) : Words :=
  let T1 := w.h + sum1 w.e + choose w.e w.f w.g + wordAt constants i + wordAt sched i
  let T2 := sum0 w.a + majority w.a w.b w.c
  { a := T1 + T2, b := w.a, c := w.b, d := w.c, e := w.d + T1, f := w.e, g := w.f, h := w.g }

/-- The intermediate hash value. -/
def Words.add (x y : Words) : Words where
  a := x.a + y.a
  b := x.b + y.b
  c := x.c + y.c
  d := x.d + y.d
  e := x.e + y.e
  f := x.f + y.f
  g := x.g + y.g
  h := x.h + y.h

/-- `process_block`. -/
def processBlock (ctx : Ctx) (data : List UInt8) : Ctx :=
  let sched := (blockWords (data.take 64)).map toHbo
  let sched := schedule 48 16 sched
  { ctx with hash := ctx.hash.add ((List.range 64).foldl (doOne sched) ctx.hash) }

/-! ## `process` -/

/-- The lambda `process_one`, which gives the rest of the data too. -/
def processOne (ctx : Ctx) (data : List UInt8) : Ctx × List UInt8 :=
  let n := min (64 - ctx.offset) data.length
  let ctx := { ctx with
    buff := ctx.buff.write ctx.offset (data.take n)
    msglen := (ctx.msglen + n) % 2 ^ 64
    offset := ctx.offset + n }
  if ctx.offset = 64 then ({ processBlock ctx ctx.buff.bytes with offset := 0 }, data.drop n) else (ctx, data.drop n)

/-- The loop over the full blocks. -/
def processFull (ctx : Ctx) (data : List UInt8) : Ctx × List UInt8 :=
  if _h : data.length ≥ 64 then
    processFull (processBlock { ctx with msglen := (ctx.msglen + 64) % 2 ^ 64 } data) (data.drop 64)
  else (ctx, data)
termination_by data.length
decreasing_by
  rw [List.length_drop]
  omega

/-- `to_nbo`, of a length. -/
def toNbo (x : ℕ) : ℕ := swap 8 x

/-- `process_last`. -/
def processLast (ctx : Ctx) : Ctx :=
  let chunklen := ctx.msglen % 64
  let buff := ctx.buff.write chunklen (List.replicate (128 - chunklen) 0)
  let buff := buff.write chunklen [0x80]
  let offset := if chunklen < 56 then 56 else 64 + 56
  let len := toNbo (ctx.msglen <<< 3 % 2 ^ 64)
  let buff := buff.write offset (leBytes 8 len)
  let ctx := processBlock { ctx with buff := buff } buff.bytes
  if offset > 64 then processBlock ctx (buff.bytes.drop 64) else ctx

/-- `process`. -/
def process (ctx : Ctx) (data : List UInt8) (lastChunk : Bool) : Ctx :=
  let (ctx, data) := if ctx.offset > 0 then processOne ctx data else (ctx, data)
  let (ctx, data) := processFull ctx data
  let ctx := if data.length > 0 then (processOne ctx data).1 else ctx
  if lastChunk then processLast ctx else ctx

/-! ## The digest -/

/-- The hash in memory. -/
def Words.bytes (w : Words) : List UInt8 :=
  [w.a, w.b, w.c, w.d, w.e, w.f, w.g, w.h].flatMap fun x => leBytes 4 x.toNat

/-- `utils::str::to_nbo`, of a buffer of words. -/
def wordsToNbo : List UInt8 → List UInt8
  | b₀ :: b₁ :: b₂ :: b₃ :: buff => leBytes 4 (swap 4 (leValue [b₀, b₁, b₂, b₃])) ++ wordsToNbo buff
  | buff => buff

/-- `get_hashbytes`. -/
def getHashbytes (ctx : Ctx) : List UInt8 := wordsToNbo ctx.hash.bytes

end Libtarp.Sha256
