import Libtarp.Lib.Bytes
import Libtarp.Lib.Blocks

/-!
# MD5 (`hash/checksum/md5sum.h`, `hash/md5/md5sum.c`)

The machine is little-endian: `le32toh` and `htole64` leave a value as it is.
-/

namespace Libtarp.Md5

open Lib

abbrev Word := BitVec 32

/-- The four words of the hash, and the registers. -/
structure Words where
  a : Word
  b : Word
  c : Word
  d : Word
  deriving DecidableEq

/-- `md5_context`. -/
structure Ctx where
  hash : Words
  block : Buffer 64
  cursor : ℕ
  inputLen : ℕ
  cursor_lt : cursor < 64

/-- `MD5_newctx`, with anything in `block`. -/
def newctx (block : Buffer 64) : Ctx where
  hash := { a := 0x67452301, b := 0xefcdab89, c := 0x98badcfe, d := 0x10325476 }
  block := block
  cursor := 0
  inputLen := 0
  cursor_lt := by decide

/-! ## The trailer -/

/-- `find_congruent_value`. -/
def findCongruentValue (v b m : BitVec 32) : BitVec 32 :=
  if v = b then v + m
  else if v < b then b
  else v + (m - (v % m - b % m))

/-- `find_padding`. -/
def findPadding (len : ℕ) : ℕ :=
  (findCongruentValue (BitVec.ofNat 32 len) (448 >>> 3) (512 >>> 3) - BitVec.ofNat 32 len).toNat

/-- `get_trailer`. -/
def getTrailer (ctx : Ctx) : List UInt8 :=
  let padding := findPadding ctx.cursor
  let trailersz := padding + 8
  let trailer := (Buffer.zeros trailersz).write 0 [0x80]
  let trailer := trailer.write 1 (List.replicate (trailersz - 8 - 1) 0)
  let l := ctx.inputLen <<< 3 % 2 ^ 64
  (trailer.write (trailersz - 8) (leBytes 8 l)).bytes

/-! ## `MD5_process_block` -/

/-- `le32toh`. -/
def le32toh (x : ℕ) : ℕ := x

/-- `decode_block_le32toh`. -/
def decodeBlock : List UInt8 → List UInt8
  | b₀ :: b₁ :: b₂ :: b₃ :: block => leBytes 4 (le32toh (leValue [b₀, b₁, b₂, b₃])) ++ decodeBlock block
  | block => block

/-- A word of the block. -/
def wordAt (block : List UInt8) (idx : ℕ) : Word := BitVec.ofNat 32 (leValue ((block.drop (4 * idx)).take 4))

/-- `transformation_inputs`: `idx`, `shift` and `sinv`. -/
def transformationInputs : List (ℕ × ℕ × Word) :=
  [(0, 7, 0xd76aa478), (1, 12, 0xe8c7b756), (2, 17, 0x242070db), (3, 22, 0xc1bdceee),
   (4, 7, 0xf57c0faf), (5, 12, 0x4787c62a), (6, 17, 0xa8304613), (7, 22, 0xfd469501),
   (8, 7, 0x698098d8), (9, 12, 0x8b44f7af), (10, 17, 0xffff5bb1), (11, 22, 0x895cd7be),
   (12, 7, 0x6b901122), (13, 12, 0xfd987193), (14, 17, 0xa679438e), (15, 22, 0x49b40821),
   (1, 5, 0xf61e2562), (6, 9, 0xc040b340), (11, 14, 0x265e5a51), (0, 20, 0xe9b6c7aa),
   (5, 5, 0xd62f105d), (10, 9, 0x2441453), (15, 14, 0xd8a1e681), (4, 20, 0xe7d3fbc8),
   (9, 5, 0x21e1cde6), (14, 9, 0xc33707d6), (3, 14, 0xf4d50d87), (8, 20, 0x455a14ed),
   (13, 5, 0xa9e3e905), (2, 9, 0xfcefa3f8), (7, 14, 0x676f02d9), (12, 20, 0x8d2a4c8a),
   (5, 4, 0xfffa3942), (8, 11, 0x8771f681), (11, 16, 0x6d9d6122), (14, 23, 0xfde5380c),
   (1, 4, 0xa4beea44), (4, 11, 0x4bdecfa9), (7, 16, 0xf6bb4b60), (10, 23, 0xbebfbc70),
   (13, 4, 0x289b7ec6), (0, 11, 0xeaa127fa), (3, 16, 0xd4ef3085), (6, 23, 0x4881d05),
   (9, 4, 0xd9d4d039), (12, 11, 0xe6db99e5), (15, 16, 0x1fa27cf8), (2, 23, 0xc4ac5665),
   (0, 6, 0xf4292244), (7, 10, 0x432aff97), (14, 15, 0xab9423a7), (5, 21, 0xfc93a039),
   (12, 6, 0x655b59c3), (3, 10, 0x8f0ccc92), (10, 15, 0xffeff47d), (1, 21, 0x85845dd1),
   (8, 6, 0x6fa87e4f), (15, 10, 0xfe2ce6e0), (6, 15, 0xa3014314), (13, 21, 0x4e0811a1),
   (4, 6, 0xf7537e82), (11, 10, 0xbd3af235), (2, 15, 0x2ad7d2bb), (9, 21, 0xeb86d391)]

/-- `lrotu32`. -/
def lrotu32 (x : Word) (n : ℕ) : Word := x <<< n ||| x >>> (32 - n)

/-- The switch in the loop. -/
def transform : ℕ → Word → Word → Word → Word
  | 0, b, c, d => (b &&& c) ||| (~~~b &&& d)
  | 1, b, c, d => (b &&& d) ||| (c &&& ~~~d)
  | 2, b, c, d => b ^^^ c ^^^ d
  | _, b, c, d => c ^^^ (b ||| ~~~d)

/-- A round of the loop. -/
def step (block : List UInt8) (w : Words) (i : ℕ) : Words :=
  let (idx, shift, sinv) := transformationInputs.getD i (0, 0, 0)
  let a := w.a + transform (i >>> 4) w.b w.c w.d
  let a := a + (wordAt block idx + sinv)
  let a := lrotu32 a shift
  let a := a + w.b
  { a := w.d, b := a, c := w.b, d := w.c }

def Words.add (x y : Words) : Words where
  a := x.a + y.a
  b := x.b + y.b
  c := x.c + y.c
  d := x.d + y.d

/-- `MD5_process_block`. -/
def processBlock (ctx : Ctx) : Ctx :=
  let block := decodeBlock ctx.block.bytes
  { ctx with
    hash := ctx.hash.add ((List.range 64).foldl (step block) ctx.hash)
    block := ctx.block.write 0 block }

/-! ## `MD5_digest` -/

/-- `MD5_digest_part`. -/
def digestPart (ctx : Ctx) (message : List UInt8) : Ctx :=
  if _hm : 0 < message.length then
    let bytes := min (64 - ctx.cursor) message.length
    let block := ctx.block.write ctx.cursor (message.take bytes)
    if h : (ctx.cursor + bytes) &&& 64 ≠ 0 then
      digestPart { processBlock { ctx with block := block } with cursor := 0, cursor_lt := by decide } (message.drop bytes)
    else
      have hlt : ctx.cursor + bytes < 64 := by
        have hle : ctx.cursor + bytes ≤ 64 := by have := ctx.cursor_lt; omega
        rcases Nat.lt_or_ge (ctx.cursor + bytes) 64 with hlt | hge
        · exact hlt
        · exact absurd (by rw [Nat.le_antisymm hle hge]; decide) h
      digestPart { ctx with block := block, cursor := ctx.cursor + bytes, cursor_lt := hlt } (message.drop bytes)
  else ctx
termination_by message.length
decreasing_by all_goals
  have := ctx.cursor_lt
  rw [List.length_drop]
  omega

/-- `MD5_digest`. -/
def digest (ctx : Ctx) (message : List UInt8) (isfinal : Bool) : Ctx :=
  let ctx := if message.length > 0 then
      let ctx := digestPart ctx message
      { ctx with inputLen := (ctx.inputLen + message.length) % 2 ^ 64 }
    else ctx
  if isfinal then digestPart ctx (getTrailer ctx) else ctx

/-- `MD5_dump`. -/
def dump (ctx : Ctx) : List UInt8 :=
  [ctx.hash.a, ctx.hash.b, ctx.hash.c, ctx.hash.d].flatMap fun x => leBytes 4 x.toNat

end Libtarp.Md5
