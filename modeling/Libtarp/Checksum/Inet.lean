import Libtarp.Common
import Mathlib.Algebra.Group.Nat.Defs
import Mathlib.Algebra.GroupWithZero.Nat

/-!
# The Internet checksum (`hash/checksum/inet.hxx`, `hash/inet_checksum.cxx`)

Words are copied from memory in the order of a little-endian machine. A pointer into a buffer is
what is left of the buffer from there on. The loop of `update` counts in 32 bits, up to a
number of 64 bits; a read past the end of a buffer ends the call.

`rfc1071` is the one's complement of the one's complement sum of the words of a message.
-/

namespace Libtarp.Inet

/-- The ways a call ends without returning. -/
inductive Failure
  | invalidArgument
  | pastEnd
  deriving DecidableEq

/-- `struct inetcksum_ctx`. -/
structure Ctx where
  sum : ℕ
  truncated : Bool
  joint₀ : UInt8
  joint₁ : UInt8

/-- A new context, with anything in `joint`. -/
def Ctx.new (joint₀ joint₁ : UInt8) : Ctx := { sum := 0, truncated := false, joint₀ := joint₀, joint₁ := joint₁ }

/-- Two bytes copied into a word. -/
def word (a b : UInt8) : ℕ := a.toNat + 256 * b.toNat

/-- `ctx.sum += v`. -/
def Ctx.add (ctx : Ctx) (v : ℕ) : Ctx := { ctx with sum := (ctx.sum + v) % 2 ^ 32 }

/-! ## `update` -/

/-- The loop over the words of a block. -/
def addWords (n i : ℕ) (ctx : Ctx) (buff : List UInt8) : Except Failure (Ctx × List UInt8) :=
  if i < n then
    match buff with
    | a :: b :: buff => addWords n ((i + 1) % 2 ^ 32) (ctx.add (word a b)) buff
    | _ => .error .pastEnd
  else .ok (ctx, buff)

/-- `update`, from where the words are added. -/
def updateAligned (ctx : Ctx) (buff : List UInt8) : Except Failure Ctx := do
  let n := buff.length >>> 1
  let (ctx, left) ← addWords n 0 ctx buff
  if buff.length &&& 1 = 1 then
    match left with
    | v :: _ => pure { ctx.add v.toNat with truncated := true, joint₀ := v }
    | [] => .error .pastEnd
  else pure ctx

/-- `update`. -/
def update (ctx : Ctx) (buff : List UInt8) : Except Failure Ctx :=
  match ctx.truncated, buff with
  | true, b :: buff =>
    let prev := word ctx.joint₀ ctx.joint₁
    let next := word ctx.joint₀ b
    let next := (next + 2 ^ 16 - prev) % 2 ^ 16
    updateAligned { ctx.add next with truncated := false, joint₀ := 0, joint₁ := 0 } buff
  | _, _ => updateAligned ctx buff

/-- The blocks of a message, one after the other. -/
def updates (ctx : Ctx) (chunks : List (List UInt8)) : Except Failure Ctx := chunks.foldlM update ctx

/-! ## `get_checksum` -/

/-- `fold_sum`. -/
def foldSum (sum : ℕ) : ℕ :=
  if _h : sum >>> 16 ≠ 0 then foldSum ((sum &&& 65535) + (sum >>> 16)) else sum
termination_by sum
decreasing_by
  have hmod : sum &&& 65535 = sum % 65536 := Nat.and_two_pow_sub_one_eq_mod sum 16
  omega

/-- `get_checksum`. -/
def getChecksum (ctx : Ctx) : ℕ := 65535 - foldSum ctx.sum

/-! ## `update_change` -/

/-- The old contribution of a word taken out, and the new one put in. -/
def Ctx.change (ctx : Ctx) (old new : ℕ) : Ctx := (ctx.add (65535 - old)).add new

/-- The lambda `add` of `update_change<T>`, for a value of `n` words. -/
def addValue : ℕ → Ctx → ℕ → Ctx
  | 0, ctx, _ => ctx
  | n + 1, ctx, value => addValue n (ctx.add (value % 2 ^ 16)) (value >>> 16)

/-- `update_change<T>`, for a type of `n` words. -/
def updateChangeValue (n : ℕ) (ctx : Ctx) (oldValue newValue : ℕ) : Ctx :=
  addValue n (addValue n ctx (2 ^ (16 * n) - 1 - oldValue)) newValue

/-- The loop of `update_change`. -/
def changeWords : ℕ → Ctx → List UInt8 → List UInt8 → Except Failure Ctx
  | 0, ctx, _, _ => .ok ctx
  | n + 1, ctx, a :: b :: old, c :: d :: p => changeWords n (ctx.change (word a b) (word c d)) old p
  | _, _, _, _ => .error .pastEnd

/-- `update_change`, where the change starts at an odd offset. -/
def changeHead (ctx : Ctx) (buff : List UInt8) (changeOffset : ℕ) (change : List UInt8) : Except Failure Ctx :=
  match buff.drop (changeOffset - 1), change with
  | a :: b :: _, c :: _ => .ok (ctx.change (word a b) (word a c))
  | _, _ => .error .pastEnd

/-- `update_change`, where the change ends within a word. -/
def changeTail (ctx : Ctx) (buff : List UInt8) (changeOffset : ℕ) (change : List UInt8) : Except Failure Ctx :=
  match buff.drop (changeOffset + change.length - 1), change.drop (change.length - 1) with
  | a :: left, c :: _ =>
    if changeOffset + change.length = buff.length then
      .ok { ctx.change a.toNat c.toNat with joint₀ := c }
    else
      match left with
      | b :: _ => .ok (ctx.change (word a b) (word c b))
      | [] => .error .pastEnd
  | _, _ => .error .pastEnd

/-- `update_change`, of a range of bytes. -/
def updateChange (ctx : Ctx) (buff : List UInt8) (changeOffset : ℕ) (change : List UInt8) : Except Failure Ctx :=
  if change.length = 0 then .ok ctx
  else if changeOffset + change.length > buff.length then .error .invalidArgument
  else do
    let odd := changeOffset &&& 1 = 1
    let len := if odd then change.length - 1 else change.length
    let ctx ← if odd then changeHead ctx buff changeOffset change else pure ctx
    let old := buff.drop (changeOffset + (change.length - len))
    let p := change.drop (change.length - len)
    let ctx ← changeWords (len >>> 1) ctx old p
    if len &&& 1 = 1 then changeTail ctx buff changeOffset change else pure ctx

/-! ## The checksum of a message -/

/-- The words of a message, the last filled up with a zero byte. -/
def words : List UInt8 → List ℕ
  | [] => []
  | [a] => [word a 0]
  | a :: b :: message => word a b :: words message

/-- One's complement addition of 16 bits: a carry is added at the other end. -/
def onesAdd (a b : ℕ) : ℕ := if a + b < 65536 then a + b else a + b - 65535

/-- The checksum of a message, all in one go. -/
def rfc1071 (message : List UInt8) : ℕ := 65535 - (words message).foldl onesAdd 0

/-- The buffer after the change. -/
def edited (buff : List UInt8) (changeOffset : ℕ) (change : List UInt8) : List UInt8 :=
  buff.take changeOffset ++ change ++ buff.drop (changeOffset + change.length)

end Libtarp.Inet
