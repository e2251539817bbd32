import Mathlib.Order.Defs.Unbundled
import Mathlib.Tactic.Common

/-!
# What every module shares

`ErrorCode` are the codes of `tarp/error.h`. `Fault` is how a call can end without
returning: `THROW_ON` exits the process with a code, an `assert` aborts it (asserts are
compiled in), and a null pointer can be dereferenced. Loops over linked nodes take a
number of rounds they may make; `rounds` says it was used up.
-/

namespace Libtarp

/-- `enum ErrorCode`. -/
inductive ErrorCode
  | badAlloc | runtimeError | internalError | badLogic | noSpace | outOfBounds | badPointer
  | invalidValue | expired | empty | badTimepoint | misconfigured | io | read | write | conflict
  deriving DecidableEq, Repr

/-- The ways a call ends without returning. -/
inductive Fault
  | thrown (code : ErrorCode)
  | assertion
  | nullPointer
  | rounds
  deriving DecidableEq, Repr

end Libtarp
