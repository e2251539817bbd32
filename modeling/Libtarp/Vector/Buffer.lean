import Libtarp.Lib.Run
import Libtarp.Vector.Vect

/-!
# The vector with its buffer (`vector.c`, `impl/vector_impl.h`)

What `Vect` leaves out: every access to a slot is checked against the capacity, and allocations can fail. `outcomes n`
is what becomes of the allocation number `n`: there is no memory, or the new buffer has this in the slots into which
nothing was copied.
-/

namespace Libtarp.Buffered

open Function Vec

variable {α : Type}

/-- How an operation ends that does not return. -/
inductive Stop
  | exits (code : ErrorCode)
  | outside
  deriving DecidableEq

/-- A vector, and how many allocations were made so far. -/
structure Buffer (α : Type) where
  v : Vect α
  made : ℕ

variable (outcomes : ℕ → Option (ℕ → α))

/-! ## Slots -/

/-- What is in a slot. -/
def slot (v : Vect α) (pos : ℕ) : Except Stop α := if pos < v.capacity then .ok (v.bytes pos) else .error .outside

def setSlot (v : Vect α) (pos : ℕ) (value : α) : Except Stop (Vect α) :=
  if pos < v.capacity then .ok { v with bytes := update v.bytes pos value } else .error .outside

/-- `memmove` of `n` items from `src` to `dst`. -/
def memmove (v : Vect α) (dst src n : ℕ) : Except Stop (Vect α) :=
  if n = 0 ∨ src + n ≤ v.capacity ∧ dst + n ≤ v.capacity then
    .ok { v with bytes := fun i => if dst ≤ i ∧ i < dst + n then v.bytes (src + (i - dst)) else v.bytes i }
  else .error .outside

/-! ## Growing and shrinking -/

/-- `v->bytes = salloc(capacity * itemsz, v->bytes)`, where `w` is the vector with its new capacity. -/
def salloc (b : Buffer α) (w : Vect α) : Except Stop (Buffer α) :=
  match outcomes b.made with
  | none => .error (.exits .badAlloc)
  | some fresh =>
    .ok ⟨{ w with bytes := fun i => if i < min b.v.capacity w.capacity then b.v.bytes i else fresh i }, b.made + 1⟩

/-- `grow__`. -/
def Buffer.grow (b : Buffer α) : Except Stop (Option (Buffer α)) :=
  match Vec.grow b.v with
  | none => .ok none
  | some w => do
    let b ← salloc outcomes b w
    pure (some b)

/-- `shrink__`, whose result is not looked at. -/
def Buffer.shrink (b : Buffer α) : Except Stop (Buffer α) :=
  match Vec.shrink b.v with
  | none => .ok b
  | some w => salloc outcomes b w

/-! ## The operations, for items of `size` bytes -/

/-- `Vect_new`: one allocation for the handle and one for the buffer. -/
def vectNew (capacity size : ℕ) : Except Stop (Option (Buffer α)) :=
  let capacity := if capacity < minCapacity then minCapacity else capacity
  if capacity > vectMaxcap size then .ok none
  else
    match outcomes 0, outcomes 1 with
    | some _, some bytes => .ok (some ⟨{ capacity, occupied := 0, itemsz := size, bytes }, 2⟩)
    | _, _ => .error (.exits .badAlloc)

variable (size : ℕ)

/-- `Vect_pushb`; the code is `none` for `ERRORCODE_SUCCESS`. -/
def pushb (b : Buffer α) (value : α) : Except Stop (Buffer α × Option ErrorCode) :=
  if size ≠ b.v.itemsz then .error (.exits .invalidValue)
  else do
    let grown ← if mustGrow b.v then b.grow outcomes else pure (some b)
    match grown with
    | none => pure (b, some .outOfBounds)
    | some b => do
      let v ← setSlot b.v b.v.occupied value
      pure ({ b with v := { v with occupied := v.occupied + 1 } }, none)

def popb (b : Buffer α) : Except Stop (Buffer α × α) :=
  if size ≠ b.v.itemsz then .error (.exits .invalidValue)
  else if b.v.occupied = 0 then .error (.exits .empty)
  else do
    let b ← if mustShrink b.v then b.shrink outcomes else pure b
    let v := { b.v with occupied := b.v.occupied - 1 }
    let value ← slot v v.occupied
    pure ({ b with v }, value)

def get (b : Buffer α) (pos : ℕ) : Except Stop α :=
  if pos ≥ b.v.occupied then .error (.exits .outOfBounds) else slot b.v pos

def set (b : Buffer α) (pos : ℕ) (value : α) : Except Stop (Buffer α) :=
  if pos ≥ b.v.occupied then .error (.exits .outOfBounds)
  else do
    let v ← setSlot b.v pos value
    pure { b with v }

def front (b : Buffer α) : Except Stop α :=
  if b.v.occupied = 0 then .error (.exits .empty) else slot b.v 0

def back (b : Buffer α) : Except Stop α :=
  if b.v.occupied = 0 then .error (.exits .empty) else slot b.v (b.v.occupied - 1)

def insert (b : Buffer α) (pos : ℕ) (value : α) : Except Stop (Buffer α × Option ErrorCode) :=
  if pos > b.v.occupied then .error (.exits .outOfBounds)
  else do
    let (b, rc) ← pushb outcomes size b value
    if rc.isSome then pure (b, rc)
    else if b.v.occupied = 1 then pure (b, rc)
    else do
      let v ← memmove b.v (pos + 1) pos (b.v.occupied - 1 - pos)
      let b ← set { b with v } pos value
      pure (b, rc)

def remove (b : Buffer α) (pos : ℕ) : Except Stop (Buffer α) :=
  if pos ≥ b.v.occupied then .error (.exits .outOfBounds)
  else if b.v.occupied = 0 then .ok b
  else do
    let v ← memmove b.v pos (pos + 1) (b.v.occupied - 1 - pos)
    let (b, _) ← popb outcomes size { b with v }
    pure b

/-- The loop of `Vect_resize` that appends; what `Vect_pushb` returns is not looked at. -/
def pushes (fill : α) : ℕ → Buffer α → Except Stop (Buffer α)
  | 0, b => .ok b
  | stop + 1, b => do
    let (b, _) ← pushb outcomes size b fill
    pushes fill stop b

/-- The loop that takes items off. -/
def pops : ℕ → Buffer α → Except Stop (Buffer α)
  | 0, b => .ok b
  | stop + 1, b => do
    let (b, _) ← popb outcomes size b
    pops stop b

def resize (b : Buffer α) (count : ℕ) (fill : α) : Except Stop (Buffer α) :=
  if count = b.v.occupied then .ok b
  else if count > b.v.occupied then pushes outcomes size fill (count - b.v.occupied) b
  else pops outcomes size (b.v.occupied - count) b

/-- `Vect_clear`. -/
def clear (b : Buffer α) : Buffer α := { b with v := { b.v with occupied := 0 } }

/-! ## Calls -/

inductive Call (α : Type)
  | pushb (value : α)
  | popb
  | get (pos : ℕ)
  | set (pos : ℕ) (value : α)
  | front
  | back
  | insert (pos : ℕ) (value : α)
  | remove (pos : ℕ)
  | resize (count : ℕ) (fill : α)
  | clear
  | count

inductive Answer (α : Type)
  | code (rc : Option ErrorCode)
  | item (value : α)
  | number (n : ℕ)
  | done

def exec (c : Call α) (b : Buffer α) : Except Stop (Buffer α × Answer α) :=
  match c with
  | .pushb value => do
    let (b, rc) ← pushb outcomes size b value
    pure (b, .code rc)
  | .popb => do
    let (b, value) ← popb outcomes size b
    pure (b, .item value)
  | .get pos => do
    let value ← get b pos
    pure (b, .item value)
  | .set pos value => do
    let b ← set b pos value
    pure (b, .done)
  | .front => do
    let value ← front b
    pure (b, .item value)
  | .back => do
    let value ← back b
    pure (b, .item value)
  | .insert pos value => do
    let (b, rc) ← insert outcomes size b pos value
    pure (b, .code rc)
  | .remove pos => do
    let b ← remove outcomes size b pos
    pure (b, .done)
  | .resize count fill => do
    let b ← resize outcomes size b count fill
    pure (b, .done)
  | .clear => pure (clear b, .done)
  | .count => pure (b, .number b.v.occupied)

end Libtarp.Buffered
