import Libtarp.Bits
import Libtarp.Common
import Libtarp.Lib.Run
import Mathlib.Logic.Function.Basic

/-!
# The hash table (`hasht.c`, `impl/hasht_impl.h`)

A bucket is the head of a chain of nodes. The key getter gives the bytes of a node's key;
the hash function is any. Allocations succeed; what can fail is a request for more than the
maximal number of buckets. Loops along a chain take a number of rounds.
-/

namespace Libtarp.HashTable

open Function Bits

variable {ν : Type} [DecidableEq ν] (key : ν → List UInt8) (hash : List UInt8 → UInt64)

/-- `struct hasht`, with the fields of the nodes. -/
structure Hasht (ν : Type) where
  numBuckets : ℕ
  count : ℕ
  lf : ℕ
  dtor : Bool
  buckets : ℕ → Option ν
  next : ν → Option ν
  cached : Option ν

def maxMem : ℕ := (2 ^ 64 - 1) >>> 4

/-- `HASHT_MAX_BUCKETS`; a node has 8 bytes. -/
def maxBuckets : ℕ := maxMem / 8

def minBuckets : ℕ := 16

def defaultLoadFactor : ℕ := 80

/-- `djb2` of `hash.c`, the default hash function. -/
def djb2 (input : List UInt8) : UInt64 :=
  input.foldl (fun hash c => ((hash <<< 5) + hash) + c.toUInt64) 5381

/-- `allocate_hasht__`: how many buckets there will be. -/
def allocateHasht (numBuckets : ℕ) : Option ℕ :=
  let numBuckets := if numBuckets < minBuckets then minBuckets else numBuckets
  if numBuckets > maxBuckets then none else some numBuckets

/-- `Hasht_new`. -/
def hashtNew (dtor : Bool) (lf : ℕ) (next : ν → Option ν) : Hasht ν :=
  { numBuckets := minBuckets, count := 0, lf := if lf > 0 then lf else defaultLoadFactor, dtor,
    buckets := fun _ => none, next, cached := none }

/-! ## From keys to buckets -/

def primeScrambler : ℕ := (1 <<< 61) - 1

def hash2index (numBuckets : ℕ) (h : UInt64) : Except Fault ℕ :=
  if ispow2 numBuckets then .ok ((h.toNat % primeScrambler) &&& (numBuckets - 1)) else .error .assertion

def node2index (numBuckets : ℕ) (node : ν) : Except Fault ℕ :=
  if (key node).length = 0 then .error .assertion
  else do
    let idx ← hash2index numBuckets (hash (key node))
    if idx < numBuckets then pure idx else .error .assertion

/-- `strncmp(a, b, n) == 0`, for buffers of `n` bytes or more. -/
def strncmpZero : ℕ → List UInt8 → List UInt8 → Bool
  | n + 1, a :: as, b :: bs => if a ≠ b then false else if a = 0 then true else strncmpZero n as bs
  | _, _, _ => true

def equalKeys (a b : ν) : Except Fault Bool :=
  if (key a).length = 0 ∨ (key b).length = 0 then .error .assertion
  else if (key a).length ≠ (key b).length then .ok false
  else .ok (strncmpZero (key a).length (key a) (key b))

def cacheHit (ht : Hasht ν) (node : ν) : Except Fault Bool :=
  match ht.cached with
  | some c => equalKeys key c node
  | none => .ok false

/-! ## Resizing -/

/-- `hasht_raw_set`, on the buckets and the links of the nodes. -/
def hashtRawSet (numBuckets : ℕ) (node : ν) (t : (ℕ → Option ν) × (ν → Option ν)) :
    Except Fault ((ℕ → Option ν) × (ν → Option ν)) := do
  let idx ← node2index key hash numBuckets node
  pure (update t.1 idx (some node), update t.2 node (t.1 idx))

/-- The nodes of a chain moved to the new table. -/
def moveChain (numBuckets : ℕ) : ℕ → Option ν → (ℕ → Option ν) × (ν → Option ν) →
    Except Fault ((ℕ → Option ν) × (ν → Option ν))
  | _, none, t => .ok t
  | 0, some _, _ => .error .rounds
  | rounds + 1, some node, t => do
    let tmp := t.2 node
    let t ← hashtRawSet key hash numBuckets node t
    moveChain numBuckets rounds tmp t

/-- The chains of the first buckets moved, one after the other. -/
def moveChains (numBuckets rounds : ℕ) (old : ℕ → Option ν) : ℕ → (ℕ → Option ν) × (ν → Option ν) →
    Except Fault ((ℕ → Option ν) × (ν → Option ν))
  | 0, t => .ok t
  | i + 1, t => do
    let t ← moveChains numBuckets rounds old i t
    moveChain key hash numBuckets rounds (old i) t

/-- The load factor that `maybe_resize` computes, as `unsigned`. -/
def load (ht : Hasht ν) : ℕ := (ht.count * 100 % 2 ^ 64 / ht.numBuckets) % 2 ^ 32

def newSize (ht : Hasht ν) (isdel : Bool) : ℕ :=
  if !isdel && load ht > ht.lf then ht.numBuckets <<< 1
  else if isdel && load ht < ht.lf >>> 3 then ht.numBuckets >>> 1
  else ht.numBuckets

/-- `maybe_resize`; no table when it would have to be larger than allowed. -/
def maybeResize (rounds : ℕ) (ht : Hasht ν) (isdel : Bool) : Except Fault (Option (Hasht ν)) :=
  let newsize := newSize ht isdel
  if newsize = ht.numBuckets then .ok (some ht)
  else if isdel && newsize < minBuckets then .ok (some ht)
  else
    match allocateHasht newsize with
    | none => .ok none
    | some numBuckets => do
      let (buckets, next) ← moveChains key hash numBuckets rounds ht.buckets ht.numBuckets
        (fun _ => none, ht.next)
      pure (some { ht with buckets, next, numBuckets })

/-! ## The interface -/

/-- The first node of a chain with the key of `node`. -/
def findInChain (next : ν → Option ν) (node : ν) : ℕ → Option ν → Except Fault (Option ν)
  | _, none => .ok none
  | 0, some _ => .error .rounds
  | rounds + 1, some i => do
    if ← equalKeys key i node then pure (some i) else findInChain next node rounds (next i)

/-- `Hasht_get_entry`. -/
def getEntry (rounds : ℕ) (ht : Hasht ν) (node : ν) : Except Fault (Hasht ν × Option ν) :=
  if ht.count = 0 then .ok (ht, none)
  else do
    if ← cacheHit key ht node then pure (ht, ht.cached)
    else
      let index ← node2index key hash ht.numBuckets node
      match ← findInChain key ht.next node rounds (ht.buckets index) with
      | some i => pure ({ ht with cached := some i }, some i)
      | none => pure (ht, none)

/-- `Hasht_has_entry`. -/
def hasEntry (rounds : ℕ) (ht : Hasht ν) (node : ν) : Except Fault (Hasht ν × Bool) := do
  let (ht, i) ← getEntry key hash rounds ht node
  pure (ht, i.isSome)

/-- What `prev` points to: the head of the bucket or a node. -/
inductive Prev (ν : Type)
  | head
  | node (a : ν)

/-- The loop of `Hasht_remove_entry`. -/
def findWithPrev (next : ν → Option ν) (node : ν) : ℕ → Prev ν → Option ν → Except Fault (Option (Prev ν × ν))
  | _, _, none => .ok none
  | 0, _, some _ => .error .rounds
  | rounds + 1, prev, some i => do
    if ← equalKeys key i node then pure (some (prev, i))
    else findWithPrev next node rounds (.node i) (next i)

/-- `prev->next = q`. -/
def setNext (ht : Hasht ν) (index : ℕ) (prev : Prev ν) (q : Option ν) : Hasht ν :=
  match prev with
  | .head => { ht with buckets := update ht.buckets index q }
  | .node a => { ht with next := update ht.next a q }

/-- `Hasht_remove_entry`. -/
def removeEntry (rounds : ℕ) (ht : Hasht ν) (node : ν) (freeContainer : Bool) :
    Except Fault (Hasht ν × Bool) :=
  if ht.count = 0 then .ok (ht, false)
  else do
    let index ← node2index key hash ht.numBuckets node
    match ← findWithPrev key ht.next node rounds .head (ht.buckets index) with
    | none => pure (ht, false)
    | some (prev, i) =>
      let ht := setNext ht index prev (ht.next i)
      let hit ← cacheHit key ht node
      let ht := if hit then { ht with cached := none } else ht
      if freeContainer && !ht.dtor then .error (.thrown .misconfigured)
      else
        let ht := { ht with count := ht.count - 1 }
        match ← maybeResize key hash rounds ht true with
        | some ht => pure (ht, true)
        | none => pure (ht, true)

/-- `unique`. -/
def unique (next : ν → Option ν) (rounds : ℕ) (head : Option ν) (node : ν) : Except Fault Bool := do
  let i ← findInChain key next node rounds head
  pure i.isNone

/-- `Hasht_insert_entry`, from where the node is linked in. -/
def linkEntry (rounds : ℕ) (ht : Hasht ν) (index : ℕ) (node : ν) : Except Fault (Hasht ν × Bool) := do
  let ht := { ht with next := update ht.next node (ht.buckets index),
                      buckets := update ht.buckets index (some node), count := ht.count + 1 }
  match ← maybeResize key hash rounds ht false with
  | some ht => pure (ht, true)
  | none => pure (ht, false)

/-- `Hasht_insert_entry`. -/
def insertEntry (rounds : ℕ) (ht : Hasht ν) (node : ν) (allowDuplicates : Bool) :
    Except Fault (Hasht ν × Bool) := do
  let index ← node2index key hash ht.numBuckets node
  if allowDuplicates then linkEntry key hash rounds ht index node
  else if ← cacheHit key ht node then pure (ht, false)
  else if !(← unique key ht.next rounds (ht.buckets index) node) then pure (ht, false)
  else linkEntry key hash rounds ht index node

/-- `Hasht_clear`. The smallest table can always be allocated. -/
def clear (ht : Hasht ν) (freeContainers : Bool) : Except Fault (Hasht ν) :=
  if freeContainers && !ht.dtor then .error (.thrown .misconfigured)
  else .ok { ht with count := 0, cached := none, buckets := fun _ => none,
                     numBuckets := (allocateHasht 0).getD 0 }

/-! ## Calls -/

inductive Call (ν : Type)
  | insertEntry (node : ν) (allowDuplicates : Bool)
  | getEntry (node : ν)
  | hasEntry (node : ν)
  | removeEntry (node : ν) (freeContainer : Bool)
  | clear (freeContainers : Bool)

inductive Answer (ν : Type)
  | flag (b : Bool)
  | node (n : Option ν)
  | done
  deriving DecidableEq

def exec (rounds : ℕ) (c : Call ν) (ht : Hasht ν) : Except Fault (Hasht ν × Answer ν) :=
  match c with
  | .insertEntry node allowDuplicates => do
    let (ht, b) ← insertEntry key hash rounds ht node allowDuplicates
    pure (ht, .flag b)
  | .getEntry node => do
    let (ht, i) ← getEntry key hash rounds ht node
    pure (ht, .node i)
  | .hasEntry node => do
    let (ht, b) ← hasEntry key hash rounds ht node
    pure (ht, .flag b)
  | .removeEntry node freeContainer => do
    let (ht, b) ← removeEntry key hash rounds ht node freeContainer
    pure (ht, .flag b)
  | .clear freeContainers => do
    let ht ← clear ht freeContainers
    pure (ht, .done)

end Libtarp.HashTable
