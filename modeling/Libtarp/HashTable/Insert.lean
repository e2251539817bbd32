import Libtarp.HashTable.Runs

/-!
# The outcome of an insertion

An insertion may have to resize the table. A table of the largest size is not resized, and the insertion fails; if there
is no memory for the new buckets `salloc` ends the process. `granted` tells whether there is.

* `insertEntryIf_cases`: memory matters only where the buckets are allocated.
* `insertEntryIf_full`: the node is linked in before the table turns out to be full.
* `inserts_right_iff`: the result tells what was done unless that happens.
-/

namespace Libtarp.HashTable

open Function Lib

variable {ν : Type} [DecidableEq ν]

section Model

variable (key : ν → List UInt8) (hash : List UInt8 → UInt64) (granted : Bool)

/-- `maybe_resize`. -/
def maybeResizeIf (rounds : ℕ) (ht : Hasht ν) (isdel : Bool) : Except Fault (Option (Hasht ν)) :=
  let newsize := newSize ht isdel
  if newsize = ht.numBuckets then .ok (some ht)
  else if isdel && newsize < minBuckets then .ok (some ht)
  else
    match allocateHasht newsize with
    | none => .ok none
    | some numBuckets =>
      if !granted then .error (.thrown .badAlloc)
      else do
        let (buckets, next) ← moveChains key hash numBuckets rounds ht.buckets ht.numBuckets
          (fun _ => none, ht.next)
        pure (some { ht with buckets, next, numBuckets })

/-- `Hasht_insert_entry`, from where the node is linked in. -/
def linkEntryIf (rounds : ℕ) (ht : Hasht ν) (index : ℕ) (node : ν) : Except Fault (Hasht ν × Bool) := do
  let ht := { ht with next := update ht.next node (ht.buckets index),
                      buckets := update ht.buckets index (some node), count := ht.count + 1 }
  match ← maybeResizeIf key hash granted rounds ht false with
  | some ht => pure (ht, true)
  | none => pure (ht, false)

/-- `Hasht_insert_entry`. -/
def insertEntryIf (rounds : ℕ) (ht : Hasht ν) (node : ν) (allowDuplicates : Bool) : Except Fault (Hasht ν × Bool) := do
  let index ← node2index key hash ht.numBuckets node
  if allowDuplicates then linkEntryIf key hash granted rounds ht index node
  else if ← cacheHit key ht node then pure (ht, false)
  else if !(← unique key ht.next rounds (ht.buckets index) node) then pure (ht, false)
  else linkEntryIf key hash granted rounds ht index node

/-- The result tells what was done: after false nothing has changed, and after true there is one entry more. The process
may end instead, because the key is empty or memory has run out. -/
def InsertsRight (rounds : ℕ) (ht : Hasht ν) (node : ν) (allowDuplicates : Bool) : Prop :=
  match insertEntryIf key hash granted rounds ht node allowDuplicates with
  | .ok (ht', false) => nodes ht' = nodes ht ∧ ht'.count = ht.count
  | .ok (ht', true) => node ∉ nodes ht ∧ nodes ht' = insert node (nodes ht) ∧ ht'.count = ht.count + 1
  | .error e => e = .assertion ∧ key node = [] ∨ e = .thrown .badAlloc ∧ granted = false

omit [DecidableEq ν] in
/-- The insertion gets as far as linking its node in: it is not refused as a duplicate. -/
def Links (ht : Hasht ν) (node : ν) (allowDuplicates : Bool) : Prop :=
  key node ≠ [] ∧ (allowDuplicates = false → ∀ l, BucketChain key hash ht node l → ¬Matched key ht node l)

end Model

variable {key : ν → List UInt8} {hash : List UInt8 → UInt64} {granted : Bool} {S : Finset ν} {rounds : ℕ} {ht : Hasht ν}
  {node : ν} {allowDuplicates : Bool}

variable (key hash granted rounds) in
/-- A refused request is refused before any memory is asked for. -/
theorem maybeResizeIf_cases (ht : Hasht ν) :
    maybeResizeIf key hash granted rounds ht false = maybeResize key hash rounds ht false ∨
      maybeResizeIf key hash granted rounds ht false = .error (.thrown .badAlloc) ∧ granted = false := by
  unfold maybeResizeIf maybeResize
  cases granted with
  | true => exact .inl rfl
  | false =>
    dsimp only
    by_cases hsame : newSize ht false = ht.numBuckets
    · rw [if_pos hsame, if_pos hsame]
      exact .inl rfl
    rw [if_neg hsame, if_neg hsame]
    cases allocateHasht (newSize ht false) with
    | none => exact .inl rfl
    | some numBuckets => exact .inr ⟨rfl, rfl⟩

theorem maybeResizeIf_refused (hs : Size ht.numBuckets) (h : Refused ht) :
    maybeResizeIf key hash granted rounds ht false = .ok none := by
  obtain ⟨hload, hbig⟩ := h
  have hl : ht.numBuckets <<< 1 = ht.numBuckets * 2 := by rw [Nat.shiftLeft_eq, pow_one]
  have hgrow : newSize ht false = ht.numBuckets * 2 := by simp [newSize, hload, hl]
  have hmin := hs.1
  have hsixteen : minBuckets = 16 := rfl
  have hnone : allocateHasht (ht.numBuckets * 2) = none := by
    simp only [allocateHasht, if_neg (show ¬ht.numBuckets * 2 < minBuckets by omega), if_pos hbig]
  unfold maybeResizeIf
  rw [hgrow]
  simp only [hnone, Bool.false_and, Bool.false_eq_true, if_false]
  exact if_neg (by omega)

variable (key hash granted rounds) in
theorem linkEntryIf_cases (ht : Hasht ν) (index : ℕ) (node : ν) :
    linkEntryIf key hash granted rounds ht index node = linkEntry key hash rounds ht index node ∨
      linkEntryIf key hash granted rounds ht index node = .error (.thrown .badAlloc) ∧ granted = false := by
  unfold linkEntryIf linkEntry
  rcases maybeResizeIf_cases key hash granted rounds
    { ht with next := update ht.next node (ht.buckets index), buckets := update ht.buckets index (some node),
              count := ht.count + 1 } with h | ⟨h, hg⟩
  · exact .inl (congrArg (fun r => r >>= _) h)
  · exact .inr ⟨congrArg (fun r => r >>= _) h, hg⟩

/-- **Memory matters only where the buckets are allocated**: an insertion that is given none ends the process or does not
ask for any. -/
theorem insertEntryIf_cases (ht : Hasht ν) (node : ν) (allowDuplicates : Bool) :
    insertEntryIf key hash granted rounds ht node allowDuplicates = insertEntry key hash rounds ht node allowDuplicates ∨
      insertEntryIf key hash granted rounds ht node allowDuplicates = .error (.thrown .badAlloc) ∧ granted = false := by
  unfold insertEntryIf insertEntry
  cases node2index key hash ht.numBuckets node with
  | error e => exact .inl rfl
  | ok index =>
    have hlink := linkEntryIf_cases key hash granted rounds ht index node
    simp only [bind, Except.bind]
    cases allowDuplicates with
    | true => exact hlink
    | false =>
      simp only [Bool.false_eq_true, if_false]
      cases cacheHit key ht node with
      | error e => exact .inl rfl
      | ok hit =>
        cases hit with
        | true => exact .inl rfl
        | false =>
          simp only [Bool.false_eq_true, if_false]
          cases unique key ht.next rounds (ht.buckets index) node with
          | error e => exact .inl rfl
          | ok new =>
            cases new with
            | true => exact hlink
            | false => exact .inl rfl

/-- **In a full table the node is linked in all the same**, and the insertion fails. -/
theorem insertEntryIf_full (hv : Valid key hash ht S) (hr : S.card < rounds)
    (hlinks : Links key hash ht node allowDuplicates) (hfull : Full ht) :
    insertEntryIf key hash granted rounds ht node allowDuplicates = .ok (linked key hash ht node, false) := by
  obtain ⟨hn, hno⟩ := hlinks
  have hlink : linkEntryIf key hash granted rounds ht (bucketOf key hash ht.numBuckets node) node =
      .ok (linked key hash ht node, false) := by
    have href : maybeResizeIf key hash granted rounds (linked key hash ht node) false = .ok none :=
      maybeResizeIf_refused (show Size (linked key hash ht node).numBuckets from hv.size) hfull
    unfold linkEntryIf
    unfold linked at href ⊢
    simp only [href, bind, Except.bind]
    rfl
  obtain ⟨l, hl, hnd, hm⟩ := hv.bucketChain node
  unfold insertEntryIf
  simp only [node2index_eq hv.size hn, bind, Except.bind]
  cases allowDuplicates with
  | true => exact hlink
  | false =>
    have hnomatch := hno rfl l hl
    have hhit : cacheHit key ht node = .ok false := by
      rw [hv.cacheHit hn, (Option.any_eq_false ..).2 fun c hcd => ?_]
      exact Bool.eq_false_iff.2 fun hs => hnomatch (.inl ⟨c, hcd, hs⟩)
    have hfind := hv.findInChain hr.le hn hl
    have hnone : l.find? (same key · node) = none := by
      rw [List.find?_eq_none]
      exact fun a ha hs => hnomatch (.inr ⟨a, ha, hs⟩)
    simp only [hhit, unique, hfind, hnone, bind, Except.bind, pure, Except.pure]
    exact hlink

/-- **What the result of an insertion is worth.** It is right, whatever becomes of the allocation, unless the node gets as
far as being linked into a table that should grow beyond the largest size. -/
theorem inserts_right_iff (h : WellFormed key hash ht) (hr : ht.count < rounds)
    (hnew : allowDuplicates = true → node ∉ nodes ht) :
    InsertsRight key hash granted rounds ht node allowDuplicates ↔
      (Links key hash ht node allowDuplicates → ¬Full ht) := by
  obtain ⟨S, hv⟩ := h.valid
  have hcard : S.card < rounds := hv.count ▸ hr
  by_cases hn : key node = []
  · have herr : insertEntryIf key hash granted rounds ht node allowDuplicates = .error .assertion := by
      simp only [insertEntryIf, node2index_nil hn]
      rfl
    unfold InsertsRight
    rw [herr]
    exact iff_of_true (.inl ⟨rfl, hn⟩) fun hlinks => absurd hn hlinks.1
  obtain ⟨l, hl, ⟨hd, hmatch, he⟩ | ⟨hno, hnot, ht', b, he, hv', -, hb, -⟩⟩ :=
    insertEntry_spec hv hcard hn allowDuplicates fun hd => hv.mem_nodes.not.1 (hnew hd)
  · -- refused as a duplicate
    refine iff_of_true ?_ fun hlinks => absurd hmatch (hlinks.2 hd l hl)
    unfold InsertsRight
    rcases insertEntryIf_cases ht node allowDuplicates with hif | ⟨hif, hg⟩
    · rw [hif, he]
      exact ⟨rfl, rfl⟩
    · rw [hif]
      exact .inr ⟨rfl, hg⟩
  have hlinks : Links key hash ht node allowDuplicates := by
    refine ⟨hn, fun hd l' hl' => ?_⟩
    rw [hl'.unique hl]
    exact hno hd
  by_cases hfull : Full ht
  · refine iff_of_false ?_ fun hnotfull => hnotfull hlinks hfull
    unfold InsertsRight
    rw [insertEntryIf_full hv hcard hlinks hfull]
    rintro ⟨-, hcount⟩
    simp [linked] at hcount
  · refine iff_of_true ?_ fun _ => hfull
    have hb' : b = true := by
      rw [← Bool.not_eq_false, hb]
      exact hfull
    subst hb'
    unfold InsertsRight
    rcases insertEntryIf_cases ht node allowDuplicates with hif | ⟨hif, hg⟩
    · rw [hif, he]
      refine ⟨fun hin => hnot (hv.mem_nodes.1 hin), ?_, ?_⟩
      · ext a
        rw [hv'.mem_nodes, Finset.mem_insert, Set.mem_insert_iff, hv.mem_nodes]
      · rw [hv'.count, Finset.card_insert_of_notMem hnot, hv.count]
    · rw [hif]
      exact .inr ⟨rfl, hg⟩

theorem inserts_right_iff_new : InsertsRight (fun n : ℕ => [n.toUInt8]) djb2 false 1 (hashtNew false 0 fun _ => none) 5
    true ↔ (Links (fun n : ℕ => [n.toUInt8]) djb2 (hashtNew false 0 fun _ => none) 5 true →
      ¬Full (hashtNew false 0 fun _ => none : Hasht ℕ)) := by
  refine inserts_right_iff (valid_hashtNew false 0 fun _ => none).wellFormed (by decide) ?_
  rintro - ⟨i, -, l, hl, h5⟩
  obtain rfl : l = [] := hl.unique (by exact rfl)
  cases h5

/-! ## A full table -/

/-- A table of the nodes below `count`, all of them in the first bucket. -/
def crowded (numBuckets lf count : ℕ) : Hasht ℕ where
  numBuckets := numBuckets
  count := count
  lf := lf
  dtor := false
  buckets i := if i = 0 ∧ 0 < count then some 0 else none
  next a := if a + 1 < count then some (a + 1) else none
  cached := none

theorem chain_crowded (numBuckets lf count n a : ℕ) (h : a + n = count) :
    Chain (crowded numBuckets lf count).next (if n = 0 then none else some a) (List.range' a n) := by
  induction n generalizing a with
  | zero => rfl
  | succ n ih =>
    refine ⟨rfl, ?_⟩
    have hnext : (crowded numBuckets lf count).next a = if n = 0 then none else some (a + 1) := by
      simp only [crowded]
      by_cases hn : n = 0
      · rw [if_neg (by omega), if_pos hn]
      · rw [if_pos (by omega), if_neg hn]
    rw [hnext]
    exact ih (a + 1) (by omega)

theorem valid_crowded {numBuckets : ℕ} (lf count : ℕ) (hs : Size numBuckets) :
    Valid (fun _ : ℕ => [7]) (fun _ => 0) (crowded numBuckets lf count) (Finset.range count) := by
  have hbucket : ∀ a, bucketOf (fun _ : ℕ => [7]) (fun _ => 0) numBuckets a = 0 := by
    intro a
    simp [bucketOf]
  refine ⟨hs, ?_, (Finset.card_range count).symm, by simp [crowded], by simp⟩
  intro i hi
  by_cases h0 : i = 0
  · refine ⟨List.range' 0 count, ?_, List.nodup_range', ?_⟩
    · have hstart : (crowded numBuckets lf count).buckets i = if count = 0 then none else some 0 := by
        simp only [crowded, h0, true_and]
        by_cases hc : count = 0
        · rw [if_neg (by omega), if_pos hc]
        · rw [if_pos (by omega), if_neg hc]
      rw [hstart]
      exact chain_crowded numBuckets lf count count 0 (by omega)
    · intro a
      simp [hbucket, h0, crowded]
  · refine ⟨[], ?_, List.nodup_nil, ?_⟩
    · simp [crowded, h0]
    · intro a
      simp [hbucket, crowded, Ne.symm h0]

/-- With a load factor of 0.01 a table of 2 ^ 56 buckets, the largest there is, is to grow for the 1441151880758559th
node. The node is in the table and counted although the insertion fails. -/
theorem linked_and_failed : ∃ ht : Hasht ℕ, WellFormed (fun _ : ℕ => [7]) (fun _ => 0) ht ∧
    1441151880758558 ∉ nodes ht ∧ ht.count < 1441151880758559 ∧
    ¬InsertsRight (fun _ : ℕ => [7]) (fun _ => 0) true 1441151880758559 ht 1441151880758558 true := by
  have hsize : Size (2 ^ 56) := ⟨by decide, by decide, 56, rfl⟩
  have hv := valid_crowded 1 1441151880758558 hsize
  have hfull : Full (crowded (2 ^ 56) 1 1441151880758558) := ⟨by decide, by decide⟩
  have hlinks : Links (fun _ : ℕ => [7]) (fun _ => 0) (crowded (2 ^ 56) 1 1441151880758558) 1441151880758558 true :=
    ⟨by simp, by simp⟩
  refine ⟨_, hv.wellFormed, ?_, by decide, ?_⟩
  · rw [hv.mem_nodes]
    simp
  · unfold InsertsRight
    rw [insertEntryIf_full hv (by rw [Finset.card_range]; decide) hlinks hfull]
    rintro ⟨-, hcount⟩
    simp [linked] at hcount

end Libtarp.HashTable
