import Libtarp.HashTable.Calls

/-!
# Runs of calls on a hash table

* `exec_spec`: what one call does to a valid table.
* `wellFormed_throughout`: after every call of a run the table keeps its invariant, and no
  resize loses or duplicates a node.
* `refines_bag`: every call of a run does what it does on a collection of entries with keys,
  `Bag.Step`.

Keys are compared by `strncmp`, which stops at a zero byte: two keys of one length that agree
as far as the first zero byte are taken for the same. `Unconfused` says that this does not
matter to a call.
-/

namespace Libtarp.HashTable

open Function Lib

variable {ν : Type} {key : ν → List UInt8} {hash : List UInt8 → UInt64} {S : Finset ν} {rounds : ℕ}
  {ht : Hasht ν}

/-- The nodes linked in a table. -/
def nodes (ht : Hasht ν) : Set ν :=
  {a | ∃ i < ht.numBuckets, ∃ l, Chain ht.next (ht.buckets i) l ∧ a ∈ l}

/-- What holds between calls. The number of buckets is a power of two, not below the smallest
and not above the largest; every node is in the bucket that its key selects, once; as many
are counted as there are in all buckets; and what is cached is one of them. -/
structure WellFormed (key : ν → List UInt8) (hash : List UInt8 → UInt64) (ht : Hasht ν) : Prop where
  size : Size ht.numBuckets
  chains : ∃ chain : ℕ → List ν,
    (∀ i < ht.numBuckets, Chain ht.next (ht.buckets i) (chain i)) ∧
    (∀ i < ht.numBuckets, ∀ a ∈ chain i, bucketOf key hash ht.numBuckets a = i) ∧
    ((List.range ht.numBuckets).flatMap chain).Nodup ∧
    ht.count = ((List.range ht.numBuckets).flatMap chain).length
  cached : ∀ c, ht.cached = some c → c ∈ nodes ht
  keys : ∀ a ∈ nodes ht, key a ≠ []

theorem Valid.mem_nodes (hv : Valid key hash ht S) {a : ν} : a ∈ nodes ht ↔ a ∈ S := by
  constructor
  · rintro ⟨i, hi, l, hc, ha⟩
    obtain ⟨l', hc', -, hm⟩ := hv.buckets i hi
    obtain rfl := hc.unique hc'
    exact ((hm a).1 ha).1
  · intro ha
    obtain ⟨l, hc, -, hm⟩ := hv.bucketChain a
    exact ⟨_, bucketOf_lt hv.size a, l, hc, (hm a).2 ⟨ha, rfl⟩⟩

theorem Valid.wellFormed (hv : Valid key hash ht S) : WellFormed key hash ht := by
  classical
  choose! chain hc hnd hm using hv.buckets
  have hmem : ∀ a, a ∈ (List.range ht.numBuckets).flatMap chain ↔ a ∈ S := by
    intro a
    rw [List.mem_flatMap]
    constructor
    · rintro ⟨i, hi, ha⟩
      exact ((hm i (List.mem_range.1 hi) a).1 ha).1
    · intro ha
      have hlt : bucketOf key hash ht.numBuckets a < ht.numBuckets := bucketOf_lt hv.size a
      exact ⟨_, List.mem_range.2 hlt, (hm _ hlt a).2 ⟨ha, rfl⟩⟩
  have hnodup : ((List.range ht.numBuckets).flatMap chain).Nodup := by
    refine List.nodup_flatMap.2 ⟨fun i hi => hnd i (List.mem_range.1 hi), ?_⟩
    refine List.Pairwise.imp_of_mem (fun {i j} hi hj hne => ?_) List.nodup_range
    intro a hai haj
    exact hne (((hm i (List.mem_range.1 hi) a).1 hai).2.symm.trans ((hm j (List.mem_range.1 hj) a).1 haj).2)
  refine ⟨hv.size, ⟨chain, hc, fun i hi a ha => ((hm i hi a).1 ha).2, hnodup, ?_⟩,
    fun c h => hv.mem_nodes.2 (hv.cached c h), fun a ha => hv.keys a (hv.mem_nodes.1 ha)⟩
  rw [hv.count, ← List.toFinset_card_of_nodup hnodup]
  congr 1
  ext a
  rw [List.mem_toFinset, hmem]

theorem WellFormed.valid (h : WellFormed key hash ht) : ∃ S, Valid key hash ht S := by
  classical
  obtain ⟨chain, hc, hb, hnd, hcount⟩ := h.chains
  set S := ((List.range ht.numBuckets).flatMap chain).toFinset with hS
  have hmem : ∀ a, a ∈ S ↔ ∃ i < ht.numBuckets, a ∈ chain i := fun a => by simp [hS]
  have hnodes : ∀ a, a ∈ nodes ht → a ∈ S := by
    rintro a ⟨i, hi, l, hl, ha⟩
    obtain rfl := hl.unique (hc i hi)
    exact (hmem a).2 ⟨i, hi, ha⟩
  have hnodes' : ∀ a, a ∈ S → a ∈ nodes ht := fun a ha => by
    obtain ⟨i, hi, ha⟩ := (hmem a).1 ha
    exact ⟨i, hi, _, hc i hi, ha⟩
  refine ⟨S, h.size, fun i hi => ⟨chain i, hc i hi, ?_, fun a => ?_⟩, ?_, fun c hcd => hnodes c (h.cached c hcd),
    fun a ha => h.keys a (hnodes' a ha)⟩
  · exact (List.nodup_flatMap.1 hnd).1 i (List.mem_range.2 hi)
  · constructor
    · exact fun ha => ⟨(hmem a).2 ⟨i, hi, ha⟩, hb i hi a ha⟩
    · rintro ⟨ha, hbi⟩
      obtain ⟨j, hj, ha⟩ := (hmem a).1 ha
      obtain rfl := (hb j hj a ha).symm.trans hbi
      exact ha
  · rw [hcount, hS, List.toFinset_card_of_nodup hnd]

/-- The node that a call is about. -/
def Call.arg : Call ν → Option ν
  | .insertEntry node _ | .getEntry node | .hasEntry node | .removeEntry node _ => some node
  | .clear _ => none

def Call.frees : Call ν → Bool
  | .removeEntry _ freeContainer => freeContainer
  | .clear freeContainers => freeContainers
  | _ => false

/-- The checks that end the process: a key is empty, or containers are to be freed where no
destructor was given. -/
def Stops (key : ν → List UInt8) (dtor : Bool) (c : Call ν) (e : Fault) : Prop :=
  e = .assertion ∧ (∃ node, c.arg = some node ∧ key node = []) ∨
    e = .thrown .misconfigured ∧ c.frees = true ∧ dtor = false

/-- A node that is linked in already is not inserted again as a duplicate. -/
def NotTwice (c : Call ν) (ht : Hasht ν) : Prop := ∀ node, c = .insertEntry node true → node ∉ nodes ht

variable [DecidableEq ν]

omit [DecidableEq ν] in
theorem valid_hashtNew (dtor : Bool) (lf : ℕ) (next : ν → Option ν) :
    Valid key hash (hashtNew dtor lf next) ∅ :=
  ⟨⟨le_rfl, show minBuckets ≤ maxBuckets by decide, 4, rfl⟩, buckets_empty _ _, rfl, by simp [hashtNew], by simp⟩

/-- The process is not ended: the key is not empty, but for a lookup or a removal in an empty
table, and a container is freed only where a destructor was given. -/
def Admitted (key : ν → List UInt8) (c : Call ν) (ht : Hasht ν) : Prop :=
  (∀ node, c.arg = some node → key node ≠ [] ∨ ht.count = 0 ∧ ∀ dup, c ≠ .insertEntry node dup) ∧
    (c.frees = true → ht.dtor = true)

/-- What a call does to the nodes of a valid table. -/
def Effect (key : ν → List UInt8) (hash : List UInt8 → UInt64) (c : Call ν) (ht : Hasht ν) (S : Finset ν)
    (r : Answer ν) (S' : Finset ν) : Prop :=
  match c with
  | .insertEntry node allowDuplicates => ∃ l, BucketChain key hash ht node l ∧
      (allowDuplicates = false ∧ Matched key ht node l ∧ r = .flag false ∧ S' = S ∨
        (allowDuplicates = false → ¬Matched key ht node l) ∧ S' = insert node S ∧
          (r = .flag true ∨ r = .flag false ∧ Full ht))
  | .getEntry node => S' = S ∧ ∃ l, BucketChain key hash ht node l ∧ r = .node (found key ht node l)
  | .hasEntry node => S' = S ∧ ∃ l, BucketChain key hash ht node l ∧ r = .flag (found key ht node l).isSome
  | .removeEntry node _ => ∃ l, BucketChain key hash ht node l ∧
      (l.find? (same key · node) = none ∧ r = .flag false ∧ S' = S ∨
        ∃ a, l.find? (same key · node) = some a ∧ r = .flag true ∧ S' = S.erase a)
  | .clear _ => r = .done ∧ S' = ∅

/-- An empty key is refused by an assertion, but by a lookup or a removal in an empty table. -/
theorem exec_nil {c : Call ν} {node : ν} (hc : c.arg = some node) (hk : key node = [])
    (h0 : ht.count = 0 → ∃ dup, c = .insertEntry node dup) :
    exec key hash rounds c ht = .error .assertion := by
  have hget : ¬ht.count = 0 → getEntry key hash rounds ht node = .error .assertion := by
    intro h0
    unfold getEntry
    rw [if_neg h0]
    unfold cacheHit
    cases ht.cached with
    | none => simp only [bind, Except.bind, node2index_nil hk]; rfl
    | some c => simp only [equalKeys_nil hk]; rfl
  cases c with
  | insertEntry n dup =>
    obtain rfl := Option.some.inj hc
    simp only [exec, insertEntry, node2index_nil hk]; rfl
  | getEntry n =>
    obtain rfl := Option.some.inj hc
    have h0 : ¬ht.count = 0 := fun h => by simpa using h0 h
    simp only [exec, hget h0]; rfl
  | hasEntry n =>
    obtain rfl := Option.some.inj hc
    have h0 : ¬ht.count = 0 := fun h => by simpa using h0 h
    simp only [exec, hasEntry, hget h0]; rfl
  | removeEntry n f =>
    obtain rfl := Option.some.inj hc
    have h0 : ¬ht.count = 0 := fun h => by simpa using h0 h
    simp only [exec, removeEntry, if_neg h0, node2index_nil hk]; rfl
  | clear f => cases hc

/-- **One call.** -/
theorem exec_spec {c : Call ν} (hv : Valid key hash ht S) (hr : S.card < rounds) (hc : NotTwice c ht) :
    (∃ ht' r S', exec key hash rounds c ht = .ok (ht', r) ∧ Valid key hash ht' S' ∧ ht'.dtor = ht.dtor ∧
        Effect key hash c ht S r S') ∨
      ∃ e, exec key hash rounds c ht = .error e ∧ Stops key ht.dtor c e ∧ ¬Admitted key c ht := by
  by_cases hnil : ∃ node, c.arg = some node ∧ key node = [] ∧ (ht.count = 0 → ∃ dup, c = .insertEntry node dup)
  · obtain ⟨node, ha, hk, h0⟩ := hnil
    refine .inr ⟨_, exec_nil ha hk h0, .inl ⟨rfl, node, ha, hk⟩, fun hadm => ?_⟩
    rcases hadm.1 node ha with h | ⟨hz, hno⟩
    · exact h hk
    · obtain ⟨dup, hd⟩ := h0 hz
      exact hno dup hd
  -- from here on an empty key is only looked up where the table is empty
  have hkey : ∀ node, c.arg = some node → key node = [] → ht.count = 0 ∧ ¬∃ dup, c = .insertEntry node dup := by
    intro node ha hk
    by_contra hno
    exact hnil ⟨node, ha, hk, fun h0 => by_contra fun hd => hno ⟨h0, hd⟩⟩
  have hlook : ∀ node, c.arg = some node → ht.count = 0 ∨ key node ≠ [] := fun node ha =>
    or_iff_not_imp_right.2 fun hk => (hkey node ha (not_not.1 hk)).1
  cases c with
  | insertEntry node dup =>
    have hk : key node ≠ [] := fun hk => (hkey node rfl hk).2 ⟨dup, rfl⟩
    obtain ⟨l, hl, ⟨hd, hm, he⟩ | ⟨hm, -, ht', b, he, hv', hdt, hb, -⟩⟩ := insertEntry_spec hv hr hk dup
      fun hd => by
        subst hd
        exact fun hS => hc node rfl (hv.mem_nodes.2 hS)
    · exact .inl ⟨ht, .flag false, S, by simp only [exec, he]; rfl, hv, rfl, l, hl, .inl ⟨hd, hm, rfl, rfl⟩⟩
    · refine .inl ⟨ht', .flag b, _, by simp only [exec, he]; rfl, hv', hdt, l, hl, .inr ⟨hm, rfl, ?_⟩⟩
      cases b with
      | true => exact .inl rfl
      | false => exact .inr ⟨rfl, hb.1 rfl⟩
  | getEntry node =>
    obtain ⟨l, hl, he, hv'⟩ := getEntry_spec hv hr.le (hlook node rfl)
    exact .inl ⟨_, _, S, by simp only [exec, he]; rfl, hv', rfl, rfl, l, hl, rfl⟩
  | hasEntry node =>
    obtain ⟨l, hl, he, hv'⟩ := getEntry_spec hv hr.le (hlook node rfl)
    exact .inl ⟨_, _, S, by simp only [exec, hasEntry, he]; rfl, hv', rfl, rfl, l, hl, rfl⟩
  | removeEntry node f =>
    obtain ⟨l, hl, ⟨hf, he⟩ | ⟨a, hf, -, ⟨he, hfree, hdt⟩ | ⟨-, ht', he, hv', hdt, -⟩⟩⟩ :=
      removeEntry_spec hv hr.le (hlook node rfl) f
    · exact .inl ⟨ht, .flag false, S, by simp only [exec, he]; rfl, hv, rfl, l, hl, .inl ⟨hf, rfl, rfl⟩⟩
    · refine .inr ⟨.thrown .misconfigured, by simp only [exec, he]; rfl, .inr ⟨rfl, hfree, hdt⟩, fun hadm => ?_⟩
      exact absurd ((hadm.2 hfree).symm.trans hdt) (by decide)
    · exact .inl ⟨ht', .flag true, _, by simp only [exec, he]; rfl, hv', hdt, l, hl, .inr ⟨a, hf, rfl, rfl⟩⟩
  | clear f =>
    rcases @clear_spec ν key hash ht f with ⟨he, hfree, hdt⟩ | ⟨ht', he, hv', hdt⟩
    · refine .inr ⟨.thrown .misconfigured, by simp only [exec, he]; rfl, .inr ⟨rfl, hfree, hdt⟩, fun hadm => ?_⟩
      exact absurd ((hadm.2 hfree).symm.trans hdt) (by decide)
    · exact .inl ⟨ht', .done, ∅, by simp only [exec, he]; rfl, hv', hdt, rfl, rfl⟩

/-- A call adds one node at most. -/
theorem Effect.card_le {c : Call ν} {r : Answer ν} {S' : Finset ν} (h : Effect key hash c ht S r S') :
    S'.card ≤ S.card + 1 := by
  cases c with
  | insertEntry node dup =>
    obtain ⟨l, -, ⟨-, -, -, rfl⟩ | ⟨-, rfl, -⟩⟩ := h
    · omega
    · exact Finset.card_insert_le _ _
  | getEntry node => rw [h.1]; omega
  | hasEntry node => rw [h.1]; omega
  | removeEntry node f =>
    obtain ⟨l, -, ⟨-, -, rfl⟩ | ⟨a, -, -, rfl⟩⟩ := h
    · omega
    · exact Finset.card_erase_le.trans (by omega)
  | clear f => rw [h.2]; simp

/-- The state between the calls of a run: `n` of them were made. -/
def Reached (key : ν → List UInt8) (hash : List UInt8 → UInt64) (dtor : Bool) (n : ℕ) (ht : Hasht ν) : Prop :=
  ∃ S, Valid key hash ht S ∧ S.card ≤ n ∧ ht.dtor = dtor

omit [DecidableEq ν] in
theorem reached_hashtNew (dtor : Bool) (lf : ℕ) (next : ν → Option ν) :
    Reached key hash dtor 0 (hashtNew dtor lf next) := ⟨∅, valid_hashtNew dtor lf next, le_rfl, rfl⟩

/-- **After every call of a run that inserts no node twice the table keeps its invariant**,
unless a check ended the process; and on every such table a resize, refused or not, loses
and duplicates no node. -/
theorem wellFormed_throughout (dtor : Bool) (lf : ℕ) (next : ν → Option ν) (cs : List (Call ν))
    (hr : cs.length ≤ rounds) (hm : Meets (exec key hash rounds) NotTwice cs (hashtNew dtor lf next)) :
    Throughout (exec key hash rounds) (Stops key dtor) (WellFormed key hash) cs (hashtNew dtor lf next) ∧
      ∀ ht : Hasht ν, WellFormed key hash ht → ht.count ≤ rounds → ∀ isdel,
        maybeResize key hash rounds ht isdel = .ok none ∨
          ∃ ht', maybeResize key hash rounds ht isdel = .ok (some ht') ∧ WellFormed key hash ht' ∧
            nodes ht' = nodes ht ∧ ht'.count = ht.count := by
  constructor
  · refine throughout_of_step (Reached key hash dtor) ?_ ?_ (reached_hashtNew dtor lf next) hm
    · rintro n c ht hn ⟨S, hv, hS, hd⟩ hc
      have hr' : S.card < rounds := by omega
      rcases exec_spec hv hr' hc with ⟨ht', r, S', he, hv', hd', heff⟩ | ⟨e, he, hs, -⟩
      · exact .inl ⟨ht', r, he, S', hv', heff.card_le.trans (by omega), hd'.trans hd⟩
      · exact .inr ⟨e, he, hd ▸ hs⟩
    · rintro n ht ⟨S, hv, -⟩
      exact hv.wellFormed
  · intro ht h hcount isdel
    obtain ⟨S, hv⟩ := h.valid
    rcases maybeResize_spec hv (hv.count ▸ hcount) isdel with ⟨he, -⟩ | ⟨ht', he, hv', -⟩
    · exact .inl he
    · refine .inr ⟨ht', he, hv'.wellFormed, ?_, hv'.count.trans hv.count.symm⟩
      ext a
      rw [hv'.mem_nodes, hv.mem_nodes]

theorem wellFormed_throughout_two :
    Throughout (exec (fun n : ℕ => [n.toUInt8]) djb2 2) (Stops (fun n : ℕ => [n.toUInt8]) false)
        (WellFormed (fun n : ℕ => [n.toUInt8]) djb2) [.insertEntry 1 true, .removeEntry 1 false]
        (hashtNew false 0 fun _ => none) ∧
      ∀ ht : Hasht ℕ, WellFormed (fun n : ℕ => [n.toUInt8]) djb2 ht → ht.count ≤ 2 → ∀ isdel,
        maybeResize (fun n : ℕ => [n.toUInt8]) djb2 2 ht isdel = .ok none ∨
          ∃ ht', maybeResize (fun n : ℕ => [n.toUInt8]) djb2 2 ht isdel = .ok (some ht') ∧
            WellFormed (fun n : ℕ => [n.toUInt8]) djb2 ht' ∧ nodes ht' = nodes ht ∧ ht'.count = ht.count := by
  refine wellFormed_throughout false 0 (fun _ => none) _ (by decide) ⟨?_, fun _ _ _ => ⟨?_, fun _ _ _ => trivial⟩⟩
  · rintro node - ⟨i, -, l, hl, ha⟩
    obtain rfl : l = [] := hl.unique (by exact rfl)
    cases ha
  · rintro node ⟨⟩

/-- A node inserted a second time, as a duplicate of itself, is linked to itself. -/
theorem inserted_twice : ∃ s rs, runCalls (exec (fun n : ℕ => [n.toUInt8]) djb2 2)
      [.insertEntry 1 true, .insertEntry 1 true] (hashtNew false 0 fun _ => none) = .ok (s, rs) ∧
    ¬WellFormed (fun n : ℕ => [n.toUInt8]) djb2 s := by
  have hends : endsIn (exec (fun n : ℕ => [n.toUInt8]) djb2 2)
      (fun s => s.numBuckets == 16 && s.next 1 == some 1 &&
        s.buckets (bucketOf (fun n : ℕ => [n.toUInt8]) djb2 16 1) == some 1)
      [.insertEntry 1 true, .insertEntry 1 true] (hashtNew false 0 fun _ => none) = true := by decide +kernel
  obtain ⟨s, rs, hrun, hs⟩ := exists_of_endsIn hends
  simp only [Bool.and_eq_true, beq_iff_eq] at hs
  obtain ⟨⟨hnb, hnext⟩, hbucket⟩ := hs
  refine ⟨s, rs, hrun, fun h => ?_⟩
  obtain ⟨S, hv⟩ := h.valid
  obtain ⟨l, hl, hnd, -⟩ := hv.bucketChain 1
  unfold BucketChain at hl
  rw [hnb, hbucket] at hl
  cases l with
  | nil => cases hl
  | cons a l =>
    obtain ⟨ha, hl⟩ := hl
    obtain rfl := Option.some.inj ha
    rw [hnext] at hl
    cases l with
    | nil => cases hl
    | cons b l =>
      obtain ⟨hb, -⟩ := hl
      obtain rfl := Option.some.inj hb
      simp at hnd

/-! ## A collection of entries with keys -/

section Bag

variable (key) in
/-- A call on a finite set of entries, of which any number may have the same key. -/
def Bag.Step (c : Call ν) (S : Finset ν) (r : Answer ν) (S' : Finset ν) : Prop :=
  match c with
  | .insertEntry node allowDuplicates =>
    allowDuplicates = false ∧ (∃ a ∈ S, key a = key node) ∧ r = .flag false ∧ S' = S ∨
      (allowDuplicates = false → ∀ a ∈ S, key a ≠ key node) ∧ r = .flag true ∧ S' = insert node S
  | .getEntry node =>
    S' = S ∧ ((∃ a ∈ S, key a = key node ∧ r = .node (some a)) ∨
      (∀ a ∈ S, key a ≠ key node) ∧ r = .node none)
  | .hasEntry node =>
    S' = S ∧ ((∃ a ∈ S, key a = key node) ∧ r = .flag true ∨
      (∀ a ∈ S, key a ≠ key node) ∧ r = .flag false)
  | .removeEntry node _ =>
    (∃ a ∈ S, key a = key node ∧ S' = S.erase a) ∧ r = .flag true ∨
      (∀ a ∈ S, key a ≠ key node) ∧ r = .flag false ∧ S' = S
  | .clear _ => r = .done ∧ S' = ∅

omit [DecidableEq ν] in
/-- The nodes of the table are those of the set. -/
def Stores (ht : Hasht ν) (S : Finset ν) : Prop := (∀ a, a ∈ S ↔ a ∈ nodes ht) ∧ ht.count = S.card

/-- A call on the table does what it does on the set. -/
def Refines (key : ν → List UInt8) (c : Call ν) (ht : Hasht ν) (r : Answer ν) (ht' : Hasht ν) : Prop :=
  ∃ S S', Stores ht S ∧ Stores ht' S' ∧ Bag.Step key c S r S'

end Bag

omit [DecidableEq ν] in
/-- Along the chain, no node that merely is the same to `equal_keys` comes before one that
has the key of `node`. -/
def Clear (key : ν → List UInt8) (node : ν) : List ν → Prop
  | [] => True
  | a :: l => key a = key node ∨ same key a node = false ∧ Clear key node l

/-- A call does not take one key for another; it does not insert a node twice, nor one for
which the table cannot grow. -/
def Unconfused (key : ν → List UInt8) (hash : List UInt8 → UInt64) (c : Call ν) (ht : Hasht ν) : Prop :=
  match c with
  | .insertEntry node allowDuplicates => (allowDuplicates = true → node ∉ nodes ht) ∧
      ∀ l, BucketChain key hash ht node l →
        (allowDuplicates = false ∧ Matched key ht node l → ∃ a ∈ l, key a = key node) ∧
          ((allowDuplicates = false → ¬Matched key ht node l) → ¬Full ht)
  | .getEntry node | .hasEntry node => ∀ l, BucketChain key hash ht node l →
      (∃ c, ht.cached = some c ∧ key c = key node) ∨
        (∀ c, ht.cached = some c → same key c node = false) ∧ Clear key node l
  | .removeEntry node _ => ∀ l, BucketChain key hash ht node l → Clear key node l
  | .clear _ => True

omit [DecidableEq ν] in
theorem Clear.find {node a : ν} {l : List ν} (h : Clear key node l) (hf : l.find? (same key · node) = some a) :
    key a = key node := by
  induction l with
  | nil => cases hf
  | cons b l ih =>
    rcases h with hb | ⟨hb, h⟩
    · rw [List.find?_cons_of_pos (p := (same key · node)) (same_of_eq hb)] at hf
      obtain rfl := Option.some.inj hf
      exact hb
    · rw [List.find?_cons_of_neg (p := (same key · node)) (by simpa using hb)] at hf
      exact ih h hf

omit [DecidableEq ν] in
/-- Where nothing is found in its bucket, no node has the key. -/
theorem Valid.not_stored {node : ν} {l : List ν} (hv : Valid key hash ht S) (hl : BucketChain key hash ht node l)
    (hno : ∀ a ∈ l, ¬same key a node = true) : ∀ a ∈ S, key a ≠ key node := by
  intro a ha hk
  obtain ⟨l', hl', -, hm⟩ := hv.bucketChain node
  obtain rfl := hl.unique hl'
  exact hno a ((hm a).2 ⟨ha, bucketOf_congr hk⟩) (same_of_eq hk)

omit [DecidableEq ν] in
theorem Valid.stored_of_mem {node a : ν} {l : List ν} (hv : Valid key hash ht S)
    (hl : BucketChain key hash ht node l) (ha : a ∈ l) : a ∈ S := by
  obtain ⟨l', hl', -, hm⟩ := hv.bucketChain node
  obtain rfl := hl.unique hl'
  exact ((hm a).1 ha).1

omit [DecidableEq ν] in
/-- What an unconfused lookup finds. -/
theorem Valid.found_cases {node : ν} {l : List ν} (hv : Valid key hash ht S) (hl : BucketChain key hash ht node l)
    (hu : (∃ c, ht.cached = some c ∧ key c = key node) ∨
      (∀ c, ht.cached = some c → same key c node = false) ∧ Clear key node l) :
    (∃ a ∈ S, key a = key node ∧ found key ht node l = some a) ∨
      (∀ a ∈ S, key a ≠ key node) ∧ found key ht node l = none := by
  rcases hu with ⟨c, hcd, hk⟩ | ⟨hno, hclear⟩
  · refine .inl ⟨c, hv.cached c hcd, hk, ?_⟩
    unfold found
    rw [hcd]
    exact if_pos (same_of_eq hk)
  · have hf : found key ht node l = l.find? (same key · node) := by
      unfold found
      cases hcd : ht.cached with
      | none => rfl
      | some c => simp only [hno c hcd]; rfl
    rw [hf]
    cases hfind : l.find? (same key · node) with
    | some a => exact .inl ⟨a, hv.stored_of_mem hl (List.mem_of_find?_eq_some hfind), hclear.find hfind, rfl⟩
    | none => exact .inr ⟨hv.not_stored hl (by simpa using hfind), rfl⟩

theorem Effect.bag {c : Call ν} {r : Answer ν} {S' : Finset ν} (h : Effect key hash c ht S r S')
    (hv : Valid key hash ht S) (hu : Unconfused key hash c ht) : Bag.Step key c S r S' := by
  cases c with
  | insertEntry node dup =>
    obtain ⟨l, hl, ⟨hd, hm, hr, hS⟩ | ⟨hm, hS, hr⟩⟩ := h
    · obtain ⟨a, ha, hk⟩ := (hu.2 l hl).1 ⟨hd, hm⟩
      exact .inl ⟨hd, ⟨a, hv.stored_of_mem hl ha, hk⟩, hr, hS⟩
    · refine .inr ⟨fun hd => hv.not_stored hl fun a ha hs => hm hd (.inr ⟨a, ha, hs⟩), ?_, hS⟩
      exact hr.resolve_right fun hf => (hu.2 l hl).2 hm hf.2
  | getEntry node =>
    obtain ⟨hS, l, hl, hr⟩ := h
    refine ⟨hS, ?_⟩
    rcases hv.found_cases hl (hu l hl) with ⟨a, ha, hk, hf⟩ | ⟨hno, hf⟩
    · exact .inl ⟨a, ha, hk, by rw [hr, hf]⟩
    · exact .inr ⟨hno, by rw [hr, hf]⟩
  | hasEntry node =>
    obtain ⟨hS, l, hl, hr⟩ := h
    refine ⟨hS, ?_⟩
    rcases hv.found_cases hl (hu l hl) with ⟨a, ha, hk, hf⟩ | ⟨hno, hf⟩
    · exact .inl ⟨⟨a, ha, hk⟩, by rw [hr, hf]; rfl⟩
    · exact .inr ⟨hno, by rw [hr, hf]; rfl⟩
  | removeEntry node f =>
    obtain ⟨l, hl, ⟨hf, hr, hS⟩ | ⟨a, hf, hr, hS⟩⟩ := h
    · exact .inr ⟨hv.not_stored hl (by simpa using hf), hr, hS⟩
    · exact .inl ⟨⟨a, hv.stored_of_mem hl (List.mem_of_find?_eq_some hf), (hu l hl).find hf, hS⟩, hr⟩
  | clear f => exact h

omit [DecidableEq ν] in
theorem Valid.stores (hv : Valid key hash ht S) : Stores ht S := ⟨fun _ => hv.mem_nodes.symm, hv.count⟩

/-- **Every call of a run does what it does on the collection of the entries stored**, where no
key is taken for another. -/
theorem refines_bag (dtor : Bool) (lf : ℕ) (next : ν → Option ν) (cs : List (Call ν)) (hr : cs.length ≤ rounds)
    (hm : Meets (exec key hash rounds) (fun c ht => Admitted key c ht ∧ Unconfused key hash c ht) cs
      (hashtNew dtor lf next)) :
    Each (exec key hash rounds) (Refines key) cs (hashtNew dtor lf next) := by
  refine each_of_step (Reached key hash dtor) ?_ (reached_hashtNew dtor lf next) hm
  rintro n c ht hn ⟨S, hv, hS, hd⟩ ⟨hadm, hu⟩
  have htwice : NotTwice c ht := by
    rintro node rfl
    exact hu.1 rfl
  have hr' : S.card < rounds := by omega
  rcases exec_spec hv hr' htwice with ⟨ht', r, S', he, hv', hd', heff⟩ | ⟨e, -, -, hno⟩
  · exact ⟨ht', r, he, ⟨S', hv', heff.card_le.trans (by omega), hd'.trans hd⟩, S, S', hv.stores, hv'.stores,
      heff.bag hv hu⟩
  · exact absurd hadm hno

theorem refines_bag_two : Each (exec (fun n : ℕ => [0, n.toUInt8]) (fun _ => 0) 2)
    (Refines fun n : ℕ => [0, n.toUInt8]) [.insertEntry 1 false, .getEntry 1]
    (hashtNew false 0 fun _ => none) := by
  refine refines_bag false 0 _ _ (by decide) ⟨⟨⟨fun _ _ => .inl (by simp), by rintro ⟨⟩⟩, by rintro ⟨⟩, ?_⟩,
    fun s r h => ?_⟩
  · intro l hl
    obtain rfl : l = [] := hl.unique (by exact rfl)
    refine ⟨?_, ?_⟩
    · rintro ⟨-, ⟨c, hc, -⟩ | ⟨a, ha, -⟩⟩
      · cases hc
      · cases ha
    · rintro - ⟨hload, -⟩
      exact absurd hload (by decide)
  · cases h
    refine ⟨⟨⟨fun _ _ => .inl (by simp), by rintro ⟨⟩⟩, ?_⟩, fun _ _ _ => trivial⟩
    intro l hl
    refine .inr ⟨by rintro c ⟨⟩, ?_⟩
    cases l with
    | nil => trivial
    | cons a l =>
      obtain ⟨ha, -⟩ := hl
      cases ha
      exact .inl rfl

/-- Two keys of two bytes that both begin with a zero byte: a lookup of the second, which is not
stored, is answered from the cache with the first. -/
theorem found_other : ¬Each (exec (fun n : ℕ => [0, n.toUInt8]) djb2 3) (Refines fun n : ℕ => [0, n.toUInt8])
    [.insertEntry 1 false, .getEntry 1, .getEntry 2] (hashtNew false 0 fun _ => none) := by
  intro h
  obtain ⟨s₁, rs, s₂, r, h₁, h₂, S, S', -, -, hstep⟩ := h [.insertEntry 1 false, .getEntry 1] _ (List.prefix_refl _)
  have hends : endsIn (exec (fun n : ℕ => [0, n.toUInt8]) djb2 3)
      (fun s => s.cached == some 1 && s.count == 1) [.insertEntry 1 false, .getEntry 1]
      (hashtNew false 0 fun _ => none) = true := by decide +kernel
  obtain ⟨s, rs', hrun, hs⟩ := exists_of_endsIn hends
  obtain ⟨rfl, rfl⟩ : s₁ = s ∧ rs = rs' := by
    have := h₁.symm.trans hrun
    simpa using this
  simp only [Bool.and_eq_true, beq_iff_eq] at hs
  have hget : getEntry (fun n : ℕ => [0, n.toUInt8]) djb2 3 s₁ 2 = .ok (s₁, some 1) := by
    unfold getEntry cacheHit
    rw [if_neg (by rw [hs.2]; decide), hs.1]
    rfl
  have hr : r = .node (some 1) := by
    simp only [exec, hget] at h₂
    cases h₂
    rfl
  rcases hstep.2 with ⟨a, -, hk, hra⟩ | ⟨-, hra⟩
  · rw [hr] at hra
    cases hra
    exact absurd hk (by decide)
  · rw [hr] at hra
    cases hra

end Libtarp.HashTable
