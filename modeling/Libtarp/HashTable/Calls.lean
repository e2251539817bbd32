import Libtarp.HashTable.Buckets

/-!
# Calls on a hash table

One specification for each function, on a valid table with the nodes `S`. Keys are compared
as `strncmp` does: `Same`. What a lookup finds is the cached node, if that is the same, or
else the first node of the bucket that is.
-/

namespace Libtarp.HashTable

open Function Lib

variable {ν : Type} {key : ν → List UInt8} {hash : List UInt8 → UInt64} {a node : ν}
  {next : ν → Option ν} {S : Finset ν} {rounds : ℕ} {ht : Hasht ν} {p : Option ν} {l : List ν}

/-- The outcome of `equal_keys`. -/
def same (key : ν → List UInt8) (a b : ν) : Bool :=
  (key a).length == (key b).length && strncmpZero (key a).length (key a) (key b)

theorem strncmpZero_self (n : ℕ) (k : List UInt8) : strncmpZero n k k = true := by
  induction k generalizing n with
  | nil => cases n <;> rfl
  | cons x k ih =>
    cases n with
    | zero => rfl
    | succ n =>
      unfold strncmpZero
      rw [if_neg (by simp)]
      split_ifs
      · rfl
      · exact ih n

theorem same_of_eq {a b : ν} (h : key a = key b) : same key a b = true := by
  unfold same
  rw [h, strncmpZero_self]
  simp

theorem equalKeys_eq {a b : ν} (ha : key a ≠ []) (hb : key b ≠ []) : equalKeys key a b = .ok (same key a b) := by
  unfold equalKeys same
  rw [if_neg (by simp [ha, hb])]
  by_cases hl : (key a).length = (key b).length
  · rw [if_neg (by simpa using hl)]; simp [hl]
  · rw [if_pos hl]; simp [hl]

theorem equalKeys_nil {a b : ν} (hb : key b = []) : equalKeys key a b = .error .assertion :=
  if_pos (.inr (by rw [hb]; rfl))

theorem findInChain_spec (hc : Chain next p l) (hk : ∀ a ∈ l, key a ≠ []) (hn : key node ≠ [])
    (hr : l.length ≤ rounds) : findInChain key next node rounds p = .ok (l.find? (same key · node)) := by
  induction l generalizing p rounds with
  | nil =>
    obtain rfl := chain_nil.1 hc
    rw [findInChain]; rfl
  | cons a l ih =>
    obtain ⟨rfl, hc⟩ := hc
    cases rounds with
    | zero => simp at hr
    | succ rounds =>
      rw [findInChain]
      simp only [equalKeys_eq (hk a (List.mem_cons_self ..)) hn, bind, Except.bind]
      by_cases hs : same key a node = true
      · rw [if_pos hs, List.find?_cons_of_pos (p := (same key · node)) hs]; rfl
      · rw [if_neg hs, List.find?_cons_of_neg (p := (same key · node)) hs]
        exact ih hc (fun b hb => hk b (List.mem_cons_of_mem _ hb)) (by simpa using hr)

/-- What is before a node that comes after those of `l₁`. -/
def before (prev : Prev ν) (l₁ : List ν) : Prev ν :=
  match l₁.getLast? with
  | none => prev
  | some c => .node c

/-- The loop of a removal also finds what is before the node. -/
theorem findWithPrev_spec (prev : Prev ν) (hc : Chain next p l) (hk : ∀ a ∈ l, key a ≠ []) (hn : key node ≠ [])
    (hr : l.length ≤ rounds) :
    findWithPrev key next node rounds prev p = .ok none ∧ l.find? (same key · node) = none ∨
      ∃ l₁ a l₂, l = l₁ ++ a :: l₂ ∧ l.find? (same key · node) = some a ∧
        findWithPrev key next node rounds prev p = .ok (some (before prev l₁, a)) := by
  induction l generalizing p rounds prev with
  | nil =>
    obtain rfl := chain_nil.1 hc
    exact .inl ⟨by rw [findWithPrev], rfl⟩
  | cons a l ih =>
    obtain ⟨rfl, hc⟩ := hc
    cases rounds with
    | zero => simp at hr
    | succ rounds =>
      rw [findWithPrev]
      simp only [equalKeys_eq (hk a (List.mem_cons_self ..)) hn, bind, Except.bind]
      by_cases hs : same key a node = true
      · rw [if_pos hs]
        exact .inr ⟨[], a, l, rfl, List.find?_cons_of_pos (p := (same key · node)) hs, rfl⟩
      · rw [if_neg hs, List.find?_cons_of_neg (p := (same key · node)) hs]
        rcases ih (.node a) hc (fun b hb => hk b (List.mem_cons_of_mem _ hb))
          (show l.length ≤ rounds by simpa using hr) with ⟨he, hf⟩ | ⟨l₁, c, l₂, rfl, hf, he⟩
        · exact .inl ⟨he, hf⟩
        · refine .inr ⟨a :: l₁, c, l₂, rfl, hf, ?_⟩
          rw [he]
          cases l₁ with
          | nil => rfl
          | cons d l₁ =>
            obtain ⟨e, hlast⟩ : ∃ e, (d :: l₁).getLast? = some e := ⟨_, List.getLast?_eq_some_getLast (by simp)⟩
            unfold before
            rw [List.getLast?_cons_cons, hlast]

theorem Valid.cacheHit (hv : Valid key hash ht S) (hn : key node ≠ []) :
    cacheHit key ht node = .ok (ht.cached.any (same key · node)) := by
  unfold HashTable.cacheHit
  cases hc : ht.cached with
  | none => rfl
  | some c => exact equalKeys_eq (hv.keys c (hv.cached c hc)) hn

/-- The chain of the bucket of `node`. -/
def BucketChain (key : ν → List UInt8) (hash : List UInt8 → UInt64) (ht : Hasht ν) (node : ν) (l : List ν) :
    Prop :=
  Chain ht.next (ht.buckets (bucketOf key hash ht.numBuckets node)) l

theorem Valid.bucketChain (hv : Valid key hash ht S) (node : ν) : ∃ l, BucketChain key hash ht node l ∧
    l.Nodup ∧ ∀ a, a ∈ l ↔ a ∈ S ∧ bucketOf key hash ht.numBuckets a = bucketOf key hash ht.numBuckets node :=
  hv.buckets.chain hv.size node

/-- A node with the key of another is in the chain of its bucket. -/
theorem bucketOf_congr {nb : ℕ} {a b : ν} (h : key a = key b) : bucketOf key hash nb a = bucketOf key hash nb b := by
  unfold bucketOf; rw [h]

/-- What a lookup finds. -/
def found (key : ν → List UInt8) (ht : Hasht ν) (node : ν) (l : List ν) : Option ν :=
  match ht.cached with
  | some c => if same key c node then some c else l.find? (same key · node)
  | none => l.find? (same key · node)

variable [DecidableEq ν]

theorem length_le_of_subset (hr : S.card ≤ rounds) (hn : l.Nodup) (hm : ∀ a ∈ l, a ∈ S) : l.length ≤ rounds := by
  rw [← List.toFinset_card_of_nodup hn]
  exact (Finset.card_le_card fun a ha => hm a (List.mem_toFinset.1 ha)).trans hr

/-- What the search in the bucket of `node` comes to. -/
theorem Valid.findInChain (hv : Valid key hash ht S) (hr : S.card ≤ rounds) (hn : key node ≠ [])
    (hl : BucketChain key hash ht node l) :
    findInChain key ht.next node rounds (ht.buckets (bucketOf key hash ht.numBuckets node)) =
      .ok (l.find? (same key · node)) := by
  obtain ⟨l', hl', hnd, hm⟩ := hv.bucketChain node
  obtain rfl := hl'.unique hl
  have hmem : ∀ a ∈ l', a ∈ S := fun a ha => ((hm a).1 ha).1
  exact findInChain_spec hl (fun a ha => hv.keys a (hmem a ha)) hn (length_le_of_subset hr hnd hmem)

/-- **`Hasht_get_entry`**. -/
theorem getEntry_spec (hv : Valid key hash ht S) (hr : S.card ≤ rounds) (hn : ht.count = 0 ∨ key node ≠ []) :
    ∃ l, BucketChain key hash ht node l ∧
      getEntry key hash rounds ht node = .ok ({ ht with cached := (found key ht node l).or ht.cached },
        found key ht node l) ∧
      Valid key hash { ht with cached := (found key ht node l).or ht.cached } S := by
  obtain ⟨l, hc, hnd, hm⟩ := hv.bucketChain node
  have hfound : ∀ c, found key ht node l = some c → c ∈ S := by
    intro c hf
    have hfind : l.find? (same key · node) = some c → c ∈ S := fun h => ((hm c).1 (List.mem_of_find?_eq_some h)).1
    unfold found at hf
    split at hf
    · rename_i d hd
      split_ifs at hf
      · obtain rfl := Option.some.inj hf
        exact hv.cached d hd
      · exact hfind hf
    · exact hfind hf
  refine ⟨l, hc, ?_, hv.size, hv.buckets, hv.count, fun c hcached => ?_, hv.keys⟩
  · unfold getEntry
    by_cases h0 : ht.count = 0
    · -- nothing is stored, so nothing is cached
      obtain rfl : S = ∅ := Finset.card_eq_zero.1 (hv.count ▸ h0)
      have hno : found key ht node l = none := by
        cases hf : found key ht node l with
        | none => rfl
        | some c => exact absurd (hfound c hf) (Finset.notMem_empty c)
      rw [if_pos h0, hno]; rfl
    have hn := hn.resolve_left h0
    rw [if_neg h0]
    simp only [hv.cacheHit hn, bind, Except.bind, node2index_eq hv.size hn]
    have hfind := hv.findInChain hr hn hc
    unfold found
    cases hcached : ht.cached with
    | none =>
      simp only [Option.any_none, Bool.false_eq_true, if_false, hfind]
      cases l.find? (same key · node) with
      | none => simp [hcached.symm]; rfl
      | some i => rfl
    | some c =>
      simp only [Option.any_some]
      by_cases hs : same key c node = true
      · rw [if_pos hs, if_pos hs, ← hcached, Option.or_self]; rfl
      · rw [if_neg hs, if_neg hs]
        simp only [hfind]
        cases l.find? (same key · node) with
        | none => simp [hcached.symm]; rfl
        | some i => rfl
  · cases hf : found key ht node l with
    | none =>
      rw [hf] at hcached
      exact hv.cached c hcached
    | some d =>
      rw [hf] at hcached
      obtain rfl : d = c := Option.some.inj hcached
      exact hfound d hf

/-- The table once the node `a`, which is behind the nodes of `l₁`, was unlinked. -/
theorem setNext_valid {l₁ l₂ : List ν} (hv : Valid key hash ht S) (haS : a ∈ S)
    (hc : Chain ht.next (ht.buckets (bucketOf key hash ht.numBuckets a)) (l₁ ++ a :: l₂)) (cached : Option ν)
    (hcached : ∀ c, cached = some c → c ∈ S ∧ c ≠ a) :
    Valid key hash { setNext ht (bucketOf key hash ht.numBuckets a)
      (before .head l₁) (ht.next a) with cached, count := ht.count - 1 } (S.erase a) := by
  have hb := hv.buckets.unlink (bucketOf_lt hv.size a) hc
  unfold before
  refine ⟨?_, ?_, ?_, fun c h => Finset.mem_erase.2 (hcached c h).symm, fun c h => hv.keys c (Finset.mem_of_mem_erase h)⟩
  · cases l₁.getLast? <;> exact hv.size
  · cases hlast : l₁.getLast? with
    | none =>
      rw [hlast, if_pos (List.getLast?_eq_none_iff.1 hlast)] at hb
      exact hb
    | some c =>
      rw [hlast, if_neg (by rintro rfl; simp at hlast)] at hb
      exact hb
  · show ht.count - 1 = (S.erase a).card
    rw [Finset.card_erase_of_mem haS, hv.count]

/-- `ht₁` is the table without the node `a`, before any resize. -/
structure Unlinked (ht : Hasht ν) (a : ν) (ht₁ : Hasht ν) : Prop where
  numBuckets : ht₁.numBuckets = ht.numBuckets
  lf : ht₁.lf = ht.lf
  count : ht₁.count = ht.count - 1
  chain : ∀ i < ht.numBuckets, ∀ l, Chain ht.next (ht.buckets i) l → Chain ht₁.next (ht₁.buckets i) (l.erase a)

theorem setNext_unlinked {l₁ l₂ : List ν} (hv : Valid key hash ht S)
    (hc : Chain ht.next (ht.buckets (bucketOf key hash ht.numBuckets a)) (l₁ ++ a :: l₂)) (cached : Option ν) :
    Unlinked ht a { setNext ht (bucketOf key hash ht.numBuckets a)
      (before .head l₁) (ht.next a) with cached, count := ht.count - 1 } := by
  have hchain := fun i hi l => hv.buckets.unlink_chain (i := i) (l := l) (bucketOf_lt hv.size a) hc hi
  unfold before
  cases hlast : l₁.getLast? with
  | none =>
    rw [hlast, if_pos (List.getLast?_eq_none_iff.1 hlast)] at hchain
    exact ⟨rfl, rfl, rfl, hchain⟩
  | some c =>
    rw [hlast, if_neg (by rintro rfl; simp at hlast)] at hchain
    exact ⟨rfl, rfl, rfl, hchain⟩

@[simp] theorem setNext_cached (ht : Hasht ν) (idx : ℕ) (prev : Prev ν) (q : Option ν) :
    (setNext ht idx prev q).cached = ht.cached := by cases prev <;> rfl

@[simp] theorem setNext_dtor (ht : Hasht ν) (idx : ℕ) (prev : Prev ν) (q : Option ν) :
    (setNext ht idx prev q).dtor = ht.dtor := by cases prev <;> rfl

@[simp] theorem setNext_count (ht : Hasht ν) (idx : ℕ) (prev : Prev ν) (q : Option ν) :
    (setNext ht idx prev q).count = ht.count := by cases prev <;> rfl

/-- The cache is emptied where the key is that of the node taken out, and is kept where it cannot have been the node. -/
theorem forget_spec {l₁ l₂ : List ν} {hit : Bool} (hv : Valid key hash ht S) (haS : a ∈ S)
    (hc : Chain ht.next (ht.buckets (bucketOf key hash ht.numBuckets a)) (l₁ ++ a :: l₂))
    (hhit : hit = false → ht.cached ≠ some a) {ht₁ ht₂ : Hasht ν}
    (h₁ : ht₁ = setNext ht (bucketOf key hash ht.numBuckets a) (before .head l₁) (ht.next a))
    (h₂ : ht₂ = if hit = true then { ht₁ with cached := none } else ht₁) :
    Valid key hash { ht₂ with count := ht.count - 1 } (S.erase a) ∧ Unlinked ht a { ht₂ with count := ht.count - 1 } ∧
      ht₂.dtor = ht.dtor ∧ ht₂.count = ht.count := by
  subst h₁ h₂
  cases hit with
  | true =>
    rw [if_pos rfl]
    exact ⟨setNext_valid hv haS hc none (by simp), setNext_unlinked hv hc none, setNext_dtor .., setNext_count ..⟩
  | false =>
    rw [if_neg Bool.false_ne_true]
    have hvalid := setNext_valid hv haS hc ht.cached fun c hcd => ⟨hv.cached c hcd, fun hca => hhit rfl (hca ▸ hcd)⟩
    have hunlinked := setNext_unlinked hv hc ht.cached
    rw [← setNext_cached ht (bucketOf key hash ht.numBuckets a) (before .head l₁) (ht.next a)] at hvalid hunlinked
    exact ⟨hvalid, hunlinked, setNext_dtor .., setNext_count ..⟩

/-- **`Hasht_remove_entry`**. -/
theorem removeEntry_spec (hv : Valid key hash ht S) (hr : S.card ≤ rounds) (hn : ht.count = 0 ∨ key node ≠ [])
    (freeContainer : Bool) :
    ∃ l, BucketChain key hash ht node l ∧
      (l.find? (same key · node) = none ∧ removeEntry key hash rounds ht node freeContainer = .ok (ht, false) ∨
        ∃ a, l.find? (same key · node) = some a ∧ a ∈ S ∧
          (removeEntry key hash rounds ht node freeContainer = .error (.thrown .misconfigured) ∧
              freeContainer = true ∧ ht.dtor = false ∨
            ∃ ht₁ ht', removeEntry key hash rounds ht node freeContainer = .ok (ht', true) ∧
              Valid key hash ht' (S.erase a) ∧ ht'.dtor = ht.dtor ∧ Unlinked ht a ht₁ ∧
              (ht' = ht₁ ∨ Moves ht₁ true))) := by
  obtain ⟨l, hc, hnd, hm⟩ := hv.bucketChain node
  refine ⟨l, hc, ?_⟩
  unfold removeEntry
  by_cases h0 : ht.count = 0
  · obtain rfl : S = ∅ := Finset.card_eq_zero.1 (hv.count ▸ h0)
    obtain rfl : l = [] := List.eq_nil_iff_forall_not_mem.2 fun a ha => Finset.notMem_empty a ((hm a).1 ha).1
    rw [if_pos h0]
    exact .inl ⟨rfl, rfl⟩
  have hn := hn.resolve_left h0
  rw [if_neg h0]
  simp only [node2index_eq hv.size hn, bind, Except.bind]
  have hlen : l.length ≤ rounds := length_le_of_subset hr hnd fun a ha => ((hm a).1 ha).1
  rcases findWithPrev_spec .head hc (fun a ha => hv.keys a ((hm a).1 ha).1) hn hlen
    with ⟨he, hf⟩ | ⟨l₁, a, l₂, rfl, hf, he⟩
  · simp only [he]
    exact .inl ⟨hf, rfl⟩
  obtain ⟨haS, hab⟩ := (hm a).1 (by simp)
  have hsame : same key a node = true := List.find?_some (p := (same key · node)) hf
  refine .inr ⟨a, hf, haS, ?_⟩
  simp only [he]
  have hca : Chain ht.next (ht.buckets (bucketOf key hash ht.numBuckets a)) (l₁ ++ a :: l₂) := by
    rw [hab]
    exact hc
  rw [← hab]
  set ht₁ := setNext ht (bucketOf key hash ht.numBuckets a) (before .head l₁) (ht.next a) with h₁
  have hhit : cacheHit key ht₁ node = .ok (ht.cached.any (same key · node)) := by
    rw [← hv.cacheHit hn]
    unfold HashTable.cacheHit
    rw [h₁, setNext_cached]
  simp only [hhit]
  set ht₂ := if ht.cached.any (same key · node) = true then { ht₁ with cached := none } else ht₁ with h₂
  -- what is still cached is not the node taken out
  have hkept : ht.cached.any (same key · node) = false → ht.cached ≠ some a := by
    intro hno hcd
    rw [hcd, Option.any_some, hsame] at hno
    cases hno
  obtain ⟨hvalid, hunlinked, hd, hcnt⟩ := forget_spec hv haS hca hkept h₁ h₂
  by_cases hfree : (freeContainer && !ht₂.dtor) = true
  · rw [if_pos hfree]
    rw [Bool.and_eq_true, hd, Bool.not_eq_true'] at hfree
    exact .inl ⟨rfl, hfree⟩
  · rw [if_neg hfree, hcnt]
    have hr₂ : (S.erase a).card ≤ rounds := (Finset.card_le_card (Finset.erase_subset _ _)).trans hr
    rcases maybeResize_spec hvalid hr₂ true with ⟨-, hno, -⟩ | ⟨ht', hre, hv', hd', hmv, -⟩
    · cases hno
    · simp only [hre]
      exact .inr ⟨_, ht', rfl, hv', hd'.trans hd, hunlinked, hmv⟩

/-- One node more would make the table grow beyond the limit. -/
def Full (ht : Hasht ν) : Prop := Refused { ht with count := ht.count + 1 }

/-- The table with `node` in front of its chain. -/
def linked (key : ν → List UInt8) (hash : List UInt8 → UInt64) (ht : Hasht ν) (node : ν) : Hasht ν :=
  { ht with
    next := update ht.next node (ht.buckets (bucketOf key hash ht.numBuckets node))
    buckets := update ht.buckets (bucketOf key hash ht.numBuckets node) (some node)
    count := ht.count + 1 }

/-- A new node is linked in, even where the table cannot grow as it should. -/
theorem linkEntry_spec (hv : Valid key hash ht S) (hr : S.card < rounds) (hn : key node ≠ []) (hnew : node ∉ S) :
    ∃ ht' b, linkEntry key hash rounds ht (bucketOf key hash ht.numBuckets node) node = .ok (ht', b) ∧
      Valid key hash ht' (insert node S) ∧ ht'.dtor = ht.dtor ∧ (b = false ↔ Full ht) ∧
      (ht' = linked key hash ht node ∨ Moves (linked key hash ht node) false) := by
  unfold linkEntry
  set ht₁ : Hasht ν := linked key hash ht node with hht₁
  have hv₁ : Valid key hash ht₁ (insert node S) := by
    refine ⟨hv.size, hv.buckets.rawSet hnew, ?_, fun c hc => Finset.mem_insert_of_mem (hv.cached c hc), fun a ha => ?_⟩
    · rw [Finset.card_insert_of_notMem hnew, ← hv.count]
      rfl
    · rcases Finset.mem_insert.1 ha with rfl | ha
      · exact hn
      · exact hv.keys a ha
  have hr₁ : (insert node S).card ≤ rounds := by
    rw [Finset.card_insert_of_notMem hnew]
    omega
  rcases maybeResize_spec hv₁ hr₁ false with ⟨hre, -, href⟩ | ⟨ht', hre, hv', hd', hmv, hnot⟩
  · refine ⟨ht₁, false, ?_, hv₁, rfl, iff_of_true rfl href, .inl rfl⟩
    rw [hht₁, linked] at hre
    simp only [hre, bind, Except.bind]
    rfl
  · refine ⟨ht', true, ?_, hv', hd', iff_of_false (by decide) (hnot rfl), hmv⟩
    rw [hht₁, linked] at hre
    simp only [hre, bind, Except.bind]
    rfl

/-- Some node, cached or in the bucket, has the key of `node` as far as `equal_keys` sees. -/
def Matched (key : ν → List UInt8) (ht : Hasht ν) (node : ν) (l : List ν) : Prop :=
  (∃ c, ht.cached = some c ∧ same key c node = true) ∨ ∃ a ∈ l, same key a node = true

/-- **`Hasht_insert_entry`**. A node that is linked in already may only be given to it when
duplicates are refused. -/
theorem insertEntry_spec (hv : Valid key hash ht S) (hr : S.card < rounds) (hn : key node ≠ [])
    (allowDuplicates : Bool) (hnew : allowDuplicates = true → node ∉ S) :
    ∃ l, BucketChain key hash ht node l ∧
      (allowDuplicates = false ∧ Matched key ht node l ∧
          insertEntry key hash rounds ht node allowDuplicates = .ok (ht, false) ∨
        (allowDuplicates = false → ¬Matched key ht node l) ∧ node ∉ S ∧
          ∃ ht' b, insertEntry key hash rounds ht node allowDuplicates = .ok (ht', b) ∧
            Valid key hash ht' (insert node S) ∧ ht'.dtor = ht.dtor ∧ (b = false ↔ Full ht) ∧
            (ht' = linked key hash ht node ∨ Moves (linked key hash ht node) false)) := by
  obtain ⟨l, hc, hnd, hm⟩ := hv.bucketChain node
  refine ⟨l, hc, ?_⟩
  unfold insertEntry
  simp only [node2index_eq hv.size hn, bind, Except.bind]
  -- a duplicate that is allowed is linked unseen
  by_cases hdup : allowDuplicates = true
  · rw [if_pos hdup]
    exact .inr ⟨fun h => absurd (hdup.symm.trans h) (by decide), hnew hdup, linkEntry_spec hv hr hn (hnew hdup)⟩
  rw [if_neg hdup]
  have hdup' : allowDuplicates = false := by simpa using hdup
  simp only [hv.cacheHit hn]
  by_cases hhit : ht.cached.any (same key · node) = true
  · rw [if_pos hhit]
    exact .inl ⟨hdup', .inl ((Option.any_eq_true ..).1 hhit), rfl⟩
  rw [if_neg hhit]
  -- neither the cache nor the bucket holds the key, so the node is a new one
  have hcache : ¬∃ c, ht.cached = some c ∧ same key c node = true := by
    rintro ⟨c, hcd, hs⟩
    rw [hcd, Option.any_some] at hhit
    exact hhit hs
  have hfind := hv.findInChain hr.le hn hc
  simp only [unique, hfind, bind, Except.bind, pure, Except.pure]
  cases hf : l.find? (same key · node) with
  | some a =>
    refine .inl ⟨hdup', .inr ⟨a, List.mem_of_find?_eq_some hf, List.find?_some (p := (same key · node)) hf⟩, ?_⟩
    rfl
  | none =>
    have hno : ∀ a ∈ l, ¬same key a node = true := by simpa using hf
    have hnot : node ∉ S := fun h => hno node ((hm node).2 ⟨h, rfl⟩) (same_of_eq rfl)
    refine .inr ⟨fun _ => ?_, hnot, linkEntry_spec hv hr hn hnot⟩
    rintro (h | ⟨a, ha, hs⟩)
    · exact hcache h
    · exact hno a ha hs

omit [DecidableEq ν] in
theorem clear_spec (freeContainers : Bool) :
    clear ht freeContainers = .error (.thrown .misconfigured) ∧ freeContainers = true ∧ ht.dtor = false ∨
      ∃ ht', clear ht freeContainers = .ok ht' ∧ Valid key hash ht' ∅ ∧ ht'.dtor = ht.dtor := by
  unfold clear
  by_cases hfree : (freeContainers && !ht.dtor) = true
  · rw [if_pos hfree]
    rw [Bool.and_eq_true, Bool.not_eq_true'] at hfree
    exact .inl ⟨rfl, hfree⟩
  · rw [if_neg hfree]
    have hsize : Size ((allocateHasht 0).getD 0) := ⟨by decide, by decide, 4, by decide⟩
    exact .inr ⟨_, rfl, ⟨hsize, buckets_empty _ _, rfl, by simp, by simp⟩, rfl⟩

end Libtarp.HashTable
