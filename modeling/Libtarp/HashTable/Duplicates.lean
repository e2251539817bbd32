import Libtarp.HashTable.Runs

/-!
# Entries that share a key

Beside the table the entries stored in it are kept in the order of their insertion. With duplicates allowed, the newest
entry under a key is the one that lookups and removals are promised to come to.

* `InUse`: the entries of a key stand in their chain in that order.
* `InUse.link`, `InUse.unlink`: one entry more, one entry less.
* `InUse.moved`: a rebuilt chain has the order of any list, if no two entries share a key. A resize takes the nodes from
  the front of the old chains and puts them in front of the new ones, so it turns the order of duplicates round.
* `newest_each`: the calls of a run come to the newest entries. What is asked of a lookup is that nothing was inserted
  under its key after the entry in the cache.
-/

namespace Libtarp.HashTable

open Function Lib

variable {ν : Type} {key : ν → List UInt8} {hash : List UInt8 → UInt64} {rounds : ℕ}

/-- A table, and the entries stored in it, the one inserted last at the front. -/
structure Logged (ν : Type) where
  ht : Hasht ν
  log : List ν

section Log

variable (key)

/-- The entry under the key of `node` that was inserted last. -/
def newest (log : List ν) (node : ν) : Option ν := log.find? fun a => decide (key a = key node)

/-- An insertion that refuses duplicates is given one. -/
def Refuses (node : ν) (allowDuplicates : Bool) (log : List ν) : Prop :=
  allowDuplicates = false ∧ (newest key log node).isSome = true

instance (node : ν) (allowDuplicates : Bool) (log : List ν) : Decidable (Refuses key node allowDuplicates log) :=
  inferInstanceAs (Decidable (_ ∧ _))

variable [DecidableEq ν]

/-- What a call is to do to the entries stored. -/
def logged (c : Call ν) (log : List ν) : List ν :=
  match c with
  | .insertEntry node allowDuplicates => if Refuses key node allowDuplicates log then log else node :: log
  | .getEntry _ | .hasEntry _ => log
  | .removeEntry node _ =>
    match newest key log node with
    | some a => log.erase a
    | none => log
  | .clear _ => []

variable (hash)

def execLogged (rounds : ℕ) (c : Call ν) (t : Logged ν) : Except Fault (Logged ν × Answer ν) := do
  let (ht, r) ← exec key hash rounds c t.ht
  pure (⟨ht, logged key c t.log⟩, r)

end Log

section Conditions

variable [DecidableEq ν]

/-- The call comes to the newest entry under its key: a lookup returns it, and a removal takes it out, so that what is
stored afterwards is still what the log has. -/
def ComesToNewest (key : ν → List UInt8) (c : Call ν) (t : Logged ν) (r : Answer ν) (t' : Logged ν) : Prop :=
  (∀ a, a ∈ nodes t'.ht ↔ a ∈ t'.log) ∧ t'.log = logged key c t.log ∧
    match c with
    | .getEntry node => r = .node (newest key t.log node)
    | .hasEntry node | .removeEntry node _ => r = .flag (newest key t.log node).isSome
    | .insertEntry _ _ | .clear _ => True

/-- No key is taken for another by the call, and no node is inserted that is in the table. -/
def ToldApart (key : ν → List UInt8) (hash : List UInt8 → UInt64) (c : Call ν) (ht : Hasht ν) : Prop :=
  match c with
  | .insertEntry node allowDuplicates => (allowDuplicates = true → node ∉ nodes ht) ∧
      ∀ l, BucketChain key hash ht node l →
        allowDuplicates = false ∧ Matched key ht node l → ∃ a ∈ l, key a = key node
  | .getEntry node | .hasEntry node => ∀ l, BucketChain key hash ht node l →
      (∃ e, ht.cached = some e ∧ key e = key node) ∨
        (∀ e, ht.cached = some e → same key e node = false) ∧ Clear key node l
  | .removeEntry node _ => ∀ l, BucketChain key hash ht node l → Clear key node l
  | .clear _ => True

/-- An entry that a lookup finds in the cache is the newest under its key. -/
def CacheFresh (key : ν → List UInt8) (c : Call ν) (t : Logged ν) : Prop :=
  ∀ node e, c = .getEntry node → t.ht.cached = some e → key e = key node → newest key t.log node = some e

/-- The call changes the number of buckets. -/
def Rebuilds (key : ν → List UInt8) (c : Call ν) (t : Logged ν) : Prop :=
  match c with
  | .insertEntry node allowDuplicates => ¬Refuses key node allowDuplicates t.log ∧
      Moves { t.ht with count := t.ht.count + 1 } false
  | .removeEntry node _ => (newest key t.log node).isSome = true ∧ Moves { t.ht with count := t.ht.count - 1 } true
  | _ => False

omit [DecidableEq ν] in
theorem cacheFresh_insertEntry (node : ν) (allowDuplicates : Bool) (t : Logged ν) :
    CacheFresh key (.insertEntry node allowDuplicates) t := by
  intro _ _ h
  cases h

/-- Where the chains are rebuilt, no two entries share a key. -/
def RebuiltApart (key : ν → List UInt8) (c : Call ν) (t : Logged ν) : Prop :=
  Rebuilds key c t → ∀ a ∈ logged key c t.log, ∀ b ∈ logged key c t.log, key a = key b → a = b

end Conditions

/-! ## The order of the entries -/

theorem newest_eq_head (log : List ν) (node : ν) :
    newest key log node = (log.filter fun a => decide (key a = key node)).head? := List.head?_filter.symm

theorem newest_isSome {log : List ν} {node : ν} :
    (newest key log node).isSome = true ↔ ∃ a ∈ log, key a = key node := by
  simp [newest, List.find?_isSome]

/-- Where no other key is taken for that of `node`, `equal_keys` finds the first entry that has it. -/
theorem Clear.find_eq {node : ν} {l : List ν} (h : Clear key node l) :
    l.find? (same key · node) = l.find? fun a => decide (key a = key node) := by
  induction l with
  | nil => rfl
  | cons a l ih =>
    rcases h with ha | ⟨ha, h⟩
    · rw [List.find?_cons_of_pos (p := (same key · node)) (same_of_eq ha), List.find?_cons_of_pos (by simpa using ha)]
    · have hne : key a ≠ key node := by
        intro he
        rw [same_of_eq he] at ha
        cases ha
      rw [List.find?_cons_of_neg (p := (same key · node)) (by simpa using ha),
        List.find?_cons_of_neg (by simpa using hne)]
      exact ih h

/-- Two lists of the same elements have the same one that passes the test, if there is no more than one. -/
theorem filter_eq_of_unique {l l' : List ν} {p : ν → Bool} (hl : l.Nodup) (hl' : l'.Nodup)
    (hmem : ∀ a, p a = true → (a ∈ l ↔ a ∈ l')) (huniq : ∀ a ∈ l', ∀ b ∈ l', p a = true → p b = true → a = b) :
    l.filter p = l'.filter p := by
  have hperm : (l.filter p).Perm (l'.filter p) := by
    rw [List.perm_ext_iff_of_nodup (hl.filter p) (hl'.filter p)]
    intro a
    rw [List.mem_filter, List.mem_filter]
    constructor
    · rintro ⟨ha, hp⟩
      exact ⟨(hmem a hp).1 ha, hp⟩
    · rintro ⟨ha, hp⟩
      exact ⟨(hmem a hp).2 ha, hp⟩
  have hn := hl'.filter p
  have hone : ∀ a ∈ l'.filter p, ∀ b ∈ l'.filter p, a = b := by
    intro a ha b hb
    rw [List.mem_filter] at ha hb
    exact huniq a ha.1 b hb.1 ha.2 hb.2
  -- a permutation of a list of no more than one element is that list
  generalize l'.filter p = m at hperm hn hone
  match m with
  | [] => exact hperm.eq_nil
  | [a] => exact List.perm_singleton.1 hperm
  | a :: b :: m =>
    obtain rfl : a = b := hone a (by simp) b (by simp)
    simp at hn

variable [DecidableEq ν]

/-- What holds between calls: what is stored is what the log has, and the entries of a key stand in their chain in the
order of the log. -/
structure InUse (key : ν → List UInt8) (hash : List UInt8 → UInt64) (t : Logged ν) : Prop where
  valid : Valid key hash t.ht t.log.toFinset
  nodup : t.log.Nodup
  order : ∀ node l, BucketChain key hash t.ht node l →
    l.filter (fun a => decide (key a = key node)) = t.log.filter fun a => decide (key a = key node)

theorem InUse.mem_nodes {t : Logged ν} (h : InUse key hash t) {a : ν} : a ∈ nodes t.ht ↔ a ∈ t.log := by
  rw [h.valid.mem_nodes, List.mem_toFinset]

theorem InUse.card_lt {t : Logged ν} (h : InUse key hash t) (hr : t.log.length < rounds) :
    t.log.toFinset.card < rounds := by
  rw [List.toFinset_card_of_nodup h.nodup]
  exact hr

theorem inUse_hashtNew (dtor : Bool) (lf : ℕ) (next : ν → Option ν) :
    InUse key hash ⟨hashtNew dtor lf next, []⟩ := by
  refine ⟨valid_hashtNew dtor lf next, List.nodup_nil, ?_⟩
  intro node l hl
  obtain rfl : l = [] := hl.unique (by exact rfl)
  rfl

/-- The first entry of a key in its chain is the newest. -/
theorem InUse.find_chain {t : Logged ν} {node : ν} {l : List ν} (h : InUse key hash t)
    (hl : BucketChain key hash t.ht node l) (hclear : Clear key node l) :
    l.find? (same key · node) = newest key t.log node := by
  rw [hclear.find_eq, ← List.head?_filter, h.order node l hl, newest_eq_head]

/-- **One entry more**, in front of its chain and of the log. -/
theorem InUse.link {t : Logged ν} {node : ν} (h : InUse key hash t) (hnew : node ∉ t.log) (node' : ν) (l' : List ν)
    (hl' : BucketChain key hash (linked key hash t.ht node) node' l') :
    l'.filter (fun a => decide (key a = key node')) =
      (node :: t.log).filter fun a => decide (key a = key node') := by
  obtain ⟨l, hl, -, hm⟩ := h.valid.bucketChain node'
  have hnl : node ∉ l := fun hnl => hnew (List.mem_toFinset.1 ((hm node).1 hnl).1)
  obtain rfl : l' = if bucketOf key hash t.ht.numBuckets node' = bucketOf key hash t.ht.numBuckets node then node :: l
      else l := hl'.unique (rawSet_chain hl hnl)
  have horder := h.order node' l hl
  -- only the entries that have the key of the new one get one before them, and they are all in its bucket
  by_cases hkey : key node = key node'
  · have hidx : bucketOf key hash t.ht.numBuckets node' = bucketOf key hash t.ht.numBuckets node :=
      bucketOf_congr hkey.symm
    rw [if_pos hidx, List.filter_cons_of_pos (by simpa using hkey),
      List.filter_cons_of_pos (by simpa using hkey), horder]
  · rw [List.filter_cons_of_neg (by simpa using hkey), ← horder]
    split_ifs
    · rw [List.filter_cons_of_neg (by simpa using hkey)]
    · rfl

/-- **One entry less**, in its chain and in the log. -/
theorem InUse.unlink {t : Logged ν} {a : ν} {ht₁ : Hasht ν} (h : InUse key hash t) (hu : Unlinked t.ht a ht₁)
    (node' : ν) (l' : List ν) (hl' : BucketChain key hash ht₁ node' l') :
    l'.filter (fun a => decide (key a = key node')) = (t.log.erase a).filter fun a => decide (key a = key node') := by
  obtain ⟨l, hl, hn, -⟩ := h.valid.bucketChain node'
  have hchain := hu.chain _ (bucketOf_lt h.valid.size node') l hl
  unfold BucketChain at hl'
  rw [hu.numBuckets] at hl'
  obtain rfl := hl'.unique hchain
  rw [hn.erase_eq_filter, h.nodup.erase_eq_filter, List.filter_comm, h.order node' l hl, List.filter_comm]

omit [DecidableEq ν] in
/-- **Rebuilt chains**, in whatever order: nothing is lost where no two entries share a key. -/
theorem moved_order {ht : Hasht ν} {log : List ν} {S : Finset ν} (hv : Valid key hash ht S)
    (hS : ∀ a, a ∈ S ↔ a ∈ log) (hn : log.Nodup) (hone : ∀ a ∈ log, ∀ b ∈ log, key a = key b → a = b) (node : ν)
    (l : List ν) (hl : BucketChain key hash ht node l) :
    l.filter (fun a => decide (key a = key node)) = log.filter fun a => decide (key a = key node) := by
  obtain ⟨l', hl', hn', hm⟩ := hv.bucketChain node
  obtain rfl := hl.unique hl'
  refine filter_eq_of_unique hn' hn ?_ ?_
  · intro a ha
    rw [hm a, hS a]
    exact and_iff_left (bucketOf_congr (by simpa using ha))
  · intro a ha b hb hka hkb
    simp only [decide_eq_true_eq] at hka hkb
    exact hone a ha b hb (hka.trans hkb.symm)

/-! ## Calls -/

theorem toFinset_erase {log : List ν} (hn : log.Nodup) (a : ν) : (log.erase a).toFinset = log.toFinset.erase a := by
  ext b
  rw [List.mem_toFinset, Finset.mem_erase, List.mem_toFinset, hn.mem_erase_iff]

omit [DecidableEq ν] in
/-- Of a resize only the new number of entries matters. -/
theorem moves_congr (ht : Hasht ν) {ht' : Hasht ν} {isdel : Bool} (hnb : ht'.numBuckets = ht.numBuckets)
    (hlf : ht'.lf = ht.lf) (hcount : ht'.count = ht.count) : Moves ht' isdel ↔ Moves ht isdel := by
  unfold Moves newSize load
  rw [hnb, hlf, hcount]

/-- What a call needs, and what it leaves. -/
def Kept (key : ν → List UInt8) (hash : List UInt8 → UInt64) (rounds : ℕ) (c : Call ν) (t : Logged ν) : Prop :=
  ∃ t' r, execLogged key hash rounds c t = .ok (t', r) ∧ InUse key hash t' ∧ t'.log.length ≤ t.log.length + 1 ∧
    ComesToNewest key c t r t'

omit [DecidableEq ν] in
/-- A search is for a key that is not empty, but in an empty table. -/
theorem Admitted.searches {c : Call ν} {node : ν} {ht : Hasht ν} (hadm : Admitted key c ht) (hc : c.arg = some node) :
    ht.count = 0 ∨ key node ≠ [] := by
  rcases hadm.1 node hc with hk | ⟨h0, -⟩
  · exact .inr hk
  · exact .inl h0

/-- A call that leaves what the log is to have, in the order of the log. -/
theorem InUse.kept {c : Call ν} {t t' : Logged ν} {r : Answer ν} (hin : InUse key hash t')
    (he : exec key hash rounds c t.ht = .ok (t'.ht, r)) (hlog : logged key c t.log = t'.log)
    (hlen : t'.log.length ≤ t.log.length + 1)
    (hr : (∀ a, a ∈ nodes t'.ht ↔ a ∈ t'.log) → t'.log = logged key c t.log → ComesToNewest key c t r t') :
    Kept key hash rounds c t := by
  refine ⟨t', r, ?_, hin, hlen, hr (fun a => hin.mem_nodes) hlog.symm⟩
  unfold execLogged
  rw [he, hlog]
  rfl

theorem InUse.insertEntry {t : Logged ν} {node : ν} {allowDuplicates : Bool} (h : InUse key hash t)
    (hr : t.log.length < rounds) (hk : key node ≠ [])
    (ha : ToldApart key hash (.insertEntry node allowDuplicates) t.ht)
    (hm : RebuiltApart key (.insertEntry node allowDuplicates) t) :
    Kept key hash rounds (.insertEntry node allowDuplicates) t := by
  have hnotin : allowDuplicates = true → node ∉ t.log.toFinset := by
    intro hd
    rw [← h.valid.mem_nodes]
    exact ha.1 hd
  obtain ⟨l, hl, ⟨hd, hmatch, he⟩ | ⟨hno, hnew, ht', b, he, hv', -, -, hmv⟩⟩ :=
    insertEntry_spec h.valid (h.card_lt hr) hk allowDuplicates hnotin
  · -- refused: some entry of the bucket has the key
    obtain ⟨a, hal, hka⟩ := ha.2 l hl ⟨hd, hmatch⟩
    have hat : a ∈ t.log := List.mem_toFinset.1 (h.valid.stored_of_mem hl hal)
    have hlog : logged key (.insertEntry node allowDuplicates) t.log = t.log :=
      if_pos ⟨hd, newest_isSome.2 ⟨a, hat, hka⟩⟩
    exact h.kept (r := .flag false) (by simp only [exec, he]; rfl) hlog (by omega) fun hm hl => ⟨hm, hl, trivial⟩
  · have hnot : ¬Refuses key node allowDuplicates t.log := by
      rintro ⟨hd, hsome⟩
      obtain ⟨a, hat, hka⟩ := newest_isSome.1 hsome
      refine h.valid.not_stored hl ?_ a (List.mem_toFinset.2 hat) hka
      exact fun a hal hs => hno hd (.inr ⟨a, hal, hs⟩)
    have hlog : logged key (.insertEntry node allowDuplicates) t.log = node :: t.log := if_neg hnot
    have hnew' : node ∉ t.log := fun hn => hnew (List.mem_toFinset.2 hn)
    have hn' : (node :: t.log).Nodup := List.nodup_cons.2 ⟨hnew', h.nodup⟩
    rw [← List.toFinset_cons] at hv'
    have hin : InUse key hash ⟨ht', node :: t.log⟩ := by
      refine ⟨hv', hn', ?_⟩
      rcases hmv with rfl | hmv
      · exact h.link hnew'
      · -- the table has grown, and every chain is another
        have hone := hm ⟨hnot, hmv⟩
        rw [hlog] at hone
        exact moved_order hv' (fun a => List.mem_toFinset) hn' hone
    exact hin.kept (r := .flag b) (by simp only [exec, he]; rfl) hlog (by simp) fun hm hl => ⟨hm, hl, trivial⟩

/-- What a lookup of a key that is told apart finds. -/
theorem InUse.found_eq {t : Logged ν} {node : ν} {l : List ν} (h : InUse key hash t)
    (hl : BucketChain key hash t.ht node l)
    (ha : (∃ e, t.ht.cached = some e ∧ key e = key node) ∨
      (∀ e, t.ht.cached = some e → same key e node = false) ∧ Clear key node l) :
    (∃ e, t.ht.cached = some e ∧ key e = key node ∧ found key t.ht node l = some e) ∨
      found key t.ht node l = newest key t.log node := by
  unfold found
  rcases ha with ⟨e, he, hke⟩ | ⟨hno, hclear⟩
  · refine .inl ⟨e, he, hke, ?_⟩
    rw [he]
    exact if_pos (same_of_eq hke)
  · right
    rw [← h.find_chain hl hclear]
    cases hcd : t.ht.cached with
    | none => rfl
    | some e => simp only [hno e hcd]; rfl

/-- A lookup changes no more than the cache. -/
theorem InUse.withCached {t : Logged ν} {cached : Option ν} (h : InUse key hash t)
    (hv : Valid key hash { t.ht with cached } t.log.toFinset) : InUse key hash ⟨{ t.ht with cached }, t.log⟩ :=
  ⟨hv, h.nodup, h.order⟩

theorem InUse.getEntry {t : Logged ν} {node : ν} (h : InUse key hash t) (hr : t.log.length < rounds)
    (hadm : Admitted key (.getEntry node) t.ht) (ha : ToldApart key hash (.getEntry node) t.ht)
    (hf : CacheFresh key (.getEntry node) t) : Kept key hash rounds (.getEntry node) t := by
  obtain ⟨l, hl, he, hv⟩ := getEntry_spec h.valid (h.card_lt hr).le (hadm.searches rfl)
  have hfound : found key t.ht node l = newest key t.log node := by
    rcases h.found_eq hl (ha l hl) with ⟨e, hcd, hke, hfound⟩ | hfound
    · rw [hfound, hf node e rfl hcd hke]
    · exact hfound
  refine (h.withCached hv).kept (r := .node (newest key t.log node)) ?_ rfl (Nat.le_succ _) fun hm hl => ⟨hm, hl, rfl⟩
  simp only [exec, he, hfound]
  rfl

theorem InUse.hasEntry {t : Logged ν} {node : ν} (h : InUse key hash t) (hr : t.log.length < rounds)
    (hadm : Admitted key (.hasEntry node) t.ht) (ha : ToldApart key hash (.hasEntry node) t.ht) :
    Kept key hash rounds (.hasEntry node) t := by
  obtain ⟨l, hl, he, hv⟩ := getEntry_spec h.valid (h.card_lt hr).le (hadm.searches rfl)
  -- an old entry in the cache still tells that there is one
  have hfound : (found key t.ht node l).isSome = (newest key t.log node).isSome := by
    rcases h.found_eq hl (ha l hl) with ⟨e, hcd, hke, hfound⟩ | hfound
    · have hmem : e ∈ t.log := List.mem_toFinset.1 (h.valid.cached e hcd)
      rw [hfound, newest_isSome.2 ⟨e, hmem, hke⟩]
      rfl
    · rw [hfound]
  refine (h.withCached hv).kept (r := .flag (newest key t.log node).isSome) ?_ rfl (Nat.le_succ _)
    fun hm hl => ⟨hm, hl, rfl⟩
  simp only [exec, HashTable.hasEntry, he, bind, Except.bind, pure, Except.pure, hfound]

theorem InUse.removeEntry {t : Logged ν} {node : ν} {freeContainer : Bool} (h : InUse key hash t)
    (hr : t.log.length < rounds) (hadm : Admitted key (.removeEntry node freeContainer) t.ht)
    (ha : ToldApart key hash (.removeEntry node freeContainer) t.ht)
    (hm : RebuiltApart key (.removeEntry node freeContainer) t) :
    Kept key hash rounds (.removeEntry node freeContainer) t := by
  obtain ⟨l, hl, ⟨hf, he⟩ | ⟨a, hf, -, ⟨-, hfree, hd⟩ | ⟨ht₁, ht', he, hv', -, hu, hmv⟩⟩⟩ :=
    removeEntry_spec h.valid (h.card_lt hr).le (hadm.searches rfl) freeContainer
  · rw [h.find_chain hl (ha l hl)] at hf
    have hlog : logged key (.removeEntry node freeContainer) t.log = t.log := by simp only [logged, hf]
    refine h.kept (r := .flag false) (by simp only [exec, he]; rfl) hlog (by omega) fun hm hl => ⟨hm, hl, ?_⟩
    simp only [hf]
    rfl
  · exact absurd ((hadm.2 hfree).symm.trans hd) (by decide)
  · rw [h.find_chain hl (ha l hl)] at hf
    have hlog : logged key (.removeEntry node freeContainer) t.log = t.log.erase a := by simp only [logged, hf]
    have hn' := h.nodup.erase a
    rw [← toFinset_erase h.nodup] at hv'
    have hin : InUse key hash ⟨ht', t.log.erase a⟩ := by
      refine ⟨hv', hn', ?_⟩
      rcases hmv with rfl | hmv
      · exact h.unlink hu
      · -- the table has shrunk
        rw [moves_congr { t.ht with count := t.ht.count - 1 } hu.numBuckets hu.lf hu.count] at hmv
        have hone := hm ⟨by rw [hf]; rfl, hmv⟩
        rw [hlog] at hone
        exact moved_order hv' (fun a => List.mem_toFinset) hn' hone
    have hlen : (t.log.erase a).length ≤ t.log.length + 1 := List.length_erase_le.trans (Nat.le_succ _)
    refine hin.kept (r := .flag true) (by simp only [exec, he]; rfl) hlog hlen fun hm hl => ⟨hm, hl, ?_⟩
    simp only [hf]
    rfl

/-- **One call** keeps the order, and comes to the newest entry. -/
theorem execLogged_spec {c : Call ν} {t : Logged ν} (h : InUse key hash t) (hr : t.log.length < rounds)
    (hadm : Admitted key c t.ht) (ha : ToldApart key hash c t.ht) (hf : CacheFresh key c t)
    (hm : RebuiltApart key c t) : Kept key hash rounds c t := by
  cases c with
  | insertEntry node allowDuplicates =>
    have hk : key node ≠ [] := (hadm.1 node rfl).resolve_right fun hno => hno.2 allowDuplicates rfl
    exact h.insertEntry hr hk ha hm
  | getEntry node => exact h.getEntry hr hadm ha hf
  | hasEntry node => exact h.hasEntry hr hadm ha
  | removeEntry node freeContainer => exact h.removeEntry hr hadm ha hm
  | clear freeContainers =>
    rcases @clear_spec ν key hash t.ht freeContainers with ⟨-, hfree, hd⟩ | ⟨ht', he, hv', -⟩
    · exact absurd ((hadm.2 hfree).symm.trans hd) (by decide)
    · have hin : InUse key hash ⟨ht', []⟩ := by
        refine ⟨hv', List.nodup_nil, ?_⟩
        intro node l hl
        refine moved_order hv' (by simp) List.nodup_nil (by simp) node l hl
      exact hin.kept (r := .done) (by simp only [exec, he]; rfl) rfl (Nat.zero_le _) fun hm hl => ⟨hm, hl, trivial⟩

/-- **The newest entry first**, after any lookups and resizes: in a run in which no lookup finds an entry in the cache
under whose key another was inserted since, and no chains are rebuilt while two entries share a key. -/
theorem newest_each (dtor : Bool) (lf : ℕ) (next : ν → Option ν) (cs : List (Call ν)) (hr : cs.length ≤ rounds)
    (hm : Meets (execLogged key hash rounds) (fun c t => Admitted key c t.ht ∧ ToldApart key hash c t.ht ∧
      CacheFresh key c t ∧ RebuiltApart key c t) cs ⟨hashtNew dtor lf next, []⟩) :
    Each (execLogged key hash rounds) (ComesToNewest key) cs ⟨hashtNew dtor lf next, []⟩ := by
  -- the loops need as many rounds as there are entries, and each call adds one at most
  refine each_of_step (fun n t => InUse key hash t ∧ t.log.length ≤ n) ?_ ⟨inUse_hashtNew dtor lf next, le_rfl⟩ hm
  rintro n c t hn ⟨h, hle⟩ ⟨hadm, ha, hf, hmv⟩
  have hlen : t.log.length < rounds := by omega
  obtain ⟨t', r, he, h', hle', hP⟩ := execLogged_spec h hlen hadm ha hf hmv
  exact ⟨t', r, he, ⟨h', by omega⟩, hP⟩

omit [DecidableEq ν] in
theorem notMem_nodes_new (dtor : Bool) (lf : ℕ) (next : ν → Option ν) (a : ν) : a ∉ nodes (hashtNew dtor lf next) := by
  rintro ⟨i, -, l, hl, ha⟩
  obtain rfl : l = [] := hl.unique (by exact rfl)
  simp at ha

theorem newest_each_three : Each (execLogged (fun _ : ℕ => [7]) (fun _ => 0) 3) (ComesToNewest fun _ => [7])
    [.insertEntry 1 true, .insertEntry 2 true, .getEntry 0] ⟨hashtNew false 0 fun _ => none, []⟩ := by
  have hadm : ∀ c ht, c.frees = false → Admitted (fun _ : ℕ => [7]) c ht :=
    fun c ht hc => ⟨fun _ _ => .inl (by simp), fun hf => absurd (hc.symm.trans hf) (by decide)⟩
  -- two entries do not make the table grow
  have hfew : ∀ t : Logged ℕ, t.ht.lf = 80 → t.ht.numBuckets = 16 → t.ht.count ≤ 1 → ∀ n,
      RebuiltApart (fun _ : ℕ => [7]) (.insertEntry n true) t := by
    rintro t hlf hnb hc n ⟨-, hmv, -⟩
    refine absurd ?_ hmv
    have hload : ¬load { t.ht with count := t.ht.count + 1 } > t.ht.lf := by
      obtain h | h : t.ht.count = 0 ∨ t.ht.count = 1 := by omega
      · simp [load, hnb, hlf, h]
      · simp [load, hnb, hlf, h]
    simp [newSize, hload]
  refine newest_each false 0 (fun _ => none) _ (by decide)
    (.cons ⟨hadm _ _ rfl, ⟨fun _ => notMem_nodes_new _ _ _ _, ?_⟩, cacheFresh_insertEntry _ _ _,
        hfew _ rfl rfl (by decide) _⟩ rfl
      (.cons ⟨hadm _ _ rfl, ⟨fun _ => ?_, ?_⟩, cacheFresh_insertEntry _ _ _, hfew _ rfl rfl (by decide) _⟩ rfl
        (.last ⟨hadm _ _ rfl, ?_, ?_, ?_⟩)))
  · rintro l hl ⟨hd, -⟩
    cases hd
  · rintro ⟨i, -, l, hl, h2⟩
    by_cases hi : i = 0
    · subst hi
      obtain rfl : l = [1] := hl.unique ⟨rfl, rfl⟩
      simp at h2
    · obtain rfl : l = [] := hl.unique (update_of_ne hi _ _)
      simp at h2
  · rintro l hl ⟨hd, -⟩
    cases hd
  · intro l hl
    obtain rfl : l = [2, 1] := hl.unique ⟨rfl, rfl, rfl⟩
    refine .inr ⟨?_, .inl rfl⟩
    intro e he
    cases he
  · rintro node e - hcd
    cases hcd
  · exact False.elim

/-- After the calls `pre` the newest entry under the key is `a`, and a lookup returns `b`. -/
theorem not_each_of_older (pre : List (Call ν)) {t : Logged ν} {node a b : ν} (hne : a ≠ b)
    (hends : endsIn (execLogged key hash rounds) (fun t => newest key t.log node == some a &&
      match execLogged key hash rounds (.getEntry node) t with
      | .ok (_, r) => decide (r = .node (some b))
      | .error _ => false) pre t = true) :
    ¬Each (execLogged key hash rounds) (ComesToNewest key) (pre ++ [.getEntry node]) t := by
  intro h
  obtain ⟨t₁, rs, t₂, r, h₁, h₂, -, -, hr⟩ := h pre _ (List.prefix_refl _)
  obtain ⟨t', rs', hrun, ht⟩ := exists_of_endsIn hends
  obtain ⟨rfl, -⟩ := Prod.mk.inj (Except.ok.inj (h₁.symm.trans hrun))
  rw [h₂, Bool.and_eq_true, beq_iff_eq, decide_eq_true_eq] at ht
  obtain ⟨hnewest, rfl⟩ := ht
  simp only [hnewest, Answer.node.injEq, Option.some.injEq] at hr
  exact hne hr.symm

/-- The entries 1 and 2 have the same key. A lookup before 2 is inserted leaves 1 in the cache, and the next one returns
it again. Without the first lookup, but with a load factor of 0.01, the second insertion makes the table grow, and 1 is
in front afterwards. -/
theorem older_found : ¬Each (execLogged (fun _ : ℕ => [7]) djb2 4) (ComesToNewest fun _ => [7])
      [.insertEntry 1 true, .getEntry 0, .insertEntry 2 true, .getEntry 0] ⟨hashtNew false 0 fun _ => none, []⟩ ∧
    ¬Each (execLogged (fun _ : ℕ => [7]) djb2 3) (ComesToNewest fun _ => [7])
      [.insertEntry 1 true, .insertEntry 2 true, .getEntry 0] ⟨hashtNew false 1 fun _ => none, []⟩ := by
  constructor
  · exact not_each_of_older [.insertEntry 1 true, .getEntry 0, .insertEntry 2 true] (a := 2) (b := 1)
      (by decide) (by decide +kernel)
  · exact not_each_of_older [.insertEntry 1 true, .insertEntry 2 true] (a := 2) (b := 1)
      (by decide) (by decide +kernel)

end Libtarp.HashTable
