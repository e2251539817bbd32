import Libtarp.HashTable.Runs

/-!
# The table among other users of the memory (`Hasht_clear`)

A node that is not in the table is somebody else's, as for the tree: anything is written to it between the calls, and
the memory of a destroyed node holds anything.

* `destroyChains_spec`: `destroy_chains` destroys the nodes of every bucket and reads none that is destroyed.
* `Valid.others`: what is written to other nodes does not matter to the table.
* `table_shares_memory`: the calls, and the clearing of the table, do what they do on a collection of entries, whatever
  is written to others.  Clearing the table destroys every node once.
-/

namespace Libtarp.HashTable

open Function Lib

variable {ν : Type} [DecidableEq ν] {key : ν → List UInt8} {hash : List UInt8 → UInt64} {S : Finset ν} {rounds : ℕ}
  {ht : Hasht ν}

/-- The destructor is called.  The memory of the node holds `junk` after it. -/
def destroy (junk : ν → Option ν) (htn : ν) (t : (ν → Option ν) × List ν) : Except Fault ((ν → Option ν) × List ν) :=
  .ok (update t.1 htn (junk htn), t.2 ++ [htn])

/-- `destroy_chains`, on the first buckets, with the nodes destroyed so far. -/
def destroyChains (junk : ν → Option ν) (rounds : ℕ) (buckets : ℕ → Option ν) :
    ℕ → (ν → Option ν) × List ν → Except Fault ((ν → Option ν) × List ν)
  | 0, t => .ok t
  | i + 1, t => do
    let t ← destroyChains junk rounds buckets i t
    walk (fun t => t.1) (destroy junk) .rounds rounds (buckets i) t

/-- `Hasht_clear`, with the nodes that it destroys. -/
def hashtClear (junk : ν → Option ν) (rounds : ℕ) (ht : Hasht ν) (freeContainers : Bool) :
    Except Fault (Hasht ν × List ν) :=
  if freeContainers then
    if ht.dtor then do
      let (next, destroyed) ← destroyChains junk rounds ht.buckets ht.numBuckets (ht.next, [])
      let ht ← clear { ht with next } freeContainers
      pure (ht, destroyed)
    else .error (.thrown .misconfigured)
  else do
    let ht ← clear ht freeContainers
    pure (ht, [])

/-- The nodes of a chain are destroyed one after the other. -/
theorem walk_destroy (junk next : ν → Option ν) (destroyed : List ν) {l : List ν} {p : Option ν} (hc : Chain next p l)
    (hr : l.length ≤ rounds) : ∃ next', walk (fun t => t.1) (destroy junk) Fault.rounds rounds p (next, destroyed) =
      .ok (next', destroyed ++ l) ∧ ∀ a, a ∉ l → next' a = next a := by
  let P : List ν → (ν → Option ν) × List ν → Prop := fun rest t => Chain t.1 rest.head? rest ∧
    t.2 ++ rest = destroyed ++ l ∧ (∀ a, a ∉ l → t.1 a = next a) ∧ ∀ a ∈ rest, a ∈ l
  have hlink : ∀ {a : ν} {rest : List ν} {t : (ν → Option ν) × List ν}, P (a :: rest) t → t.1 a = rest.head? := by
    rintro a rest t ⟨⟨-, hchain⟩, -⟩
    have := (chain_iff_seg.1 hchain).start
    rwa [Option.or_none] at this
  have hbody : ∀ a rest t, P (a :: rest) t → ∃ t', destroy junk a t = .ok t' ∧ P rest t' := by
    intro a rest t hP
    have hnext := hlink hP
    obtain ⟨hchain, hall, hkeep, hmem⟩ := hP
    have hrest : Chain t.1 rest.head? rest := hnext ▸ hchain.2
    refine ⟨_, rfl, hrest.update (List.nodup_cons.1 hchain.nodup).1, ?_, ?_, ?_⟩
    · rw [← hall, List.append_assoc]
      rfl
    · rintro b hb
      rw [← hkeep b hb]
      exact update_of_ne (fun he : b = a => hb (he ▸ hmem a (List.mem_cons_self ..))) ..
    · exact fun b hb => hmem b (List.mem_cons_of_mem _ hb)
  have hp : p = l.head? := by
    have := (chain_iff_seg.1 hc).start
    rwa [Option.or_none] at this
  have hstart : P l (next, destroyed) := ⟨hp ▸ hc, rfl, fun _ _ => rfl, fun _ h => h⟩
  obtain ⟨⟨next', all⟩, hwalk, -, hall, hkeep, -⟩ :=
    walk_spec Fault.rounds (fun _ _ _ => hlink) hbody hstart hr
  rw [List.append_nil] at hall
  subst hp hall
  exact ⟨next', hwalk, hkeep⟩

/-- **What is destroyed**: every node of the table that belongs in one of the first buckets, once. -/
theorem destroyChains_spec (junk : ν → Option ν) (hv : Valid key hash ht S) (hr : S.card ≤ rounds) {n : ℕ}
    (hn : n ≤ ht.numBuckets) : ∃ next destroyed, destroyChains junk rounds ht.buckets n (ht.next, []) =
      .ok (next, destroyed) ∧ destroyed.Nodup ∧
      (∀ a, a ∈ destroyed ↔ a ∈ S ∧ bucketOf key hash ht.numBuckets a < n) ∧
      ∀ a, a ∉ destroyed → next a = ht.next a := by
  induction n with
  | zero => exact ⟨ht.next, [], rfl, List.nodup_nil, by simp, fun _ _ => rfl⟩
  | succ i ih =>
    obtain ⟨next, destroyed, hchains, hnodup, hmem, hkeep⟩ := ih (by omega)
    obtain ⟨l, hl, hnl, hml⟩ := hv.buckets i (by omega)
    have hdis : ∀ a ∈ l, a ∉ destroyed := by
      intro a ha hd
      have hlt := ((hmem a).1 hd).2
      have heq := ((hml a).1 ha).2
      omega
    have hlen : l.length ≤ rounds := length_le_of_subset hr hnl fun a ha => ((hml a).1 ha).1
    obtain ⟨next', hwalk, hkeep'⟩ :=
      walk_destroy junk next destroyed (hl.congr fun a ha => hkeep a (hdis a ha)) hlen
    refine ⟨next', destroyed ++ l, ?_, ?_, ?_, ?_⟩
    · unfold destroyChains
      rw [hchains]
      exact hwalk
    · exact hnodup.append hnl fun a hd ha => hdis a ha hd
    · intro a
      rw [List.mem_append, hmem, hml, ← and_or_left, Nat.lt_succ_iff_lt_or_eq]
    · intro a ha
      rw [List.mem_append, not_or] at ha
      rw [hkeep' a ha.2, hkeep a ha.1]

theorem hashtClear_spec (junk : ν → Option ν) {freeContainers : Bool} (hv : Valid key hash ht S)
    (hr : S.card ≤ rounds) (hd : freeContainers = true → ht.dtor = true) :
    ∃ ht' destroyed, hashtClear junk rounds ht freeContainers = .ok (ht', destroyed) ∧ Valid key hash ht' ∅ ∧
      destroyed.Nodup ∧ ∀ a, a ∈ destroyed ↔ freeContainers = true ∧ a ∈ S := by
  unfold hashtClear
  cases freeContainers with
  | false =>
    rcases @clear_spec ν key hash ht false with ⟨-, hfree, -⟩ | ⟨ht', he, hv', -⟩
    · cases hfree
    · refine ⟨ht', [], ?_, hv', List.nodup_nil, by simp⟩
      simp only [Bool.false_eq_true, if_false, he, bind, Except.bind, pure, Except.pure]
  | true =>
    obtain ⟨next, destroyed, hchains, hnodup, hmem, -⟩ := destroyChains_spec junk hv hr le_rfl
    rcases @clear_spec ν key hash { ht with next } true with ⟨-, -, hno⟩ | ⟨ht', he, hv', -⟩
    · exact absurd ((hd rfl).symm.trans hno) (by decide)
    · refine ⟨ht', destroyed, ?_, hv', hnodup, fun a => ?_⟩
      · rw [if_pos rfl, if_pos (hd rfl)]
        simp only [hchains, he, bind, Except.bind, pure, Except.pure]
      · rw [hmem, and_iff_left (bucketOf_lt hv.size a)]
        simp

/-! ## Whatever is written to other nodes -/

omit [DecidableEq ν] in
theorem Valid.others (hv : Valid key hash ht S) {next : ν → Option ν} (hsame : ∀ a ∈ nodes ht, next a = ht.next a) :
    Valid key hash { ht with next } S where
  size := hv.size
  buckets := by
    intro i hi
    obtain ⟨l, hl, hn, hm⟩ := hv.buckets i hi
    exact ⟨l, hl.congr fun a ha => hsame a (hv.mem_nodes.2 ((hm a).1 ha).1), hn, hm⟩
  count := hv.count
  cached := hv.cached
  keys := hv.keys

/-- What happens to a table: a call, its clearing, or something to the memory of other nodes. -/
inductive Event (ν : Type)
  | call (c : Call ν)
  | clear (freeContainers : Bool) (junk : ν → Option ν)
  | others (next : ν → Option ν)

/-- What is seen of it. -/
inductive Seen (ν : Type)
  | answer (r : Answer ν)
  | destroyed (nodes : List ν)
  | nothing

variable (key hash) in
def execEvent (rounds : ℕ) : Event ν → Hasht ν → Except Fault (Hasht ν × Seen ν)
  | .call c, ht => (exec key hash rounds c ht).map fun p => (p.1, .answer p.2)
  | .clear freeContainers junk, ht => (hashtClear junk rounds ht freeContainers).map fun p => (p.1, .destroyed p.2)
  | .others next, ht => .ok ({ ht with next }, .nothing)

variable (key hash) in
/-- What a caller and the other users of the memory have to see to. -/
def Allowed : Event ν → Hasht ν → Prop
  | .call c, ht => Admitted key c ht ∧ Unconfused key hash c ht ∧ ∀ freeContainers, c ≠ .clear freeContainers
  | .clear freeContainers _, ht => freeContainers = true → ht.dtor = true
  | .others next, ht => ∀ a ∈ nodes ht, next a = ht.next a

variable (key) in
/-- What happens to the collection of the entries stored. -/
def OnBag (e : Event ν) (S : Finset ν) (r : Seen ν) (S' : Finset ν) : Prop :=
  match e with
  | .call c => ∃ a, r = .answer a ∧ Bag.Step key c S a S'
  | .clear freeContainers _ => ∃ destroyed, r = .destroyed destroyed ∧ destroyed.Nodup ∧
      (∀ a, a ∈ destroyed ↔ freeContainers = true ∧ a ∈ S) ∧ S' = ∅
  | .others _ => r = .nothing ∧ S' = S

/-- **One event.** -/
theorem execEvent_spec {e : Event ν} (hv : Valid key hash ht S) (hr : S.card < rounds) (he : Allowed key hash e ht) :
    ∃ ht' r S', execEvent key hash rounds e ht = .ok (ht', r) ∧ Valid key hash ht' S' ∧ OnBag key e S r S' := by
  cases e with
  | call c =>
    have htwice : NotTwice c ht := by
      rintro node rfl
      exact he.2.1.1 rfl
    rcases exec_spec hv hr htwice with ⟨ht', r, S', hexec, hv', -, heff⟩ | ⟨e, -, -, hno⟩
    · exact ⟨ht', .answer r, S', by simp only [execEvent, hexec]; rfl, hv', r, rfl, heff.bag hv he.2.1⟩
    · exact absurd he.1 hno
  | clear freeContainers junk =>
    obtain ⟨ht', destroyed, hclear, hv', hnodup, hmem⟩ := hashtClear_spec junk hv hr.le he
    refine ⟨ht', .destroyed destroyed, ∅, ?_, hv', destroyed, rfl, hnodup, hmem, rfl⟩
    simp only [execEvent, hclear]
    rfl
  | others next => exact ⟨_, .nothing, S, rfl, hv.others he, rfl, rfl⟩

/-- **A table shares the memory with others.**  Whatever is written to nodes that are not in the table, be it that they
were destroyed, everything that happens to the table is as on a collection of entries. -/
theorem table_shares_memory (dtor : Bool) (lf : ℕ) (next : ν → Option ν) (es : List (Event ν))
    (hm : Meets (execEvent key hash rounds) (fun e ht => Allowed key hash e ht ∧ ht.count < rounds) es
      (hashtNew dtor lf next)) :
    Each (execEvent key hash rounds) (fun e ht r ht' => ∃ S S', Stores ht S ∧ Stores ht' S' ∧ OnBag key e S r S') es
      (hashtNew dtor lf next) := by
  refine each_of_step (fun _ ht => ∃ S, Valid key hash ht S) ?_ ⟨∅, valid_hashtNew dtor lf next⟩ hm
  rintro n e ht - ⟨S, hv⟩ ⟨he, hfew⟩
  obtain ⟨ht', r, S', hstep, hv', hbag⟩ := execEvent_spec hv (hv.count ▸ hfew) he
  exact ⟨ht', r, hstep, ⟨S', hv'⟩, S, S', hv.stores, hv'.stores, hbag⟩

theorem table_shares_memory_two : Each (execEvent (fun n : ℕ => [n.toUInt8]) (fun _ => 0) 2)
    (fun e ht r ht' => ∃ S S', Stores ht S ∧ Stores ht' S' ∧ OnBag (fun n : ℕ => [n.toUInt8]) e S r S')
    [.call (.insertEntry 1 true), .clear true fun _ => some 1] (hashtNew true 0 fun _ => some 7) := by
  refine table_shares_memory true 0 _ _ ⟨⟨⟨⟨fun _ _ => .inl (by simp), nofun⟩, ⟨?_, ?_⟩, nofun⟩, by decide⟩, ?_⟩
  · rintro - ⟨i, -, l, hl, ha⟩
    obtain rfl : l = [] := hl.unique (by exact rfl)
    cases ha
  · intro l hl
    refine ⟨by simp, ?_⟩
    rintro - ⟨hload, -⟩
    exact absurd hload (by decide)
  · intro s r h
    cases h
    exact ⟨⟨fun _ => rfl, by decide⟩, fun _ _ _ => trivial⟩

end Libtarp.HashTable
