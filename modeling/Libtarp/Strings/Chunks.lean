import Libtarp.Strings.Strip

/-!
# Chunks of bytes (`string_utils.cxx`)

The chunks are counted, and the bytes in front of a chunk as well, in 32 bits.

* `chunk_rounds`: the chunks that the loop makes. `chunk_endless`: of 2^32 of them there is no end.
* `chunks_iff`: when they are the chunks of the bytes.
-/

namespace Libtarp.Strings

/-- The bytes between two iterators. -/
def slice (bytes : List UInt8) (start stop : ℕ) : Except Failure (List UInt8) :=
  if stop ≤ bytes.length then .ok ((bytes.drop start).take (stop - start)) else .error (.outOfBounds bytes.length)

/-- The loop of `make_chunks_from_bytes`; its `i` and `idx` have 32 bits. -/
def chunkLoop (bytes : List UInt8) (bytesPerChunk fullChunks : ℕ) :
    ℕ → ℕ → ℕ → List (List UInt8) → Option (Except Failure (List (List UInt8) × ℕ))
  | 0, _, _, _ => none
  | fuel + 1, i, idx, chunks =>
    if i < fullChunks then
      match slice bytes idx (idx + bytesPerChunk) with
      | .error e => some (.error e)
      | .ok data =>
        chunkLoop bytes bytesPerChunk fullChunks fuel ((i + 1) % 2 ^ 32) ((idx + bytesPerChunk) % 2 ^ 32) (chunks ++ [data])
    else some (.ok (chunks, idx))

/-- `make_chunks_from_bytes`, for as many rounds of its loop as `fuel` says. -/
def makeChunksFromBytes (fuel : ℕ) (chunks : List (List UInt8)) (bytes : List UInt8) (maxBytesPerChunk : ℕ) :
    Option (Except Failure (List (List UInt8))) :=
  let fullChunks := bytes.length / maxBytesPerChunk
  let hasPartialChunk := bytes.length % maxBytesPerChunk ≠ 0
  match chunkLoop bytes maxBytesPerChunk fullChunks fuel 0 0 chunks with
  | none => none
  | some (.error e) => some (.error e)
  | some (.ok (chunks, idx)) =>
    if hasPartialChunk then
      match slice bytes idx bytes.length with
      | .error e => some (.error e)
      | .ok data => some (.ok (chunks ++ [data]))
    else some (.ok chunks)

/-- The call returns, and what it appends is the bytes in chunks of the size, of which only the last may be smaller, and
not empty. -/
def ChunksRight (chunks : List (List UInt8)) (bytes : List UInt8) (size : ℕ) : Prop :=
  ∃ fuel added, makeChunksFromBytes fuel chunks bytes size = some (.ok (chunks ++ added)) ∧ added.flatten = bytes ∧
    (∀ c ∈ added.dropLast, c.length = size) ∧ ∀ c ∈ added.getLast?, 0 < c.length ∧ c.length ≤ size

variable {bytes : List UInt8} {chunks added : List (List UInt8)} {size full fuel m i idx : ℕ}

/-- The bytes at a place. -/
def chunkAt (bytes : List UInt8) (size start : ℕ) : List UInt8 := (bytes.drop start).take size

theorem length_chunkAt {start : ℕ} (h : start + size ≤ bytes.length) : (chunkAt bytes size start).length = size := by
  unfold chunkAt
  rw [List.length_take, List.length_drop]
  omega

/-! ## The loop -/

theorem chunkLoop_succ (hi : i < full) (hidx : idx + size ≤ bytes.length) :
    chunkLoop bytes size full (fuel + 1) i idx chunks =
      chunkLoop bytes size full fuel ((i + 1) % 2 ^ 32) ((idx + size) % 2 ^ 32) (chunks ++ [chunkAt bytes size idx]) := by
  have hslice : slice bytes idx (idx + size) = .ok (chunkAt bytes size idx) := by
    unfold slice chunkAt
    rw [if_pos hidx, Nat.add_sub_cancel_left]
  rw [chunkLoop, if_pos hi, hslice]

/-- What the rounds append. -/
theorem chunk_rounds (hfull : full * size ≤ bytes.length) (hlt : full < 2 ^ 32) (hm : m ≤ full) (fuel : ℕ) :
    chunkLoop bytes size full (fuel + m) 0 0 chunks = chunkLoop bytes size full fuel m (m * size % 2 ^ 32)
      (chunks ++ (List.range m).map fun k => chunkAt bytes size (k * size % 2 ^ 32)) := by
  induction m generalizing fuel with
  | zero => rw [Nat.zero_mul, List.range_zero, List.map_nil, List.append_nil]; rfl
  | succ m ih =>
    have hfuel : fuel + (m + 1) = fuel + 1 + m := by omega
    have hidx : m * size % 2 ^ 32 + size ≤ bytes.length := by
      have hmod := Nat.mod_le (m * size) (2 ^ 32)
      have hmul := Nat.mul_le_mul_right size hm
      rw [Nat.succ_mul] at hmul
      omega
    rw [hfuel, ih (by omega), chunkLoop_succ hm hidx, Nat.mod_eq_of_lt (by omega), Nat.mod_add_mod, ← Nat.succ_mul,
      List.range_succ, List.map_append, ← List.append_assoc]
    rfl

/-- The chunks of the full size, and where the loop is then. -/
theorem chunk_all (hfull : full * size ≤ bytes.length) (hlt : full < 2 ^ 32) :
    chunkLoop bytes size full (full + 1) 0 0 chunks =
      some (.ok (chunks ++ (List.range full).map fun k => chunkAt bytes size (k * size % 2 ^ 32), full * size % 2 ^ 32)) := by
  rw [Nat.add_comm, chunk_rounds hfull hlt (Nat.le_refl full), chunkLoop, if_neg (Nat.lt_irrefl full)]

/-- A count of 32 bits does not get to 2^32. -/
theorem chunk_endless (hsize : 1 ≤ size) (hfull : full * size ≤ bytes.length) (hge : 2 ^ 32 ≤ full) (hi : i < 2 ^ 32)
    (hidx : idx < 2 ^ 32) : chunkLoop bytes size full fuel i idx chunks = none := by
  induction fuel generalizing i idx chunks with
  | zero => rfl
  | succ fuel ih =>
    have hmul := Nat.mul_le_mul_right size hge
    rw [chunkLoop_succ (by omega) (by omega)]
    exact ih (Nat.mod_lt _ (by decide)) (Nat.mod_lt _ (by decide))

/-- Once the loop returns, it returns the same with more rounds. -/
theorem chunkLoop_mono {r : Except Failure (List (List UInt8) × ℕ)}
    (h : chunkLoop bytes size full fuel i idx chunks = some r) (more : ℕ) :
    chunkLoop bytes size full (fuel + more) i idx chunks = some r := by
  induction fuel generalizing i idx chunks with
  | zero => cases h
  | succ fuel ih =>
    have hfuel : fuel + 1 + more = fuel + more + 1 := by omega
    rw [chunkLoop] at h
    rw [hfuel, chunkLoop]
    split_ifs at h ⊢ with hi
    · split at h
      · exact h
      · exact ih h
    · exact h

/-! ## The chunks -/

/-- What is appended for fewer than 2^32 full chunks. -/
def appended (bytes : List UInt8) (size : ℕ) : List (List UInt8) :=
  let full := bytes.length / size
  ((List.range full).map fun k => chunkAt bytes size (k * size % 2 ^ 32)) ++
    if bytes.length % size ≠ 0 then [bytes.drop (full * size % 2 ^ 32)] else []

theorem makeChunks_eq (hlt : bytes.length / size < 2 ^ 32) :
    makeChunksFromBytes (bytes.length / size + 1) chunks bytes size = some (.ok (chunks ++ appended bytes size)) := by
  have hslice : ∀ start, slice bytes start bytes.length = .ok (bytes.drop start) := by
    intro start
    unfold slice
    rw [if_pos (Nat.le_refl _), List.take_of_length_le (List.length_drop ..).le]
  unfold makeChunksFromBytes appended
  dsimp only
  rw [chunk_all (Nat.div_mul_le_self ..) hlt]
  dsimp only
  split_ifs
  · rw [hslice, ← List.append_assoc]
  · rw [List.append_nil]

theorem makeChunks_endless (hsize : 1 ≤ size) (hge : 2 ^ 32 ≤ bytes.length / size) (fuel : ℕ) :
    makeChunksFromBytes fuel chunks bytes size = none := by
  unfold makeChunksFromBytes
  dsimp only
  rw [chunk_endless hsize (Nat.div_mul_le_self ..) hge (by decide) (by decide)]

theorem makeChunks_mono {r : Except Failure (List (List UInt8))}
    (h : makeChunksFromBytes fuel chunks bytes size = some r) (more : ℕ) :
    makeChunksFromBytes (fuel + more) chunks bytes size = some r := by
  unfold makeChunksFromBytes at h ⊢
  dsimp only at h ⊢
  cases hloop : chunkLoop bytes size (bytes.length / size) fuel 0 0 chunks with
  | none =>
    rw [hloop] at h
    cases h
  | some q =>
    rw [hloop] at h
    rwa [chunkLoop_mono hloop]

/-- That lists are the bytes, cut where they should be. -/
structure Cut (bytes : List UInt8) (size : ℕ) (added : List (List UInt8)) : Prop where
  flatten : added.flatten = bytes
  full : ∀ c ∈ added.dropLast, c.length = size
  last : ∀ c ∈ added.getLast?, 0 < c.length ∧ c.length ≤ size

theorem right_iff_cut (hlt : bytes.length / size < 2 ^ 32) :
    ChunksRight chunks bytes size ↔ Cut bytes size (appended bytes size) := by
  have hreturn : makeChunksFromBytes _ chunks bytes size = _ := makeChunks_eq hlt
  constructor
  · rintro ⟨fuel, added, hadded, hflatten, hfull, hlast⟩
    have hmore := makeChunks_mono hreturn fuel
    rw [Nat.add_comm, makeChunks_mono hadded] at hmore
    obtain rfl := List.append_cancel_left (Except.ok.inj (Option.some.inj hmore))
    exact ⟨hflatten, hfull, hlast⟩
  · rintro ⟨hflatten, hfull, hlast⟩
    exact ⟨_, _, hreturn, hflatten, hfull, hlast⟩

/-- The chunks at their places are the bytes. -/
theorem flatten_chunkAt (bytes : List UInt8) (size m : ℕ) :
    ((List.range m).map fun k => chunkAt bytes size (k * size)).flatten = bytes.take (m * size) := by
  induction m with
  | zero => rw [Nat.zero_mul, List.take_zero]; rfl
  | succ m ih =>
    rw [List.range_succ, List.map_append, List.flatten_append, ih, Nat.succ_mul, List.take_add, List.map_singleton,
      List.flatten_singleton]
    rfl

/-- A list of full chunks, and perhaps one that is smaller. -/
theorem sizes_of_full {last : List (List UInt8)} (hsize : 1 ≤ size) (hadded : ∀ c ∈ added, c.length = size)
    (hlast : last = [] ∨ ∃ c, last = [c] ∧ 0 < c.length ∧ c.length ≤ size) :
    (∀ c ∈ (added ++ last).dropLast, c.length = size) ∧
      ∀ c ∈ (added ++ last).getLast?, 0 < c.length ∧ c.length ≤ size := by
  rcases hlast with rfl | ⟨c, rfl, hpos, hle⟩
  · rw [List.append_nil]
    refine ⟨fun c hc => hadded c (List.dropLast_subset _ hc), fun c hc => ?_⟩
    have hlength := hadded c (List.mem_of_mem_getLast? hc)
    omega
  · rw [List.dropLast_concat, List.getLast?_concat]
    refine ⟨hadded, fun c' hc' => ?_⟩
    obtain rfl := Option.some.inj hc'
    exact ⟨hpos, hle⟩

theorem length_full (hi : i < bytes.length / size) : (chunkAt bytes size (i * size % 2 ^ 32)).length = size := by
  refine length_chunkAt ?_
  have hmod := Nat.mod_le (i * size) (2 ^ 32)
  have hmul := Nat.mul_le_mul_right size (Nat.succ_le_of_lt hi)
  have hle := Nat.div_mul_le_self bytes.length size
  rw [Nat.succ_mul] at hmul
  omega

/-- Bytes that fill their chunks are cut right if what is at the places found with 32 bits is what should be. -/
theorem cut_iff_places (hsize : 1 ≤ size) (hrest : bytes.length % size = 0) :
    Cut bytes size (appended bytes size) ↔ ∀ i < bytes.length / size,
      chunkAt bytes size (i * size % 2 ^ 32) = chunkAt bytes size (i * size) := by
  have hlength : bytes.length / size * size = bytes.length := by
    have hsplit := Nat.div_add_mod' bytes.length size
    omega
  have happended : appended bytes size =
      (List.range (bytes.length / size)).map fun k => chunkAt bytes size (k * size % 2 ^ 32) := by
    unfold appended
    dsimp only
    rw [if_neg (not_not_intro hrest), List.append_nil]
  have hplaces := flatten_chunkAt bytes size (bytes.length / size)
  rw [hlength, List.take_length] at hplaces
  have hfull : ∀ c ∈ appended bytes size, c.length = size := by
    rw [happended]
    intro c hc
    obtain ⟨k, hk, rfl⟩ := List.mem_map.1 hc
    exact length_full (List.mem_range.1 hk)
  have hsizes := sizes_of_full hsize hfull (.inl rfl)
  rw [List.append_nil] at hsizes
  constructor
  · intro hcut i hi
    have hflatten := hcut.flatten
    rw [happended] at hflatten
    have hlengths : ∀ k ∈ List.range (bytes.length / size),
        (chunkAt bytes size (k * size % 2 ^ 32)).length = (chunkAt bytes size (k * size)).length := by
      intro k hk
      have hle : k * size + size ≤ bytes.length := by
        rw [← Nat.succ_mul]
        exact (Nat.mul_le_mul_right size (List.mem_range.1 hk)).trans hlength.le
      rw [length_full (List.mem_range.1 hk), length_chunkAt hle]
    -- chunks of the same lengths with the same bytes are the same
    have hsame : ((List.range (bytes.length / size)).map fun k => chunkAt bytes size (k * size % 2 ^ 32)) =
        (List.range (bytes.length / size)).map fun k => chunkAt bytes size (k * size) := by
      refine List.eq_iff_flatten_eq.2 ⟨hflatten.trans hplaces.symm, ?_⟩
      rw [List.map_map, List.map_map]
      exact List.map_congr_left hlengths
    exact List.map_inj_left.1 hsame i (List.mem_range.2 hi)
  · intro hsame
    refine ⟨?_, hsizes.1, hsizes.2⟩
    rw [happended, List.map_congr_left fun k hk => hsame k (List.mem_range.1 hk), hplaces]

/-- The length of what is appended where there is a smaller chunk at the end. -/
theorem length_appended (hrest : bytes.length % size ≠ 0) : (appended bytes size).flatten.length =
    bytes.length / size * size + (bytes.length - bytes.length / size * size % 2 ^ 32) := by
  have hsizes : ((List.range (bytes.length / size)).map fun k => chunkAt bytes size (k * size % 2 ^ 32)).map List.length =
      (List.range (bytes.length / size)).map fun _ => size := by
    rw [List.map_map]
    exact List.map_congr_left fun k hk => length_full (List.mem_range.1 hk)
  unfold appended
  dsimp only
  rw [if_pos hrest, List.flatten_append, List.length_append, List.length_flatten, hsizes, List.map_const',
    List.sum_replicate_nat, List.length_range, List.flatten_singleton, List.length_drop]

/-- Bytes that do not fill their last chunk are cut right if 32 bits are enough to find it. -/
theorem cut_iff_rest (hsize : 1 ≤ size) (hrest : bytes.length % size ≠ 0) :
    Cut bytes size (appended bytes size) ↔ bytes.length / size * size < 2 ^ 32 := by
  have hsplit := Nat.div_add_mod' bytes.length size
  constructor
  · -- the last chunk would begin too early, and be too long
    intro hcut
    by_contra hge
    have hlength := length_appended hrest
    rw [hcut.flatten] at hlength
    omega
  · intro hlt
    have hmod : bytes.length / size * size % 2 ^ 32 = bytes.length / size * size := Nat.mod_eq_of_lt hlt
    have happended : appended bytes size = ((List.range (bytes.length / size)).map fun k => chunkAt bytes size (k * size)) ++
        [bytes.drop (bytes.length / size * size)] := by
      unfold appended
      dsimp only
      rw [if_pos hrest, hmod]
      congr 1
      refine List.map_congr_left fun k hk => ?_
      have hle := Nat.mul_le_mul_right size (List.mem_range.1 hk).le
      rw [Nat.mod_eq_of_lt (hle.trans_lt hlt)]
    have hfull : ∀ c ∈ (List.range (bytes.length / size)).map fun k => chunkAt bytes size (k * size), c.length = size := by
      intro c hc
      obtain ⟨k, hk, rfl⟩ := List.mem_map.1 hc
      refine length_chunkAt ?_
      have hle := Nat.mul_le_mul_right size (List.mem_range.1 hk)
      rw [Nat.succ_mul] at hle
      omega
    have hlast : 0 < (bytes.drop (bytes.length / size * size)).length ∧
        (bytes.drop (bytes.length / size * size)).length ≤ size := by
      have hmodlt := Nat.mod_lt bytes.length hsize
      rw [List.length_drop]
      omega
    rw [happended]
    obtain ⟨hsizes, hsizes'⟩ := sizes_of_full hsize hfull (.inr ⟨_, rfl, hlast⟩)
    refine ⟨?_, hsizes, hsizes'⟩
    rw [List.flatten_append, flatten_chunkAt, List.flatten_singleton, List.take_append_drop]

theorem not_right_of_endless_chunks (hsize : 1 ≤ size) (hge : 2 ^ 32 ≤ bytes.length / size) :
    ¬ChunksRight chunks bytes size := by
  rintro ⟨fuel, added, hadded, -⟩
  cases (makeChunks_endless hsize hge fuel).symm.trans hadded

/-- **Bytes are cut into chunks** if there are fewer than 2^32, fewer than 2^32 bytes in front of one that is smaller, and
where more bytes are in front of a chunk, they are the same at the place that is found. -/
theorem chunks_iff (hsize : 1 ≤ size) (chunks : List (List UInt8)) (bytes : List UInt8) :
    ChunksRight chunks bytes size ↔ bytes.length / size < 2 ^ 32 ∧
      (bytes.length % size ≠ 0 → bytes.length / size * size < 2 ^ 32) ∧
      ∀ i < bytes.length / size, (bytes.drop (i * size % 2 ^ 32)).take size = (bytes.drop (i * size)).take size := by
  by_cases hlt : bytes.length / size < 2 ^ 32
  · rw [right_iff_cut hlt]
    by_cases hrest : bytes.length % size = 0
    · rw [cut_iff_places hsize hrest]
      exact ⟨fun hsame => ⟨hlt, fun h => absurd hrest h, hsame⟩, fun h => h.2.2⟩
    · rw [cut_iff_rest hsize hrest]
      refine ⟨fun hsmall => ⟨hlt, fun _ => hsmall, fun i hi => ?_⟩, fun h => h.2.1 hrest⟩
      have hle := Nat.mul_le_mul_right size hi.le
      rw [Nat.mod_eq_of_lt (hle.trans_lt hsmall)]
  · exact iff_of_false (not_right_of_endless_chunks hsize (Nat.not_lt.1 hlt)) fun h => hlt h.1

/-- Five bytes in chunks of two. -/
theorem five_bytes : ChunksRight [] [1, 2, 3, 4, 5] 2 ↔ [1, 2, 3, 4, 5].length / 2 < 2 ^ 32 ∧
    ([1, 2, 3, 4, 5].length % 2 ≠ 0 → [1, 2, 3, 4, 5].length / 2 * 2 < 2 ^ 32) ∧
    ∀ i < [1, 2, 3, 4, 5].length / 2,
      (([1, 2, 3, 4, 5] : List UInt8).drop (i * 2 % 2 ^ 32)).take 2 = ([1, 2, 3, 4, 5].drop (i * 2)).take 2 :=
  chunks_iff (by decide) [] [1, 2, 3, 4, 5]

/-- A chunk of 2^32 bytes and one more byte: all bytes come again after the chunk. -/
theorem byte_behind : ¬ChunksRight [] (List.replicate (2 ^ 32 + 1) 0) (2 ^ 32) := by
  have hlength : (List.replicate (2 ^ 32 + 1) (0 : UInt8)).length = 2 ^ 32 + 1 := List.length_replicate
  have hlt : (List.replicate (2 ^ 32 + 1) (0 : UInt8)).length / 2 ^ 32 < 2 ^ 32 := by omega
  rw [right_iff_cut hlt, cut_iff_rest (by decide) (by omega)]
  omega

end Libtarp.Strings
