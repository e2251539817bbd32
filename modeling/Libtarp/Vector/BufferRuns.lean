import Libtarp.Vector.Buffer

/-!
# The vector as a list

* `pushb_spec`, `popb_spec`, `insert_spec`, `remove_spec`: what an operation does to the list of the items.
* `pushb_vectPushb`, `popb_vectPopb`: where memory does not run out that is what `Vect` says.
* `pushes_spec`: how far `Vect_resize` comes, by induction on what is to be appended.
* `Right`: an operation does what it does on the list, or fails and changes nothing, or ends the process; no slot
  outside the buffer is touched.
* `represents_iff`: so it is in every run, but for a `Vect_resize` that comes to the end of what the vector can hold after
  it has appended something.
-/

namespace Libtarp.Buffered

open Function Vec Lib

variable {α : Type} {outcomes : ℕ → Option (ℕ → α)} {size : ℕ} {b : Buffer α} {v : Vect α}

/-- The list of the items. -/
def items (v : Vect α) : List α := (List.range v.occupied).map v.bytes

@[simp] theorem length_items (v : Vect α) : (items v).length = v.occupied := by simp [items]

theorem getElem?_items (v : Vect α) (i : ℕ) : (items v)[i]? = if i < v.occupied then some (v.bytes i) else none := by
  unfold items
  rw [List.getElem?_map]
  split_ifs with hi
  · rw [List.getElem?_range hi]; rfl
  · rw [List.getElem?_eq_none (by rw [List.length_range]; omega)]; rfl

/-- A list is that of the items if it has the items at their positions. -/
theorem items_eq {l : List α} (hl : l.length = v.occupied) (h : ∀ i < v.occupied, l[i]? = some (v.bytes i)) :
    items v = l := by
  refine List.ext_getElem? fun i => ?_
  rw [getElem?_items]
  split_ifs with hi
  · exact (h i hi).symm
  · exact (List.getElem?_eq_none (by omega)).symm

theorem items_congr {w : Vect α} (ho : w.occupied = v.occupied) (h : ∀ i < v.occupied, w.bytes i = v.bytes i) :
    items w = items v := by
  refine items_eq (by simp [ho]) fun i hi => ?_
  rw [getElem?_items, if_pos (by omega), h i (by omega)]

theorem items_eq_nil (h : v.occupied = 0) : items v = [] := List.eq_nil_of_length_eq_zero (by rw [length_items, h])

/-- What holds between calls. -/
structure Fit (size : ℕ) (b : Buffer α) : Prop where
  valid : Valid b.v
  itemsz : b.v.itemsz = size

/-! ## Memory -/

/-- A new buffer has the old items. -/
theorem salloc_spec (outcomes : ℕ → Option (ℕ → α)) {w : Vect α} (ho : w.occupied = b.v.occupied)
    (hc : b.v.occupied ≤ b.v.capacity) (hw : w.occupied ≤ w.capacity) :
    salloc outcomes b w = .error (.exits .badAlloc) ∧ outcomes b.made = none ∨
      ∃ b', salloc outcomes b w = .ok b' ∧ items b'.v = items b.v ∧ b'.v.occupied = b.v.occupied ∧
        b'.v.capacity = w.capacity ∧ b'.v.itemsz = w.itemsz ∧ b'.made = b.made + 1 ∧
        outcomes b.made ≠ none := by
  unfold salloc
  cases ho' : outcomes b.made with
  | none => exact .inl ⟨rfl, rfl⟩
  | some fresh =>
    refine .inr ⟨_, rfl, items_congr ho fun i hi => ?_, ho, rfl, rfl, rfl, nofun⟩
    exact if_pos (by omega)

/-- The vector can double its capacity. -/
def Grows (v : Vect α) : Prop := v.capacity * 2 ≤ vectMaxcap v.itemsz

theorem grow_some (hv : Valid v) (hg : Grows v) : Vec.grow v = some { v with capacity := v.capacity * 2 } := by
  have hroom := hv.room
  have hdouble : v.capacity <<< 1 = v.capacity * 2 := by rw [Nat.shiftLeft_eq, pow_one]
  have hhalf : vectMaxcap v.itemsz >>> 1 = vectMaxcap v.itemsz / 2 := by rw [Nat.shiftRight_eq_div_pow, pow_one]
  have hcap : ¬v.capacity > vectMaxcap v.itemsz / 2 := by
    unfold Grows at hg
    omega
  have hmin : ¬v.capacity * 2 < minCapacity := by omega
  have hmax : ¬v.capacity * 2 > vectMaxcap v.itemsz := Nat.not_lt.2 hg
  unfold Vec.grow allocateVector
  rw [hdouble, hhalf, if_neg hcap]
  simp only [if_neg hmin, if_neg hmax]

theorem grow_none (hg : ¬Grows v) : Vec.grow v = none := by
  have hhalf : vectMaxcap v.itemsz >>> 1 = vectMaxcap v.itemsz / 2 := by rw [Nat.shiftRight_eq_div_pow, pow_one]
  unfold Grows at hg
  unfold Vec.grow
  rw [hhalf]
  exact if_pos (by omega)

theorem grow_spec (outcomes : ℕ → Option (ℕ → α)) (hb : Fit size b) :
    b.grow outcomes = .ok none ∧ ¬Grows b.v ∨ Grows b.v ∧
    (b.grow outcomes = .error (.exits .badAlloc) ∧ outcomes b.made = none ∨
      ∃ b', b.grow outcomes = .ok (some b') ∧ items b'.v = items b.v ∧ b'.v.occupied = b.v.occupied ∧
        b'.v.capacity = b.v.capacity * 2 ∧ Fit size b' ∧ b'.made = b.made + 1 ∧ outcomes b.made ≠ none) := by
  have hroom := hb.valid.room
  have hocc := hb.valid.occupied
  unfold Buffer.grow
  by_cases hg : Grows b.v
  · rw [grow_some hb.valid hg]
    refine .inr ⟨hg, ?_⟩
    have hle : b.v.occupied ≤ b.v.capacity * 2 := by omega
    rcases salloc_spec outcomes (w := { b.v with capacity := b.v.capacity * 2 }) rfl hocc hle with ⟨he, hno⟩ |
      ⟨b', he, hi, ho, hc, hz, hm⟩
    · exact .inl ⟨by simp only [he, bind, Except.bind], hno⟩
    · refine .inr ⟨b', by simp only [he, bind, Except.bind, pure, Except.pure], hi, ho, hc, ⟨⟨?_, ?_, ?_⟩, ?_⟩, hm⟩
      · rw [ho, hc]; simp only; omega
      · rw [hc, hz]; exact hg
      · rw [hc]; simp only; omega
      · rw [hz]; exact hb.itemsz
  · rw [grow_none hg]
    exact .inl ⟨rfl, hg⟩

theorem shrink_spec (outcomes : ℕ → Option (ℕ → α)) (hb : Fit size b) (hs : mustShrink b.v = true) :
    b.shrink outcomes = .error (.exits .badAlloc) ∧ outcomes b.made = none ∨
      ∃ b', b.shrink outcomes = .ok b' ∧ items b'.v = items b.v ∧ b'.v.occupied = b.v.occupied ∧ Fit size b' := by
  have hocc := hb.valid.occupied
  have hlow : b.v.occupied < b.v.capacity >>> 2 := by simpa [mustShrink] using hs
  unfold Buffer.shrink Vec.shrink
  cases hw : allocateVector b.v (b.v.capacity >>> 1) b.v.itemsz with
  | none => exact .inr ⟨b, rfl, rfl, rfl, hb⟩
  | some w =>
    obtain ⟨ho, hz, -, hc, hroom, hmax⟩ := allocateVector_spec hw
    have hle : w.occupied ≤ w.capacity := by
      rw [Nat.shiftRight_eq_div_pow] at hlow hc
      omega
    rcases salloc_spec outcomes ho hocc hle with ⟨he, hno⟩ | ⟨b', he, hi, ho', hc', hz', -, -⟩
    · exact .inl ⟨he, hno⟩
    · refine .inr ⟨b', he, hi, ho', ⟨?_, ?_, ?_⟩, ?_⟩
      · rw [ho', hc', ← ho]; exact hle
      · rw [hc', hz', hz]; exact hmax
      · rw [hc']; exact hroom
      · rw [hz', hz]; exact hb.itemsz

/-! ## Appending and taking off -/

/-- The item at the end is written into the slot behind the others. -/
theorem items_append {w : Vect α} {x : α} (ho : w.occupied = v.occupied + 1)
    (hb : w.bytes = update v.bytes v.occupied x) : items w = items v ++ [x] := by
  refine items_eq (by simp [ho]) fun i hi => ?_
  rw [hb]
  by_cases hlt : i < v.occupied
  · rw [List.getElem?_append_left (by simpa using hlt), getElem?_items, if_pos hlt, update_of_ne (by omega)]
  · obtain rfl : i = v.occupied := by omega
    rw [List.getElem?_append_right (by simp), update_self]
    simp

theorem occupied_of_append {l : List α} {x : α} (hl : items v = l ++ [x]) : v.occupied = l.length + 1 := by
  have := congrArg List.length hl
  simpa using this

theorem getElem?_of_append {l : List α} {x : α} {i : ℕ} (hl : items v = l ++ [x]) (hi : i < l.length) :
    l[i]? = some (v.bytes i) := by
  have happ : (l ++ [x])[i]? = l[i]? := List.getElem?_append_left hi
  rw [← happ, ← hl, getElem?_items, if_pos (by rw [occupied_of_append hl]; omega)]

/-- A full vector that cannot grow. -/
def Full (v : Vect α) : Prop := v.occupied = v.capacity ∧ ¬Grows v

/-- **`Vect_pushb`** fails and changes nothing, or ends the process for want of memory, or appends the item. -/
theorem pushb_spec (outcomes : ℕ → Option (ℕ → α)) (hb : Fit size b) (x : α) :
    pushb outcomes size b x = .ok (b, some .outOfBounds) ∧ Full b.v ∨
    pushb outcomes size b x = .error (.exits .badAlloc) ∧ b.v.occupied = b.v.capacity ∧ Grows b.v ∧
      outcomes b.made = none ∨
    ∃ b', pushb outcomes size b x = .ok (b', none) ∧ items b'.v = items b.v ++ [x] ∧ Fit size b' ∧
      (b.v.occupied < b.v.capacity ∧ b'.v.capacity = b.v.capacity ∧ b'.made = b.made ∨
        b.v.occupied = b.v.capacity ∧ Grows b.v ∧ b'.v.capacity = b.v.capacity * 2 ∧ b'.made = b.made + 1 ∧
          outcomes b.made ≠ none) := by
  have hocc := hb.valid.occupied
  -- what is done once there is room
  have hput : ∀ b₁ : Buffer α, Fit size b₁ → b₁.v.occupied < b₁.v.capacity →
      ∃ b', (do
        let v ← setSlot b₁.v b₁.v.occupied x
        pure ({ b₁ with v := { v with occupied := v.occupied + 1 } }, none) : Except Stop (Buffer α × Option ErrorCode)) =
          .ok (b', none) ∧ items b'.v = items b₁.v ++ [x] ∧ Fit size b' ∧ b'.v.capacity = b₁.v.capacity ∧
          b'.made = b₁.made := by
    intro b₁ hb₁ hlt
    unfold setSlot
    rw [if_pos hlt]
    exact ⟨_, rfl, items_append rfl rfl, ⟨⟨hlt, hb₁.valid.capacity, hb₁.valid.room⟩, hb₁.itemsz⟩, rfl, rfl⟩
  unfold pushb
  rw [if_neg (by simp [hb.itemsz])]
  by_cases hm : mustGrow b.v = true
  · have hfull : b.v.occupied = b.v.capacity := by simpa [mustGrow] using hm
    rw [if_pos hm]
    rcases grow_spec outcomes hb with ⟨he, hg⟩ | ⟨hg, ⟨he, hno⟩ | ⟨b₁, he, hi, ho, hc, hb₁, hmade, hsome⟩⟩
    · simp only [he, bind, Except.bind]
      exact .inl ⟨rfl, hfull, hg⟩
    · simp only [he, bind, Except.bind]
      exact .inr (.inl ⟨trivial, hfull, hg, hno⟩)
    · have hroom := hb.valid.room
      have hmin : 0 < minCapacity := by decide
      obtain ⟨b', he', hi', hb', hc', hm'⟩ := hput b₁ hb₁ (by omega)
      simp only [he, bind, Except.bind] at he' ⊢
      exact .inr (.inr ⟨b', he', by rw [hi', hi], hb', .inr ⟨hfull, hg, by omega, by omega, hsome⟩⟩)
  · have hne : b.v.occupied ≠ b.v.capacity := by simpa [mustGrow] using hm
    rw [if_neg hm]
    obtain ⟨b', he', hi', hb', hc', hm'⟩ := hput b hb (by omega)
    exact .inr (.inr ⟨b', he', hi', hb', .inl ⟨by omega, hc', hm'⟩⟩)

/-- **`Vect_popb`** of a vector with items ends the process for want of memory, or takes the last one off. -/
theorem popb_spec (outcomes : ℕ → Option (ℕ → α)) (hb : Fit size b) (h0 : 0 < b.v.occupied) :
    popb outcomes size b = .error (.exits .badAlloc) ∧ outcomes b.made = none ∨
      ∃ b' x, popb outcomes size b = .ok (b', x) ∧ items b.v = items b'.v ++ [x] ∧ Fit size b' := by
  -- what is done once the vector was shrunk, or not
  have htake : ∀ b₁ : Buffer α, Fit size b₁ → b₁.v.occupied = b.v.occupied → items b₁.v = items b.v →
      ∃ b' x, (do
        let value ← slot { b₁.v with occupied := b₁.v.occupied - 1 } (b₁.v.occupied - 1)
        pure ({ b₁ with v := { b₁.v with occupied := b₁.v.occupied - 1 } }, value) : Except Stop (Buffer α × α)) =
          .ok (b', x) ∧ items b.v = items b'.v ++ [x] ∧ Fit size b' := by
    intro b₁ hb₁ ho hi
    have hocc := hb₁.valid.occupied
    unfold slot
    rw [if_pos (by simp only; omega)]
    refine ⟨_, _, rfl, ?_, ⟨by simp only; omega, hb₁.valid.capacity, hb₁.valid.room⟩, hb₁.itemsz⟩
    rw [← hi]
    exact items_append (by simp only; omega) (by simp)
  unfold popb
  rw [if_neg (by simp [hb.itemsz]), if_neg (by omega)]
  by_cases hs : mustShrink b.v = true
  · rw [if_pos hs]
    rcases shrink_spec outcomes hb hs with ⟨he, hno⟩ | ⟨b₁, he, hi, ho, hb₁⟩
    · simp only [he, bind, Except.bind]
      exact .inl ⟨trivial, hno⟩
    · simp only [he, bind, Except.bind]
      exact .inr (htake b₁ hb₁ ho hi)
  · rw [if_neg hs]
    exact .inr (htake b hb rfl rfl)

/-! ## The vector without its buffer -/

theorem vectPushb_items (hv : Valid v) (x : α) :
    vectPushb v x = (v, some .outOfBounds) ∧ Full v ∨
      ∃ w, vectPushb v x = (w, none) ∧ items w = items v ++ [x] ∧ ¬Full v := by
  unfold vectPushb
  by_cases hm : mustGrow v = true
  · have hfull : v.occupied = v.capacity := by simpa [mustGrow] using hm
    rw [if_pos hm]
    by_cases hg : Grows v
    · rw [grow_some hv hg]
      exact .inr ⟨_, rfl, items_append rfl rfl, fun h => h.2 hg⟩
    · rw [grow_none hg]
      exact .inl ⟨rfl, hfull, hg⟩
  · have hne : v.occupied ≠ v.capacity := by simpa [mustGrow] using hm
    rw [if_neg hm]
    exact .inr ⟨_, rfl, items_append rfl rfl, fun h => hne h.1⟩

/-- **Appending is what `Vect` says** where it returns: the code is the same and so are the items. -/
theorem pushb_vectPushb (outcomes : ℕ → Option (ℕ → α)) (hb : Fit size b) (x : α) {b' : Buffer α}
    {rc : Option ErrorCode} (h : pushb outcomes size b x = .ok (b', rc)) :
    (vectPushb b.v x).2 = rc ∧ items (vectPushb b.v x).1 = items b'.v := by
  rcases pushb_spec outcomes hb x with ⟨he, hf⟩ | ⟨he, -⟩ | ⟨b₁, he, hi, -, hgrow⟩
  · obtain ⟨rfl, rfl⟩ : b = b' ∧ some .outOfBounds = rc := by
      rw [he] at h
      cases h
      exact ⟨rfl, rfl⟩
    rcases vectPushb_items hb.valid x with ⟨hv, -⟩ | ⟨w, -, -, hnot⟩
    · rw [hv]
      exact ⟨rfl, rfl⟩
    · exact absurd hf hnot
  · rw [he] at h
    cases h
  · obtain ⟨rfl, rfl⟩ : b₁ = b' ∧ none = rc := by
      rw [he] at h
      cases h
      exact ⟨rfl, rfl⟩
    rcases vectPushb_items hb.valid x with ⟨-, hfull, hno⟩ | ⟨w, hv, hw, -⟩
    · rcases hgrow with ⟨hlt, -⟩ | ⟨-, hg, -⟩
      · omega
      · exact absurd hg hno
    · rw [hv]
      exact ⟨rfl, hw.trans hi.symm⟩

/-- **Taking the last item off**, likewise. -/
theorem popb_vectPopb (outcomes : ℕ → Option (ℕ → α)) (hb : Fit size b) (h0 : 0 < b.v.occupied) {b' : Buffer α} {x : α}
    (h : popb outcomes size b = .ok (b', x)) : ∃ w, vectPopb b.v = .ok (w, x) ∧ items w = items b'.v := by
  obtain ⟨w, hw, -, ho, -, hbytes⟩ := vectPopb_spec hb.valid h0
  have hitems : items b.v = items w ++ [b.v.bytes (b.v.occupied - 1)] := by
    refine items_append (by omega) ?_
    rw [ho, hbytes, update_eq_self]
  rcases popb_spec outcomes hb h0 with ⟨he, -⟩ | ⟨b₁, y, he, hi, -⟩
  · rw [he] at h
    cases h
  · obtain ⟨rfl, rfl⟩ : b₁ = b' ∧ y = x := by
      rw [he] at h
      cases h
      exact ⟨rfl, rfl⟩
    obtain ⟨hlist, hlast⟩ := List.append_inj' (hitems.symm.trans hi) rfl
    refine ⟨w, ?_, hlist⟩
    rw [hw, List.singleton_inj.1 hlast]

/-! ## In the middle -/

/-- The items from `pos` on, but for the one appended, move one slot to the right, and `x` comes to `pos`. -/
theorem items_insert {w : Vect α} {l : List α} {x : α} {pos : ℕ} (hl : items v = l ++ [x]) (hpos : pos ≤ l.length)
    (ho : w.occupied = v.occupied) (hb : w.bytes = update (fun i =>
      if pos + 1 ≤ i ∧ i < pos + 1 + (v.occupied - 1 - pos) then v.bytes (pos + (i - (pos + 1))) else v.bytes i) pos x) :
    items w = l.insertIdx pos x := by
  have hlen := occupied_of_append hl
  have hget : ∀ i < l.length, l[i]? = some (v.bytes i) := fun i => getElem?_of_append hl
  refine items_eq ?_ fun i hi => ?_
  · rw [List.length_insertIdx, if_pos hpos, ho, hlen]
  · rw [hb]
    rcases Nat.lt_trichotomy i pos with hlt | rfl | hgt
    · rw [List.getElem?_insertIdx_of_lt hlt, update_of_ne (by omega), if_neg (by omega)]
      exact hget i (by omega)
    · rw [List.getElem?_insertIdx_self, if_pos hpos, update_self]
    · rw [List.getElem?_insertIdx_of_gt hgt, update_of_ne (by omega), if_pos (by omega),
        show pos + (i - (pos + 1)) = i - 1 by omega]
      exact hget (i - 1) (by omega)

/-- The items behind `pos` move one slot to the left; the last one stays behind too. -/
theorem items_remove {w : Vect α} {l : List α} {x : α} {pos : ℕ} (hpos : pos < v.occupied) (hl : items w = l ++ [x])
    (ho : w.occupied = v.occupied) (hb : w.bytes = fun i =>
      if pos ≤ i ∧ i < pos + (v.occupied - 1 - pos) then v.bytes (pos + 1 + (i - pos)) else v.bytes i) :
    l = (items v).eraseIdx pos := by
  have hlen := occupied_of_append hl
  have hget : ∀ i < l.length, l[i]? = some (w.bytes i) := fun i => getElem?_of_append hl
  refine List.ext_getElem? fun i => ?_
  rcases Nat.lt_or_ge i l.length with hi | hi
  · rw [hget i hi, hb]
    beta_reduce
    by_cases hlt : i < pos
    · rw [if_neg (by omega), List.getElem?_eraseIdx_of_lt hlt, getElem?_items, if_pos (by omega)]
    · rw [if_pos (by omega), List.getElem?_eraseIdx_of_ge (by omega), getElem?_items, if_pos (by omega),
        show pos + 1 + (i - pos) = i + 1 by omega]
  · rw [List.getElem?_eq_none hi, List.getElem?_eq_none]
    rw [List.length_eraseIdx, if_pos (by simpa using hpos), length_items]
    omega

theorem memmove_ok {dst src n : ℕ} (hs : src + n ≤ v.capacity) (hd : dst + n ≤ v.capacity) :
    memmove v dst src n = .ok { v with bytes := fun i =>
      if dst ≤ i ∧ i < dst + n then v.bytes (src + (i - dst)) else v.bytes i } := if_pos (.inr ⟨hs, hd⟩)

theorem insert_spec (outcomes : ℕ → Option (ℕ → α)) (hb : Fit size b) {pos : ℕ} (hpos : pos ≤ b.v.occupied) (x : α) :
    insert outcomes size b pos x = .ok (b, some .outOfBounds) ∨
    insert outcomes size b pos x = .error (.exits .badAlloc) ∧ outcomes b.made = none ∨
    ∃ b', insert outcomes size b pos x = .ok (b', none) ∧ items b'.v = (items b.v).insertIdx pos x ∧ Fit size b' := by
  unfold insert
  rw [if_neg (by omega)]
  rcases pushb_spec outcomes hb x with ⟨he, -⟩ | ⟨he, -, -, hno⟩ | ⟨b₁, he, hi, hb₁, -⟩
  · simp only [he, bind, Except.bind]
    exact .inl rfl
  · simp only [he, bind, Except.bind]
    exact .inr (.inl ⟨trivial, hno⟩)
  · simp only [he, bind, Except.bind, Option.isSome_none, Bool.false_eq_true, if_false]
    refine .inr (.inr ?_)
    have hlen := occupied_of_append hi
    rw [length_items] at hlen
    have hocc := hb₁.valid.occupied
    by_cases h1 : b₁.v.occupied = 1
    · -- it was empty
      rw [if_pos h1]
      have hnil : items b.v = [] := items_eq_nil (by omega)
      obtain rfl : pos = 0 := by omega
      exact ⟨b₁, rfl, by rw [hi, hnil]; rfl, hb₁⟩
    · rw [if_neg h1]
      simp only [memmove_ok (v := b₁.v) (show pos + (b₁.v.occupied - 1 - pos) ≤ b₁.v.capacity by omega)
        (show pos + 1 + (b₁.v.occupied - 1 - pos) ≤ b₁.v.capacity by omega)]
      unfold set setSlot
      rw [if_neg (by simp only; omega), if_pos (by simp only; omega)]
      exact ⟨_, rfl, items_insert hi (by simpa using hpos) rfl rfl,
        ⟨⟨hb₁.valid.occupied, hb₁.valid.capacity, hb₁.valid.room⟩, hb₁.itemsz⟩⟩

theorem remove_spec (outcomes : ℕ → Option (ℕ → α)) (hb : Fit size b) {pos : ℕ} (hpos : pos < b.v.occupied) :
    remove outcomes size b pos = .error (.exits .badAlloc) ∧ outcomes b.made = none ∨
    ∃ b', remove outcomes size b pos = .ok b' ∧ items b'.v = (items b.v).eraseIdx pos ∧ Fit size b' := by
  have hocc := hb.valid.occupied
  unfold remove
  rw [if_neg (by omega), if_neg (by omega)]
  simp only [memmove_ok (v := b.v) (show pos + 1 + (b.v.occupied - 1 - pos) ≤ b.v.capacity by omega)
    (show pos + (b.v.occupied - 1 - pos) ≤ b.v.capacity by omega), bind, Except.bind]
  set w : Vect α := { b.v with bytes := fun i =>
    if pos ≤ i ∧ i < pos + (b.v.occupied - 1 - pos) then b.v.bytes (pos + 1 + (i - pos)) else b.v.bytes i } with hw
  have hbw : Fit size { b with v := w } := ⟨⟨hb.valid.occupied, hb.valid.capacity, hb.valid.room⟩, hb.itemsz⟩
  rcases popb_spec outcomes hbw (show 0 < w.occupied from by simp only [hw]; omega) with ⟨he, hno⟩ | ⟨b', x, he, hi, hb'⟩
  · simp only [he]
    exact .inl ⟨trivial, hno⟩
  · simp only [he]
    exact .inr ⟨b', rfl, items_remove hpos hi rfl rfl, hb'⟩

/-! ## Resizing -/

/-- A full vector stays as it is. -/
theorem pushes_full (outcomes : ℕ → Option (ℕ → α)) (hb : Fit size b) (hf : Full b.v) (fill : α) (n : ℕ) :
    pushes outcomes size fill n b = .ok b := by
  induction n with
  | zero => rfl
  | succ n ih =>
    rcases pushb_spec outcomes hb fill with ⟨he, -⟩ | ⟨-, -, hg, -⟩ | ⟨b', -, -, -, ⟨hlt, -⟩ | ⟨-, hg, -⟩⟩
    · simp only [pushes, he, bind, Except.bind, ih]
    · exact absurd hg hf.2
    · exact absurd hf.1 (by omega)
    · exact absurd hg hf.2

/-- The vector has doubled its capacity `j` times. -/
structure Grown (outcomes : ℕ → Option (ℕ → α)) (b b' : Buffer α) (j : ℕ) : Prop where
  capacity : b'.v.capacity = b.v.capacity * 2 ^ j
  made : b'.made = b.made + j
  given : ∀ i < j, outcomes (b.made + i) ≠ none

/-- At the `j`-th doubling there is no memory left. -/
def RunsOut (outcomes : ℕ → Option (ℕ → α)) (b : Buffer α) (j : ℕ) : Prop :=
  b.v.capacity * 2 ^ (j + 1) ≤ vectMaxcap b.v.itemsz ∧ outcomes (b.made + j) = none

/-- **The loop that appends** ends the process for want of memory, or comes to its end, or to the end of what the
vector can hold. -/
theorem pushes_spec (outcomes : ℕ → Option (ℕ → α)) (hb : Fit size b) (fill : α) (n : ℕ) :
    pushes outcomes size fill n b = .error (.exits .badAlloc) ∧ (∃ j, RunsOut outcomes b j) ∨
    ∃ b' m j, pushes outcomes size fill n b = .ok b' ∧ items b'.v = items b.v ++ List.replicate m fill ∧ m ≤ n ∧
      Fit size b' ∧ Grown outcomes b b' j ∧ (m = n ∨ Full b'.v) := by
  induction n generalizing b with
  | zero =>
    exact .inr ⟨b, 0, 0, rfl, (List.append_nil _).symm, le_rfl, hb,
      ⟨(Nat.mul_one _).symm, rfl, fun i hi => absurd hi (Nat.not_lt_zero i)⟩, .inl rfl⟩
  | succ n ih =>
    rcases pushb_spec outcomes hb fill with ⟨-, hf⟩ | ⟨he, -, hg, hno⟩ | ⟨b₁, he, hi, hb₁, hgrow⟩
    · exact .inr ⟨b, 0, 0, pushes_full outcomes hb hf fill _, (List.append_nil _).symm, Nat.zero_le _, hb,
        ⟨(Nat.mul_one _).symm, rfl, fun i hi => absurd hi (Nat.not_lt_zero i)⟩, .inr hf⟩
    · simp only [pushes, he, bind, Except.bind]
      exact .inl ⟨trivial, 0, by simpa [Grows] using hg, hno⟩
    · simp only [pushes, he, bind, Except.bind]
      have hz : b₁.v.itemsz = b.v.itemsz := hb₁.itemsz.trans hb.itemsz.symm
      have hlist : ∀ m, items b.v ++ [fill] ++ List.replicate m fill = items b.v ++ List.replicate (m + 1) fill := by
        intro m
        rw [List.append_assoc, List.replicate_succ]; rfl
      -- the item fits in, or the buffer grows for it: then one more answer of the allocator is used
      rcases hgrow with ⟨hlt, hc, hm⟩ | ⟨hfull, hg, hc, hm, hsome⟩
      · rcases ih hb₁ with ⟨he', j, hj, hno⟩ | ⟨b', m, j, he', hi', hle, hb', ⟨hc', hm', hgiven⟩, hend⟩
        · exact .inl ⟨he', j, by rwa [hc, hz] at hj, by rwa [hm] at hno⟩
        · refine .inr ⟨b', m + 1, j, he', by rw [hi', hi, hlist], by omega, hb', ⟨by rw [hc', hc], by rw [hm', hm], ?_⟩,
            hend.imp (by omega) id⟩
          rwa [hm] at hgiven
      · rcases ih hb₁ with ⟨he', j, hj, hno⟩ | ⟨b', m, j, he', hi', hle, hb', ⟨hc', hm', hgiven⟩, hend⟩
        · refine .inl ⟨he', j + 1, ?_, ?_⟩
          · rw [hc, hz] at hj
            rwa [pow_succ', ← Nat.mul_assoc]
          · rwa [hm, show b.made + 1 + j = b.made + (j + 1) by omega] at hno
        · refine .inr ⟨b', m + 1, j + 1, he', by rw [hi', hi, hlist], by omega, hb',
            ⟨by rw [hc', hc, pow_succ', Nat.mul_assoc], by omega, ?_⟩, hend.imp (by omega) id⟩
          intro i hij
          cases i with
          | zero => exact hsome
          | succ i =>
            have := hgiven i (by omega)
            rwa [hm, show b.made + 1 + i = b.made + (i + 1) by omega] at this

theorem pops_spec (outcomes : ℕ → Option (ℕ → α)) (hb : Fit size b) {n : ℕ} (hn : n ≤ b.v.occupied) :
    pops outcomes size n b = .error (.exits .badAlloc) ∧ (∃ k, outcomes k = none) ∨
    ∃ b', pops outcomes size n b = .ok b' ∧ items b'.v = (items b.v).take (b.v.occupied - n) ∧ Fit size b' := by
  induction n generalizing b with
  | zero => exact .inr ⟨b, rfl, (List.take_of_length_le (by simp)).symm, hb⟩
  | succ n ih =>
    rcases popb_spec outcomes hb (by omega) with ⟨he, hno⟩ | ⟨b₁, x, he, hi, hb₁⟩
    · simp only [pops, he, bind, Except.bind]
      exact .inl ⟨trivial, _, hno⟩
    · simp only [pops, he, bind, Except.bind]
      have hlen := occupied_of_append hi
      rw [length_items] at hlen
      rcases ih hb₁ (by omega) with ⟨he', hno⟩ | ⟨b', he', hi', hb'⟩
      · exact .inl ⟨he', hno⟩
      · refine .inr ⟨b', he', ?_, hb'⟩
        rw [hi', hi, List.take_append_of_le_length (by rw [length_items]; omega)]
        congr 1
        omega

/-! ## Every run -/

/-- What a call does to the list, and its answer. -/
def Does (c : Call α) (l : List α) (r : Answer α) (l' : List α) : Prop :=
  match c with
  | .pushb value => r = .code none ∧ l' = l ++ [value]
  | .popb => ∃ value, r = .item value ∧ l = l' ++ [value]
  | .get pos => l' = l ∧ ∃ value, l[pos]? = some value ∧ r = .item value
  | .set pos value => r = .done ∧ pos < l.length ∧ l' = l.set pos value
  | .front => l' = l ∧ ∃ value, l.head? = some value ∧ r = .item value
  | .back => l' = l ∧ ∃ value, l.getLast? = some value ∧ r = .item value
  | .insert pos value => r = .code none ∧ pos ≤ l.length ∧ l' = l.insertIdx pos value
  | .remove pos => r = .done ∧ pos < l.length ∧ l' = l.eraseIdx pos
  | .resize count fill => r = .done ∧ l' = l.take count ++ List.replicate (count - l.length) fill
  | .clear => r = .done ∧ l' = []
  | .count => r = .number l.length ∧ l' = l

/-- A call says that it has failed, or has no way to say it. -/
def Fails (c : Call α) (r : Answer α) : Prop :=
  match c with
  | .pushb _ | .insert _ _ => ∃ rc, r = .code (some rc)
  | .resize _ _ => r = .done
  | _ => False

/-- A call ends the process: there is no memory, or it asks for an item that there is not. -/
def Refused (outcomes : ℕ → Option (ℕ → α)) (c : Call α) (l : List α) (code : ErrorCode) : Prop :=
  code = .badAlloc ∧ (∃ k, outcomes k = none) ∨
    match c with
    | .popb | .front | .back => code = .empty ∧ l = []
    | .get pos | .set pos _ | .remove pos => code = .outOfBounds ∧ l.length ≤ pos
    | .insert pos _ => code = .outOfBounds ∧ l.length < pos
    | _ => False

/-- A call does what it does on the list, or fails and changes nothing, or ends the process where it may. It touches no
slot outside the buffer, and the items are in the buffer afterwards. -/
def Right (outcomes : ℕ → Option (ℕ → α)) (c : Call α) (b : Buffer α) (out : Except Stop (Buffer α × Answer α)) : Prop :=
  match out with
  | .error .outside => False
  | .error (.exits code) => Refused outcomes c (items b.v) code
  | .ok (b', r) => b'.v.occupied ≤ b'.v.capacity ∧
      (Does c (items b.v) r (items b'.v) ∨ Fails c r ∧ items b'.v = items b.v)

/-- The vector can grow until so many items have room in it. -/
def CanHold (v : Vect α) (count : ℕ) : Prop :=
  ∃ k, count ≤ v.capacity * 2 ^ k ∧ v.capacity * 2 ^ k ≤ vectMaxcap v.itemsz

/-- A vector is resized to what it can hold; or it is full from the start; or there is no memory before the end. -/
def Sized (outcomes : ℕ → Option (ℕ → α)) (c : Call α) (b : Buffer α) : Prop :=
  match c with
  | .resize count _ => CanHold b.v count ∨ Full b.v ∨ ∃ j, RunsOut outcomes b j
  | _ => True

/-- Where the loop of `Vect_resize` has appended `m` of `n` items and the vector was full then, it could not have held
them all, and was not full before, nor was memory short. -/
theorem Grown.not_sized {b' : Buffer α} {m n j : ℕ} (hb : Fit size b) (hb' : Fit size b') (hg : Grown outcomes b b' j)
    (hlen : b'.v.occupied = b.v.occupied + m) (hm : 0 < m) (hn : m < n) (hf : Full b'.v) :
    ¬(CanHold b.v (b.v.occupied + n) ∨ Full b.v ∨ ∃ j, RunsOut outcomes b j) := by
  have hz : b'.v.itemsz = b.v.itemsz := hb'.itemsz.trans hb.itemsz.symm
  have hmax : ∀ k, b.v.capacity * 2 ^ k ≤ vectMaxcap b.v.itemsz → k ≤ j := by
    intro k hk
    by_contra hlt
    have hpow : b.v.capacity * 2 ^ (j + 1) ≤ b.v.capacity * 2 ^ k :=
      Nat.mul_le_mul_left _ (Nat.pow_le_pow_right (by decide) (by omega))
    refine hf.2 ?_
    unfold Grows
    rw [hg.capacity, hz, Nat.mul_assoc, ← pow_succ]
    omega
  have hfull := hf.1
  rw [hg.capacity] at hfull
  rintro (⟨k, hk, hkmax⟩ | ⟨hfull₀, hng⟩ | ⟨i, hi, hno⟩)
  · have hpow : b.v.capacity * 2 ^ k ≤ b.v.capacity * 2 ^ j :=
      Nat.mul_le_mul_left _ (Nat.pow_le_pow_right (by decide) (hmax k hkmax))
    omega
  · have hj : j ≠ 0 := by
      rintro rfl
      omega
    obtain ⟨i, rfl⟩ : ∃ i, j = i + 1 := ⟨j - 1, by omega⟩
    refine hng ?_
    unfold Grows
    have hcap := hb'.valid.capacity
    rw [hg.capacity, hz] at hcap
    have hpow : b.v.capacity * 2 ^ 1 ≤ b.v.capacity * 2 ^ (i + 1) :=
      Nat.mul_le_mul_left _ (Nat.pow_le_pow_right (by decide) (by omega))
    omega
  · exact hg.given i (by have := hmax (i + 1) hi; omega) hno

/-- What the loop has not appended anything to was full when it began. -/
theorem Grown.full {b' : Buffer α} {j : ℕ} (hb : Fit size b) (hb' : Fit size b') (hg : Grown outcomes b b' j)
    (hlen : b'.v.occupied = b.v.occupied) (hf : Full b'.v) : Full b.v := by
  have hfull := hf.1
  have hocc := hb.valid.occupied
  have hroom := hb.valid.room
  have hmin : 0 < minCapacity := by decide
  have hj : j = 0 := by
    by_contra hj
    have hpow : b.v.capacity * 2 ^ 1 ≤ b.v.capacity * 2 ^ j :=
      Nat.mul_le_mul_left _ (Nat.pow_le_pow_right (by decide) (by omega))
    rw [hg.capacity] at hfull
    omega
  have hcap : b'.v.capacity = b.v.capacity := by rw [hg.capacity, hj, pow_zero, Nat.mul_one]
  refine ⟨by omega, fun hgrows => hf.2 ?_⟩
  unfold Grows at hgrows ⊢
  rwa [hcap, hb'.itemsz, ← hb.itemsz]

/-- A vector can hold what it has. -/
theorem Fit.canHold (hb : Fit size b) {count : ℕ} (h : count ≤ b.v.capacity) : CanHold b.v count := by
  refine ⟨0, ?_, ?_⟩
  · rwa [pow_zero, Nat.mul_one]
  · rw [pow_zero, Nat.mul_one]
    exact hb.valid.capacity

/-- The call is right exactly where it is sized so, and leaves the vector fit. -/
def Settled (outcomes : ℕ → Option (ℕ → α)) (size : ℕ) (c : Call α) (b : Buffer α) : Prop :=
  (Right outcomes c b (exec outcomes size c b) ↔ Sized outcomes c b) ∧
    ∀ b' r, exec outcomes size c b = .ok (b', r) → Fit size b'

/-- A call that returns, and has done what it does or has failed and changed nothing. -/
theorem Settled.returns {c : Call α} {b' : Buffer α} {r : Answer α} (he : exec outcomes size c b = .ok (b', r))
    (hb' : Fit size b') (hdoes : Does c (items b.v) r (items b'.v) ∨ Fails c r ∧ items b'.v = items b.v)
    (hs : Sized outcomes c b) : Settled outcomes size c b := by
  unfold Settled
  rw [he]
  refine ⟨iff_of_true ⟨hb'.valid.occupied, hdoes⟩ hs, ?_⟩
  rintro _ _ ⟨⟩
  exact hb'

/-- A call that ends the process. -/
theorem Settled.ends {c : Call α} {code : ErrorCode} (he : exec outcomes size c b = .error (.exits code))
    (href : Refused outcomes c (items b.v) code) (hs : Sized outcomes c b) : Settled outcomes size c b := by
  unfold Settled
  rw [he]
  exact ⟨iff_of_true href hs, nofun⟩

theorem resize_shorter (outcomes : ℕ → Option (ℕ → α)) (hb : Fit size b) {count : ℕ} (hlt : count < b.v.occupied)
    (fill : α) : Settled outcomes size (.resize count fill) b := by
  have hocc := hb.valid.occupied
  have hsized : Sized outcomes (.resize count fill) b := .inl (hb.canHold (by omega))
  have hres : resize outcomes size b count fill = pops outcomes size (b.v.occupied - count) b := by
    unfold resize
    rw [if_neg (by omega), if_neg (by omega)]
  rcases pops_spec outcomes hb (show b.v.occupied - count ≤ b.v.occupied by omega) with ⟨he, hno⟩ | ⟨b', he, hi, hb'⟩
  · exact .ends (by simp only [exec, hres, he]; rfl) (.inl ⟨rfl, hno⟩) hsized
  · refine .returns (by simp only [exec, hres, he]; rfl) hb' (.inl ⟨rfl, ?_⟩) hsized
    rw [hi, length_items, show b.v.occupied - (b.v.occupied - count) = count by omega,
      show count - b.v.occupied = 0 by omega, List.replicate_zero, List.append_nil]

theorem resize_longer (outcomes : ℕ → Option (ℕ → α)) (hb : Fit size b) {count : ℕ} (hgt : b.v.occupied < count)
    (fill : α) : Settled outcomes size (.resize count fill) b := by
  have hres : resize outcomes size b count fill = pushes outcomes size fill (count - b.v.occupied) b := by
    unfold resize
    rw [if_neg (by omega), if_pos hgt]
  rcases pushes_spec outcomes hb fill (count - b.v.occupied) with ⟨he, j, hj⟩ | ⟨b', m, j, he, hi, hle, hb', hg, hend⟩
  · exact .ends (by simp only [exec, hres, he]; rfl) (.inl ⟨rfl, _, hj.2⟩) (.inr (.inr ⟨j, hj⟩))
  have hexec : exec outcomes size (.resize count fill) b = .ok (b', .done) := by
    simp only [exec, hres, he]
    rfl
  have hlen : b'.v.occupied = b.v.occupied + m := by
    have := congrArg List.length hi
    simpa using this
  have hocc' := hb'.valid.occupied
  by_cases hall : m = count - b.v.occupied
  · -- the loop came to its end
    refine .returns hexec hb' (.inl ⟨rfl, ?_⟩) (.inl ⟨j, ?_, ?_⟩)
    · rw [hi, length_items, List.take_of_length_le (by rw [length_items]; omega), hall]
    · rw [← hg.capacity]
      omega
    · have hcap := hb'.valid.capacity
      rwa [hg.capacity, hb'.itemsz, ← hb.itemsz] at hcap
  have hf := hend.resolve_left hall
  by_cases hm : m = 0
  · -- nothing was appended: the vector was full
    subst hm
    have hsame : items b'.v = items b.v := by rw [hi, List.replicate_zero, List.append_nil]
    exact .returns hexec hb' (.inr ⟨rfl, hsame⟩) (.inr (.inl (hg.full hb hb' hlen hf)))
  · -- some items were appended, but not all
    have hns := hg.not_sized hb hb' hlen (by omega) (show m < count - b.v.occupied by omega) hf
    rw [show b.v.occupied + (count - b.v.occupied) = count by omega] at hns
    unfold Settled
    rw [hexec]
    refine ⟨iff_of_false ?_ hns, ?_⟩
    · rintro ⟨-, ⟨-, hdoes⟩ | ⟨-, hsame⟩⟩
      · have := congrArg List.length hdoes
        simp only [length_items, List.length_append, List.length_take, List.length_replicate] at this
        omega
      · have := congrArg List.length hsame
        simp only [length_items] at this
        omega
    · rintro _ _ ⟨⟩
      exact hb'

/-- **`Vect_resize`** is right exactly where it is sized so. -/
theorem resize_right_iff (outcomes : ℕ → Option (ℕ → α)) (hb : Fit size b) (count : ℕ) (fill : α) :
    Settled outcomes size (.resize count fill) b := by
  rcases Nat.lt_trichotomy count b.v.occupied with hlt | heq | hgt
  · exact resize_shorter outcomes hb hlt fill
  · have hres : resize outcomes size b count fill = .ok b := if_pos heq
    exact .returns (by simp only [exec, hres]; rfl) hb (.inr ⟨rfl, rfl⟩)
      (.inl (hb.canHold (heq.le.trans hb.valid.occupied)))
  · exact resize_longer outcomes hb hgt fill

theorem slot_item (hb : Fit size b) {pos : ℕ} (hpos : pos < b.v.occupied) :
    ∃ x, slot b.v pos = .ok x ∧ (items b.v)[pos]? = some x := by
  have hocc := hb.valid.occupied
  exact ⟨_, if_pos (by omega), by rw [getElem?_items, if_pos hpos]⟩

theorem items_set {w : Vect α} {pos : ℕ} {x : α} (hpos : pos < v.occupied) (ho : w.occupied = v.occupied)
    (hb : w.bytes = update v.bytes pos x) : items w = (items v).set pos x := by
  refine items_eq (by simp [ho]) fun i hi => ?_
  rw [List.getElem?_set, hb]
  by_cases hip : pos = i
  · subst hip
    rw [if_pos rfl, if_pos (by simpa using hpos), update_self]
  · rw [if_neg hip, getElem?_items, if_pos (by omega), update_of_ne (Ne.symm hip)]

/-- **One call** is right, but for a resize that is not sized so, and leaves the vector fit. -/
theorem exec_right_iff (outcomes : ℕ → Option (ℕ → α)) (c : Call α) (hb : Fit size b) :
    Settled outcomes size c b := by
  have hocc := hb.valid.occupied
  cases c with
  | pushb value =>
    rcases pushb_spec outcomes hb value with ⟨he, -⟩ | ⟨he, -, -, hno⟩ | ⟨b', he, hi, hb', -⟩
    · exact .returns (by simp only [exec, he]; rfl) hb (.inr ⟨⟨_, rfl⟩, rfl⟩) trivial
    · exact .ends (by simp only [exec, he]; rfl) (.inl ⟨rfl, _, hno⟩) trivial
    · exact .returns (by simp only [exec, he]; rfl) hb' (.inl ⟨rfl, hi⟩) trivial
  -- an empty vector ends the process before its memory is touched
  | popb =>
    rcases Nat.eq_zero_or_pos b.v.occupied with h0 | h0
    · have he : popb outcomes size b = .error (.exits .empty) := by
        unfold popb
        rw [if_neg (by simp [hb.itemsz]), if_pos h0]
      exact .ends (by simp only [exec, he]; rfl)
        (.inr ⟨rfl, items_eq_nil h0⟩) trivial
    · rcases popb_spec outcomes hb h0 with ⟨he, hno⟩ | ⟨b', x, he, hi, hb'⟩
      · exact .ends (by simp only [exec, he]; rfl) (.inl ⟨rfl, _, hno⟩) trivial
      · exact .returns (by simp only [exec, he]; rfl) hb' (.inl ⟨x, rfl, hi⟩) trivial
  | get pos =>
    by_cases hpos : pos ≥ b.v.occupied
    · have he : get b pos = .error (.exits .outOfBounds) := if_pos hpos
      exact .ends (by simp only [exec, he]; rfl) (.inr ⟨rfl, by rwa [length_items]⟩) trivial
    · obtain ⟨x, hx, hi⟩ := slot_item hb (Nat.not_le.1 hpos)
      have he : get b pos = .ok x := (if_neg hpos).trans hx
      exact .returns (by simp only [exec, he]; rfl) hb (.inl ⟨rfl, x, hi, rfl⟩) trivial
  | set pos value =>
    by_cases hpos : pos ≥ b.v.occupied
    · have he : set b pos value = .error (.exits .outOfBounds) := if_pos hpos
      exact .ends (by simp only [exec, he]; rfl) (.inr ⟨rfl, by rwa [length_items]⟩) trivial
    · have hlt := Nat.not_le.1 hpos
      have hput : setSlot b.v pos value = .ok { b.v with bytes := update b.v.bytes pos value } := if_pos (by omega)
      -- the slot is inside, since the position is one of an item
      set b' : Buffer α := { b with v := { b.v with bytes := update b.v.bytes pos value } }
      have he : Buffered.set b pos value = .ok b' := by
        unfold Buffered.set
        rw [if_neg hpos, hput]; rfl
      have hb' : Fit size b' := ⟨⟨hocc, hb.valid.capacity, hb.valid.room⟩, hb.itemsz⟩
      exact .returns (by simp only [exec, he]; rfl) hb'
        (.inl ⟨rfl, by rwa [length_items], items_set hlt rfl rfl⟩) trivial
  | front =>
    rcases Nat.eq_zero_or_pos b.v.occupied with h0 | h0
    · have he : front b = .error (.exits .empty) := if_pos h0
      exact .ends (by simp only [exec, he]; rfl)
        (.inr ⟨rfl, items_eq_nil h0⟩) trivial
    · obtain ⟨x, hx, hi⟩ := slot_item hb h0
      have he : front b = .ok x := (if_neg (by omega)).trans hx
      exact .returns (by simp only [exec, he]; rfl) hb (.inl ⟨rfl, x, by rw [List.head?_eq_getElem?, hi], rfl⟩) trivial
  | back =>
    rcases Nat.eq_zero_or_pos b.v.occupied with h0 | h0
    · have he : back b = .error (.exits .empty) := if_pos h0
      exact .ends (by simp only [exec, he]; rfl)
        (.inr ⟨rfl, items_eq_nil h0⟩) trivial
    · obtain ⟨x, hx, hi⟩ := slot_item hb (show b.v.occupied - 1 < b.v.occupied by omega)
      have he : back b = .ok x := (if_neg (by omega)).trans hx
      exact .returns (by simp only [exec, he]; rfl) hb
        (.inl ⟨rfl, x, by rw [List.getLast?_eq_getElem?, length_items, hi], rfl⟩) trivial
  | insert pos value =>
    by_cases hpos : pos > b.v.occupied
    · have he : insert outcomes size b pos value = .error (.exits .outOfBounds) := if_pos hpos
      exact .ends (by simp only [exec, he]; rfl) (.inr ⟨rfl, by rwa [length_items]⟩) trivial
    · have hle : pos ≤ b.v.occupied := Nat.not_lt.1 hpos
      rcases insert_spec outcomes hb hle value with he | ⟨he, hno⟩ | ⟨b', he, hi, hb'⟩
      · exact .returns (by simp only [exec, he]; rfl) hb (.inr ⟨⟨_, rfl⟩, rfl⟩) trivial
      · exact .ends (by simp only [exec, he]; rfl) (.inl ⟨rfl, _, hno⟩) trivial
      · exact .returns (by simp only [exec, he]; rfl) hb' (.inl ⟨rfl, by rwa [length_items], hi⟩) trivial
  | remove pos =>
    by_cases hpos : pos ≥ b.v.occupied
    · have he : remove outcomes size b pos = .error (.exits .outOfBounds) := if_pos hpos
      exact .ends (by simp only [exec, he]; rfl) (.inr ⟨rfl, by rwa [length_items]⟩) trivial
    · have hlt := Nat.not_le.1 hpos
      rcases remove_spec outcomes hb hlt with ⟨he, hno⟩ | ⟨b', he, hi, hb'⟩
      · exact .ends (by simp only [exec, he]; rfl) (.inl ⟨rfl, _, hno⟩) trivial
      · exact .returns (by simp only [exec, he]; rfl) hb' (.inl ⟨rfl, by rwa [length_items], hi⟩) trivial
  | resize count fill => exact resize_right_iff outcomes hb count fill
  | clear =>
    exact .returns rfl ⟨⟨Nat.zero_le _, hb.valid.capacity, hb.valid.room⟩, hb.itemsz⟩ (.inl ⟨rfl, rfl⟩) trivial
  | count => exact .returns rfl hb (.inl ⟨by rw [length_items], rfl⟩) trivial

theorem vectNew_fit {capacity : ℕ} (hnew : vectNew outcomes capacity size = .ok (some b)) : Fit size b := by
  unfold vectNew at hnew
  set c := if capacity < minCapacity then minCapacity else capacity with hc
  have hroom : minCapacity ≤ c := by
    rw [hc]
    split <;> omega
  simp only at hnew
  by_cases hmax : c > vectMaxcap size
  · rw [if_pos hmax] at hnew
    cases hnew
  · rw [if_neg hmax] at hnew
    split at hnew
    · cases hnew
      exact ⟨⟨Nat.zero_le _, Nat.not_lt.1 hmax, hroom⟩, rfl⟩
    · cases hnew

/-- **A vector is a list**: in a run every call does what it does on the list of the items, or fails and changes nothing,
exactly if none resizes the vector beyond what it can hold after it has appended something. -/
theorem represents_iff (outcomes : ℕ → Option (ℕ → α)) (capacity size : ℕ) (b : Buffer α) (cs : List (Call α))
    (hnew : vectNew outcomes capacity size = .ok (some b)) :
    Always (exec outcomes size) (Right outcomes) cs b ↔ Meets (exec outcomes size) (Sized outcomes) cs b :=
  always_iff_meets (Fit size) (fun c _ hb => (exec_right_iff outcomes c hb).imp_right fun hkeep _ => hkeep) (vectNew_fit hnew)

theorem represents_iff_three : Always (exec (fun _ => some fun _ => 0) 8) (Right fun _ => some fun _ => 0)
    [.pushb 1, .insert 0 2, .resize 20 3] (⟨⟨16, 0, 8, fun _ => 0⟩, 2⟩ : Buffer ℕ) := by
  refine (represents_iff (fun _ => some fun _ => 0) 0 8 _ _ rfl).2 ?_
  refine .cons trivial rfl (.cons trivial rfl (.last (.inl ?_)))
  exact ⟨1, by decide, by decide⟩

/-- Items of `2 ^ 50` bytes, of which the vector can hold 32 and no more: resized to 33 it has 32. -/
theorem resized_partly : ¬Always (exec (fun _ => some fun _ => 0) (2 ^ 50)) (Right fun _ => some fun _ => 0)
    [.resize 33 7] (⟨⟨16, 0, 2 ^ 50, fun _ => 0⟩, 2⟩ : Buffer ℕ) := by
  intro h
  have hends : endsIn (exec (fun _ => some fun _ => 0) (2 ^ 50)) (fun b => b.v.occupied == 32) [.resize 33 7]
      (⟨⟨16, 0, 2 ^ 50, fun _ => 0⟩, 2⟩ : Buffer ℕ) = true := by decide +kernel
  have hright := (always_cons.1 h).1
  unfold endsIn runCalls at hends
  cases he : exec (fun _ => some fun _ => 0) (2 ^ 50) (.resize 33 7) (⟨⟨16, 0, 2 ^ 50, fun _ => 0⟩, 2⟩ : Buffer ℕ) with
  | error e => rw [he] at hends; cases hends
  | ok a =>
    rw [he] at hends hright
    have hlen : a.1.v.occupied = 32 := by simpa [runCalls] using hends
    obtain ⟨-, ⟨-, hdoes⟩ | ⟨-, hsame⟩⟩ := hright
    · have := congrArg List.length hdoes
      rw [length_items, hlen] at this
      exact absurd this (by decide)
    · have := congrArg List.length hsame
      rw [length_items, hlen] at this
      exact absurd this (by decide)

end Libtarp.Buffered
