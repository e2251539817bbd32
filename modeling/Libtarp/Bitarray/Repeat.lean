import Libtarp.Bitarray.Model

/-!
# Bit arrays put together (`bitarray.c`, `Bitr_repeat` and `Bitr_join`)

Both have a path that copies bytes and one that copies bits. The bytes are copied for even widths of at least 8,
which need not be whole bytes: what comes after such an array begins at the next byte, and not at the next bit.

* `repeatBits_wrote`, `joinBits_wrote`: the bits go where they belong.
* `repeat_iff`, `join_iff`, `repeat_join_iff`: the arrays for which the result is right.
* `bytes_misplaced`: two arrays of a width of 10 bits.
-/

namespace Libtarp.Bitr

open Lib Bits

variable {a b new r : Bitarray} {n : ℕ}

/-! ## What is asked for -/

/-- A new array with the bits of `a`, `n` times over. -/
def Repeated (a : Bitarray) (n : ℕ) (r : Except MemFault (Option Bitarray)) : Prop :=
  ∃ new, r = .ok (some new) ∧ new.width = n * a.width ∧
    ∀ i, 1 ≤ i → i ≤ n * a.width → ∃ v, bitrGet new i = .ok v ∧ bitrGet a ((i - 1) % a.width + 1) = .ok v

/-- A new array with the bits of `b`, and those of `a` after them. -/
def Joined (a b : Bitarray) (r : Except MemFault (Option Bitarray)) : Prop :=
  ∃ new, r = .ok (some new) ∧ new.width = a.width + b.width ∧
    (∀ i, 1 ≤ i → i ≤ b.width → ∃ v, bitrGet new i = .ok v ∧ bitrGet b i = .ok v) ∧
    ∀ i, 1 ≤ i → i ≤ a.width → ∃ v, bitrGet new (b.width + i) = .ok v ∧ bitrGet a i = .ok v

/-- Where the fast path is taken, it makes the same array of a new one as the slow path. -/
def PathsAgree (guard : Bool) (nbits : ℕ) (fast slow : Bitarray → Except MemFault Bitarray) : Prop :=
  guard = true → ∀ new, allocateBitarray nbits = .ok (some new) →
    ∃ x y, fast new = .ok x ∧ slow new = .ok y ∧ x.width = y.width ∧ ∀ i, bitrGet x i = bitrGet y i

def RepeatRight (a : Bitarray) (n : ℕ) : Prop :=
  Repeated a n (bitrRepeat a n) ∧ PathsAgree (wholeBytes a.width) (a.width * n) (repeatBytes a n) (repeatBits a n)

def JoinRight (a b : Bitarray) : Prop :=
  Joined a b (bitrJoin a b) ∧
    PathsAgree (wholeBytes a.width && wholeBytes b.width) (a.width + b.width) (joinBytes a b) (joinBits a b)

/-- Bits are copied, the bytes have no unused bits, or these happen to be the right ones. -/
def Repeatable (a : Bitarray) (n : ℕ) : Prop :=
  n * a.width < 2 ^ 32 ∧ (wholeBytes a.width = false ∨ 8 ∣ a.width ∨ n = 1 ∨
    a.width % 8 = 6 ∧ n ≤ 3 ∧ ∀ k < 8 * a.size, a.bit? k = a.bit? (k % 2))

/-- Bits are copied, the bytes of `b` have no unused bits, or `a` repeats these. -/
def Joinable (a b : Bitarray) : Prop :=
  a.width + b.width < 2 ^ 32 ∧ (wholeBytes a.width = false ∨ wholeBytes b.width = false ∨ 8 ∣ b.width ∨
    a.size + b.size = bits2bytes (a.width + b.width) true ∧
      ∀ j < a.width, a.bit? j = b.bit? (b.width + j % (8 - b.width % 8)))

/-! ## Arrays by their bits -/

/-- The bits of an array of a width. -/
def Holds (new : Bitarray) (width : ℕ) (bit : ℕ → Option Bool) : Prop :=
  new.width = width ∧ ∀ i < width, ∃ v, new.bit? i = some v ∧ bit i = some v

theorem Holds.width_lt {width : ℕ} {bit : ℕ → Option Bool} (h : Holds new width bit) : width < 2 ^ 32 := by
  obtain ⟨rfl, hbits⟩ := h
  exact width_lt_of_bits fun i hi => (hbits i hi).imp fun _ hv => hv.1

/-- What was written over a whole array. -/
theorem Wrote.holds_iff {stop : ℕ} {bit want : ℕ → Option Bool} (h : Wrote new r 0 stop bit) (hstop : new.width ≤ stop)
    (hwant : ∀ i < new.width, ∃ v, want i = some v) :
    Holds r new.width want ↔ ∀ i < new.width, bit i = want i := by
  constructor
  · rintro ⟨-, hbits⟩ i hi
    obtain ⟨v, hv, hv'⟩ := hbits i hi
    rw [h.bits, if_pos ⟨Nat.zero_le i, by omega⟩] at hv
    exact hv.trans hv'.symm
  · intro heq
    refine ⟨h.width, fun i hi => ?_⟩
    obtain ⟨v, hv⟩ := hwant i hi
    refine ⟨v, ?_, hv⟩
    rw [h.bits, if_pos ⟨Nat.zero_le i, by omega⟩, heq i hi, hv]

/-- A path is right where it goes through and what it writes is what is asked for. -/
theorem path_iff {path : Except MemFault Bitarray} {stop : ℕ} {bit want : ℕ → Option Bool}
    (hwrote : ∀ r, path = .ok r → Wrote new r 0 stop bit) (hstop : new.width ≤ stop)
    (hwant : ∀ i < new.width, ∃ v, want i = some v) :
    (∃ r, path = .ok r ∧ Holds r new.width want) ↔ (∃ r, path = .ok r) ∧ ∀ i < new.width, bit i = want i := by
  constructor
  · rintro ⟨r, hr, hbits⟩
    exact ⟨⟨r, hr⟩, ((hwrote r hr).holds_iff hstop hwant).1 hbits⟩
  · rintro ⟨⟨r, hr⟩, heq⟩
    exact ⟨r, hr, ((hwrote r hr).holds_iff hstop hwant).2 heq⟩

/-- Arrays with the same bits cannot be told apart. -/
theorem Holds.get_eq {width : ℕ} {bit : ℕ → Option Bool} (h : Holds new width bit) (h' : Holds r width bit) (i : ℕ) :
    bitrGet new i = bitrGet r i := by
  by_cases hi : inrange new.width i = true
  · obtain ⟨k, rfl⟩ : ∃ k, i = k + 1 := by
      refine ⟨i - 1, ?_⟩
      simp only [inrange, decide_eq_true_iff] at hi
      omega
    have hk := inrange_succ.1 hi
    obtain ⟨v, hv, hbit⟩ := h.2 k (by rwa [← h.1])
    obtain ⟨v', hv', hbit'⟩ := h'.2 k (by rwa [← h.1])
    rw [bitrGet_eq hk, bitrGet_eq (by rwa [h'.1, ← h.1]), hv, hv', ← hbit, ← hbit']
  · have hi' : ¬ inrange r.width i = true := by rwa [h'.1, ← h.1]
    unfold bitrGet
    rw [if_neg hi, if_neg hi']

theorem repeated_iff {res : Except MemFault (Option Bitarray)} :
    Repeated a n res ↔ ∃ new, res = .ok (some new) ∧ Holds new (n * a.width) fun i => a.bit? (i % a.width) := by
  have hpos := a.width_pos
  unfold Repeated Holds
  refine exists_congr fun new => and_congr_right fun _ => and_congr_right fun hwidth => ?_
  constructor
  · intro h i hi
    have hbit := h (i + 1) (by omega) hi
    rw [Nat.add_sub_cancel] at hbit
    exact (bitrGet_same_iff (by omega) (Nat.mod_lt i hpos)).1 hbit
  · intro h i h1 hi
    obtain ⟨k, rfl⟩ := Nat.exists_eq_add_of_le' h1
    rw [Nat.add_sub_cancel]
    exact (bitrGet_same_iff (by omega) (Nat.mod_lt k hpos)).2 (h k hi)

/-- The bits of two arrays, one after the other. -/
def after (a b : Bitarray) (i : ℕ) : Option Bool := if i < b.width then b.bit? i else a.bit? (i - b.width)

theorem exists_after (h : a.width + b.width < 2 ^ 32) : ∀ i < a.width + b.width, ∃ v, after a b i = some v := by
  intro i hi
  unfold after
  split_ifs with hlow
  · exact exists_bit (by omega) hlow
  · exact exists_bit (by omega) (by omega)

theorem joined_iff {res : Except MemFault (Option Bitarray)} :
    Joined a b res ↔ ∃ new, res = .ok (some new) ∧ Holds new (a.width + b.width) (after a b) := by
  unfold Joined Holds after
  refine exists_congr fun new => and_congr_right fun _ => and_congr_right fun hwidth => ?_
  constructor
  · rintro ⟨hlow, hhigh⟩ i hi
    by_cases hlt : i < b.width
    · rw [if_pos hlt]
      exact (bitrGet_same_iff (by omega) hlt).1 (hlow (i + 1) (by omega) hlt)
    · have hpos : b.width + (i - b.width + 1) = i + 1 := by omega
      have hbit := hhigh (i - b.width + 1) (by omega) (by omega)
      rw [hpos] at hbit
      rw [if_neg hlt]
      exact (bitrGet_same_iff (by omega) (by omega)).1 hbit
  · intro h
    constructor
    · intro i h1 hi
      obtain ⟨k, rfl⟩ := Nat.exists_eq_add_of_le' h1
      have hbit := h k (by omega)
      rw [if_pos (by omega)] at hbit
      exact (bitrGet_same_iff (by omega) (by omega)).2 hbit
    · intro i h1 hi
      obtain ⟨k, rfl⟩ := Nat.exists_eq_add_of_le' h1
      have hbit := h (b.width + k) (by omega)
      rw [if_neg (by omega), Nat.add_sub_cancel_left] at hbit
      rw [← Nat.add_assoc]
      exact (bitrGet_same_iff (by omega) (by omega)).2 hbit

/-- Where the slow path is right, all depends on the fast one. -/
theorem right_iff {guard : Bool} {nbits : ℕ} {fast slow : Bitarray → Except MemFault Bitarray}
    {res : Except MemFault (Option Bitarray)} {want : ℕ → Option Bool} (hnew : allocateBitarray nbits = .ok (some new))
    (hres : res = if guard then some <$> fast new else some <$> slow new)
    (hslow : ∃ s, slow new = .ok s ∧ Holds s nbits want) :
    ((∃ x, res = .ok (some x) ∧ Holds x nbits want) ∧ PathsAgree guard nbits fast slow) ↔
      guard = false ∨ ∃ r, fast new = .ok r ∧ Holds r nbits want := by
  obtain ⟨s, hs, hsbits⟩ := hslow
  cases guard with
  | false =>
    refine ⟨fun _ => Or.inl rfl, fun _ => ⟨⟨s, ?_, hsbits⟩, fun h => Bool.noConfusion h⟩⟩
    rw [hres, hs]
    rfl
  | true =>
    rw [if_pos rfl] at hres
    subst hres
    constructor
    · rintro ⟨⟨x, hx, hbits⟩, -⟩
      exact Or.inr ⟨x, map_some_iff.1 hx, hbits⟩
    · rintro (h | ⟨r, hr, hbits⟩)
      · cases h
      refine ⟨⟨r, map_some_iff.2 hr, hbits⟩, fun _ new' hnew' => ?_⟩
      obtain rfl := Option.some.inj (Except.ok.inj (hnew.symm.trans hnew'))
      exact ⟨r, s, hr, hs, hbits.1.trans hsbits.1.symm, hbits.get_eq hsbits⟩

/-! ## The two paths of `Bitr_repeat` -/

theorem mod_of_block {i s k : ℕ} (h : s * k ≤ i) (h' : i < s * k + s) : i % s = i - s * k := by
  obtain ⟨j, rfl⟩ := Nat.exists_eq_add_of_le h
  rw [Nat.mul_add_mod, Nat.add_sub_cancel_left, Nat.mod_eq_of_lt (by omega)]

theorem repeatRounds_wrote (h : repeatRounds a n new = .ok r) :
    Wrote new r 0 (8 * (a.size * n)) fun i => a.bit? (i % (8 * a.size)) := by
  induction n generalizing r with
  | zero =>
    obtain rfl := Except.ok.inj h
    exact Wrote.nil _
  | succ n ih =>
    rw [repeatRounds] at h
    obtain ⟨b, hb, hr⟩ := bind_ok_iff.1 h
    rw [Nat.mul_succ]
    refine (ih hb).trans ((memcpy_bit hr).congr fun i h1 h2 => ?_) (Nat.zero_le _) (by omega)
    have hlow : 8 * a.size * n ≤ i := by rwa [Nat.mul_assoc]
    have hhigh : i < 8 * a.size * n + 8 * a.size := by
      rw [Nat.mul_assoc]
      change i < 8 * (a.size * n + a.size) at h2
      omega
    rw [mod_of_block hlow hhigh, Nat.mul_assoc]
    rfl

/-- The bytes are copied where there is room for all of them. -/
theorem repeatRounds_iff : (∃ r, repeatRounds a n new = .ok r) ↔ a.size * n ≤ new.size := by
  induction n with
  | zero => exact ⟨fun _ => Nat.zero_le _, fun _ => ⟨new, rfl⟩⟩
  | succ n ih =>
    rw [repeatRounds]
    constructor
    · rintro ⟨r, h⟩
      obtain ⟨b, hb, hr⟩ := bind_ok_iff.1 h
      have hroom := memcpy_iff.1 ⟨r, hr⟩
      rwa [(repeatRounds_wrote hb).size] at hroom
    · intro h
      rw [Nat.mul_succ] at h
      obtain ⟨b, hb⟩ := ih.2 (by omega)
      obtain ⟨r, hr⟩ : ∃ r, memcpy b (a.size * n) a.bytes = .ok r := by
        rw [memcpy_iff, (repeatRounds_wrote hb).size]
        exact h
      exact ⟨r, bind_ok_iff.2 ⟨b, hb, hr⟩⟩

theorem repeatBytes_eq (hn : n < 2 ^ 32) : repeatBytes a n new = repeatRounds a n new := by
  unfold repeatBytes
  rw [Nat.min_eq_left hn.le]
  simp only [if_pos hn]
  cases repeatRounds a n new <;> rfl

/-- **Bit by bit**, the array is repeated. -/
theorem repeatBits_wrote (hwidth : new.width < 2 ^ 32) (h : a.width * n ≤ new.width) (hn : 0 < n) :
    ∃ r, repeatBits a n new = .ok r ∧ Wrote new r 0 (a.width * n) fun i => a.bit? (i % a.width) := by
  have ha : a.width < 2 ^ 32 := by
    have := Nat.le_mul_of_pos_right a.width hn
    omega
  clear hn
  induction n with
  | zero => exact ⟨new, rfl, Wrote.nil new⟩
  | succ n ih =>
    rw [Nat.mul_succ] at h ⊢
    obtain ⟨b, hb, hwrote⟩ := ih (by omega)
    have hbwidth := hwrote.width
    obtain ⟨r, hr, hlast⟩ := copyBits_bit (show 0 + a.width ≤ a.width by omega) ha
      (show a.width * n + a.width ≤ b.width by omega) (by omega)
    refine ⟨r, bind_ok_iff.2 ⟨b, hb, hr⟩, hwrote.trans (hlast.congr fun i h1 h2 => ?_) (Nat.zero_le _) (by omega)⟩
    rw [mod_of_block h1 h2, Nat.zero_add]

/-- A call of `Bitr_repeat` that asks for less than `2 ^ 32` bits fills a new array. -/
theorem bitrRepeat_eq (hn : 0 < n) (h : a.width * n < 2 ^ 32) :
    ∃ new, allocateBitarray (a.width * n) = .ok (some new) ∧ new.width = a.width * n ∧
      bitrRepeat a n = if wholeBytes a.width then some <$> repeatBytes a n new else some <$> repeatBits a n new := by
  have hpos := a.width_pos
  obtain ⟨new, hnew, hwidth, -⟩ := allocateBitarray_eq (Nat.mul_pos hpos hn) (by omega)
  have hle := Nat.le_mul_of_pos_right a.width hn
  have hsize : a.size ≤ a.width := by
    rw [size_eq, calculateRequiredSize_of_lt (by omega)]
    omega
  have hcap : ¬ bitrMaxcap / n < a.size := by
    have hmul := Nat.mul_le_mul_right n hsize
    rw [Nat.not_lt, Nat.le_div_iff_mul_le hn, bitrMaxcap_eq]
    omega
  refine ⟨new, hnew, hwidth, ?_⟩
  unfold bitrRepeat
  rw [if_neg hcap, hnew]
  rfl

/-! ## When the copied bytes are right -/

/-- There is room for arrays of bytes in one for the bits. -/
theorem room_iff {w : ℕ} (hn : 0 < n) (heven : w % 2 = 0) (hw : ¬ 8 ∣ w) :
    (w + 7) / 8 * n ≤ (w * n + 7) / 8 ↔ n = 1 ∨ w % 8 = 6 ∧ n ≤ 3 := by
  have hsize : (w + 7) / 8 = w / 8 + 1 := by omega
  have hsum : w * n = 8 * (w / 8 * n) + w % 8 * n := by
    rw [← Nat.mul_assoc, ← Nat.add_mul, Nat.div_add_mod]
  have hrest : w % 8 = 2 ∨ w % 8 = 4 ∨ w % 8 = 6 := by omega
  rw [hsize, hsum, Nat.add_mul, Nat.one_mul]
  generalize w / 8 * n = whole
  rcases hrest with h | h | h <;> rw [h] <;> omega

/-- Two unused bits go before each repetition: the bits are right where all of them are two over and over. -/
theorem shifted_iff {β : Type} {w : ℕ} (bit : ℕ → β) (hn : 1 < n) (h2 : 2 ≤ w) (heven : w % 2 = 0) :
    (∀ i < w * n, bit (i % (w + 2)) = bit (i % w)) ↔ ∀ k < w + 2, bit k = bit (k % 2) := by
  constructor
  · intro h k
    induction k using Nat.strong_induction_on with
    | _ k ih =>
    intro hk
    by_cases hlow : k < 2
    · rw [Nat.mod_eq_of_lt hlow]
    have hbound := Nat.mul_le_mul_left w hn
    by_cases hmid : k < w
    · -- the bit `k` of the second repetition
      have heq := h (w + k) (by omega)
      rw [Nat.add_mod_left, Nat.mod_eq_of_lt hmid, show w + k = (w + 2) * 1 + (k - 2) by omega, Nat.mul_add_mod,
        Nat.mod_eq_of_lt (by omega)] at heq
      rw [← heq, ih (k - 2) (by omega) (by omega)]
      congr 1
      omega
    · have heq := h k (by omega)
      rw [Nat.mod_eq_of_lt hk, Nat.mod_eq_sub_mod (by omega), Nat.mod_eq_of_lt (by omega)] at heq
      rw [heq]
      congr 1
      omega
  · intro h i hi
    have hw : i % w < w := Nat.mod_lt i (by omega)
    rw [h (i % (w + 2)) (Nat.mod_lt i (by omega)), h (i % w) (by omega),
      Nat.mod_mod_of_dvd i (by omega : 2 ∣ w + 2), Nat.mod_mod_of_dvd i (by omega : 2 ∣ w)]

theorem wholeBytes_iff {w : ℕ} : wholeBytes w = true ↔ 8 ≤ w ∧ w % 2 = 0 := by
  unfold wholeBytes
  rw [decide_eq_true_iff, ismult2_iff]

/-- **The fast path of `Bitr_repeat`** is right where the unused bits do not show. -/
theorem repeatBytes_iff (hn : 0 < n) (h : a.width * n < 2 ^ 32) (hnew : new.width = a.width * n)
    (hwhole : wholeBytes a.width = true) :
    (∃ r, repeatBytes a n new = .ok r ∧ Holds r (a.width * n) fun i => a.bit? (i % a.width)) ↔
      8 ∣ a.width ∨ n = 1 ∨ a.width % 8 = 6 ∧ n ≤ 3 ∧ ∀ k < 8 * a.size, a.bit? k = a.bit? (k % 2) := by
  obtain ⟨h8, heven⟩ := wholeBytes_iff.1 hwhole
  have hle := Nat.le_mul_of_pos_right a.width hn
  have hle' := Nat.le_mul_of_pos_left n a.width_pos
  have hsize : a.size = (a.width + 7) / 8 := by rw [size_eq, calculateRequiredSize_of_lt (by omega)]
  have hroom : new.size = (a.width * n + 7) / 8 := by rw [size_eq, hnew, calculateRequiredSize_of_lt h]
  have hstop : a.width * n ≤ 8 * (a.size * n) := by
    rw [← Nat.mul_assoc]
    exact Nat.mul_le_mul_right n (by omega)
  have hwant : ∀ i < new.width, ∃ v, a.bit? (i % a.width) = some v := fun i _ =>
    exists_bit (by omega) (Nat.mod_lt i a.width_pos)
  rw [repeatBytes_eq (by omega), ← hnew, path_iff (fun r hr => repeatRounds_wrote hr) (by omega) hwant,
    repeatRounds_iff, hnew]
  by_cases hdvd : 8 ∣ a.width
  · have hexact : 8 * a.size = a.width := by omega
    have hfull : 8 * (a.size * n) = a.width * n := by rw [← Nat.mul_assoc, hexact]
    rw [hexact]
    exact iff_of_true ⟨by omega, fun i _ => rfl⟩ (Or.inl hdvd)
  rw [hroom, hsize, room_iff hn heven hdvd, ← hsize]
  by_cases hone : n = 1
  · subst hone
    refine iff_of_true ⟨Or.inl rfl, fun i hi => ?_⟩ (Or.inr (Or.inl rfl))
    rw [Nat.mod_eq_of_lt (by omega), Nat.mod_eq_of_lt (by omega)]
  by_cases hsix : a.width % 8 = 6 ∧ n ≤ 3
  · have htwo : 8 * a.size = a.width + 2 := by omega
    rw [htwo, shifted_iff a.bit? (by omega) (by omega) heven]
    tauto
  · tauto

/-- **The repetitions that are right.** -/
theorem repeat_iff (hn : 0 < n) : RepeatRight a n ↔ Repeatable a n := by
  unfold RepeatRight Repeatable
  rw [repeated_iff, Nat.mul_comm n]
  by_cases h : a.width * n < 2 ^ 32
  · obtain ⟨new, hnew, hwidth, hres⟩ := bitrRepeat_eq hn h
    obtain ⟨s, hs, hwrote⟩ := repeatBits_wrote (by omega) hwidth.ge hn
    have hslow : Holds s (a.width * n) fun i => a.bit? (i % a.width) := by
      rw [← hwidth] at hwrote ⊢
      refine (hwrote.holds_iff le_rfl fun i _ => ?_).2 fun i _ => rfl
      have hle := Nat.le_mul_of_pos_right a.width hn
      exact exists_bit (by omega) (Nat.mod_lt i a.width_pos)
    rw [right_iff hnew hres ⟨s, hs, hslow⟩]
    cases hwhole : wholeBytes a.width with
    | false => exact iff_of_true (Or.inl rfl) ⟨h, Or.inl rfl⟩
    | true =>
      rw [repeatBytes_iff hn h hwidth hwhole]
      tauto
  · refine iff_of_false ?_ fun hr => h hr.1
    rintro ⟨⟨x, -, hbits⟩, -⟩
    exact h hbits.width_lt

/-! ## The two paths of `Bitr_join` -/

/-- The bytes of two arrays, one after the other. -/
def bytesAfter (a b : Bitarray) (i : ℕ) : Option Bool := if i < 8 * b.size then b.bit? i else a.bit? (i - 8 * b.size)

theorem joinBytes_wrote (h : joinBytes a b new = .ok r) : Wrote new r 0 (8 * (b.size + a.size)) (bytesAfter a b) := by
  obtain ⟨mid, hmid, hr⟩ := bind_ok_iff.1 h
  have hlow : Wrote new mid 0 (8 * b.size) (bytesAfter a b) := by
    have hb := memcpy_bit hmid
    rw [Nat.zero_add] at hb
    refine hb.congr fun i _ hi => ?_
    unfold bytesAfter
    rw [if_pos (show i < 8 * b.size from hi)]
    rfl
  refine hlow.trans ((memcpy_bit hr).congr fun i hi _ => ?_) (Nat.zero_le _) (by omega)
  unfold bytesAfter
  rw [if_neg (by omega)]
  rfl

theorem joinBytes_room : (∃ r, joinBytes a b new = .ok r) ↔ b.size + a.size ≤ new.size := by
  constructor
  · rintro ⟨r, h⟩
    obtain ⟨mid, hmid, hr⟩ := bind_ok_iff.1 h
    have hroom := memcpy_iff.1 ⟨r, hr⟩
    rwa [(memcpy_bit hmid).size] at hroom
  · intro h
    obtain ⟨mid, hmid⟩ : ∃ mid, memcpy new 0 b.bytes = .ok mid := by
      rw [memcpy_iff, Nat.zero_add]
      exact (Nat.le_add_right _ _).trans h
    obtain ⟨r, hr⟩ : ∃ r, memcpy mid b.size a.bytes = .ok r := by
      rw [memcpy_iff, (memcpy_bit hmid).size]
      exact h
    exact ⟨r, bind_ok_iff.2 ⟨mid, hmid, hr⟩⟩

/-- **Bit by bit**, the arrays are joined. -/
theorem joinBits_wrote (hwidth : new.width < 2 ^ 32) (h : new.width = a.width + b.width) :
    ∃ r, joinBits a b new = .ok r ∧ Wrote new r 0 new.width (after a b) := by
  obtain ⟨mid, hmid, hlow⟩ := copyBits_bit (show 0 + b.width ≤ b.width by omega) (by omega)
    (show 0 + b.width ≤ new.width by omega) hwidth
  have hmidwidth := hlow.width
  obtain ⟨r, hr, hhigh⟩ := copyBits_bit (show 0 + a.width ≤ a.width by omega) (by omega)
    (show b.width + a.width ≤ mid.width by omega) (by omega)
  rw [Nat.zero_add] at hlow
  have hstop : new.width = b.width + a.width := by omega
  rw [hstop]
  refine ⟨r, bind_ok_iff.2 ⟨mid, hmid, hr⟩, Wrote.trans (hlow.congr fun i _ hi => ?_)
    (hhigh.congr fun i hi _ => ?_) (Nat.zero_le _) (by omega)⟩
  · unfold after
    rw [if_pos hi, Nat.sub_zero, Nat.zero_add]
  · unfold after
    rw [if_neg (by omega), Nat.zero_add]

/-- A call of `Bitr_join` that asks for less than `2 ^ 32` bits fills a new array. -/
theorem bitrJoin_eq (h : a.width + b.width < 2 ^ 32) :
    ∃ new, allocateBitarray (a.width + b.width) = .ok (some new) ∧ new.width = a.width + b.width ∧
      bitrJoin a b = if wholeBytes a.width && wholeBytes b.width then some <$> joinBytes a b new
        else some <$> joinBits a b new := by
  obtain ⟨new, hnew, hwidth, -⟩ := allocateBitarray_eq (Nat.add_pos_left a.width_pos b.width) (by omega)
  have hsize : a.size ≤ 2 ^ 29 := (size_eq a).trans_le (calculateRequiredSize_le a.width)
  have hsize' : b.size ≤ 2 ^ 29 := (size_eq b).trans_le (calculateRequiredSize_le b.width)
  have hcap : ¬ bitrMaxcap - a.size < b.size := by
    rw [bitrMaxcap_eq]
    omega
  refine ⟨new, hnew, hwidth, ?_⟩
  unfold bitrJoin
  rw [if_neg hcap, hnew]
  rfl

/-- Unused bits go before the last array: the bits are right where it repeats them over and over. -/
theorem follows_iff {β : Type} {w d : ℕ} (unused bit : ℕ → β) (hd : 0 < d) :
    (∀ j < w, (if j < d then unused j else bit (j - d)) = bit j) ↔ ∀ j < w, bit j = unused (j % d) := by
  constructor
  · intro h j
    induction j using Nat.strong_induction_on with
    | _ j ih =>
    intro hj
    have heq := h j hj
    by_cases hlow : j < d
    · rw [if_pos hlow] at heq
      rw [Nat.mod_eq_of_lt hlow, heq]
    · rw [if_neg hlow] at heq
      rw [← heq, ih (j - d) (by omega) (by omega), ← Nat.mod_eq_sub_mod (by omega)]
  · intro h j hj
    by_cases hlow : j < d
    · rw [if_pos hlow, h j hj, Nat.mod_eq_of_lt hlow]
    · rw [if_neg hlow, h j hj, h (j - d) (by omega), ← Nat.mod_eq_sub_mod (by omega)]

/-- **The fast path of `Bitr_join`** is right where the unused bits do not show. -/
theorem joinBytes_iff (h : a.width + b.width < 2 ^ 32) (hnew : new.width = a.width + b.width) :
    (∃ r, joinBytes a b new = .ok r ∧ Holds r (a.width + b.width) (after a b)) ↔
      8 ∣ b.width ∨ a.size + b.size = bits2bytes (a.width + b.width) true ∧
        ∀ j < a.width, a.bit? j = b.bit? (b.width + j % (8 - b.width % 8)) := by
  have hsize : a.size = (a.width + 7) / 8 := by rw [size_eq, calculateRequiredSize_of_lt (by omega)]
  have hsize' : b.size = (b.width + 7) / 8 := by rw [size_eq, calculateRequiredSize_of_lt (by omega)]
  have hroom : new.size = (a.width + b.width + 7) / 8 := by rw [size_eq, hnew, calculateRequiredSize_of_lt h]
  have hwant := exists_after h
  -- only the bits of `a` can be misplaced
  have hlast : (∀ i < a.width + b.width, bytesAfter a b i = after a b i) ↔
      ∀ j < a.width, (if j < 8 * b.size - b.width then b.bit? (b.width + j)
        else a.bit? (j - (8 * b.size - b.width))) = a.bit? j := by
    unfold bytesAfter after
    constructor
    · intro heq j hj
      have hbit := heq (b.width + j) (by omega)
      rw [if_neg (show ¬ b.width + j < b.width by omega), Nat.add_sub_cancel_left] at hbit
      rw [← hbit]
      split_ifs <;> first | rfl | omega | (congr 1; omega)
    · intro heq i hi
      by_cases hlow : i < b.width
      · rw [if_pos hlow, if_pos (by omega)]
      have hbit := heq (i - b.width) (by omega)
      rw [if_neg hlow, ← hbit, show b.width + (i - b.width) = i by omega]
      split_ifs <;> first | rfl | omega | (congr 1; omega)
  rw [← hnew, path_iff (fun r hr => joinBytes_wrote hr) (by omega) (by rwa [hnew]), joinBytes_room, hnew, hlast]
  by_cases hdvd : 8 ∣ b.width
  · refine iff_of_true ⟨by omega, fun j hj => ?_⟩ (Or.inl hdvd)
    rw [if_neg (by omega)]
    congr 1
    omega
  have hunused : 8 * b.size - b.width = 8 - b.width % 8 := by omega
  rw [hunused, follows_iff (fun j => b.bit? (b.width + j)) a.bit? (by omega), bits2bytes_round]
  constructor
  · rintro ⟨hle, heq⟩
    exact Or.inr ⟨by omega, heq⟩
  · rintro (hd | ⟨hsum, heq⟩)
    · exact absurd hd hdvd
    · exact ⟨by omega, heq⟩

/-- **The pairs that are joined right.** -/
theorem join_iff : JoinRight a b ↔ Joinable a b := by
  unfold JoinRight Joinable
  rw [joined_iff]
  by_cases h : a.width + b.width < 2 ^ 32
  · obtain ⟨new, hnew, hwidth, hres⟩ := bitrJoin_eq h
    obtain ⟨s, hs, hwrote⟩ := joinBits_wrote (by omega) hwidth
    have hslow : Holds s (a.width + b.width) (after a b) := by
      have hwant := exists_after h
      rw [← hwidth] at hwant ⊢
      exact (hwrote.holds_iff le_rfl hwant).2 fun i _ => rfl
    rw [right_iff hnew hres ⟨s, hs, hslow⟩, joinBytes_iff h hwidth, Bool.and_eq_false_iff]
    tauto
  · refine iff_of_false ?_ fun hr => h hr.1
    rintro ⟨⟨x, -, hbits⟩, -⟩
    exact h hbits.width_lt

/-- **Where arrays are repeated and joined as they should be.** -/
theorem repeat_join_iff (a b : Bitarray) (hn : 0 < n) :
    (RepeatRight a n ↔ Repeatable a n) ∧ (JoinRight a b ↔ Joinable a b) :=
  ⟨repeat_iff hn, join_iff⟩

theorem sized_ten : [(1 : UInt8), 2].length = calculateRequiredSize 10 ∧ 0 < 10 ∧ 10 < 2 ^ 64 := by decide

theorem sized_eight : [(1 : UInt8)].length = calculateRequiredSize 8 ∧ 0 < 8 ∧ 8 < 2 ^ 64 := by decide

/-- The width is 10: bits 1 and 10 are on. -/
def ten : Bitarray := ofBytes 10 [1, 2] sized_ten

/-- The width is 8: bit 1 is on. -/
def eight : Bitarray := ofBytes 8 [1] sized_eight

theorem repeat_join_ten : RepeatRight ten 1 ∧ JoinRight ten eight := by
  obtain ⟨hrepeat, hjoin⟩ := repeat_join_iff ten eight (show 0 < 1 by decide)
  exact ⟨hrepeat.2 ⟨by decide, Or.inr (Or.inr (Or.inl rfl))⟩, hjoin.2 ⟨by decide, Or.inr (Or.inr (Or.inl (by decide)))⟩⟩

/-- The bit of a new array. -/
def newBit (res : Except MemFault (Option Bitarray)) (pos : ℕ) : Except MemFault ℤ := do
  match ← res with
  | none => throw .nullPointer
  | some new => bitrGet new pos

/-- **Ten bits are not repeated, and nothing is joined to them.** The second copy goes past the end of three bytes;
bit 1 of the array that is joined is not at 11. -/
theorem bytes_misplaced : ¬ RepeatRight ten 2 ∧ ¬ JoinRight eight ten := by
  constructor
  · rintro ⟨⟨new, hnew, -⟩, -⟩
    have hout : bitrRepeat ten 2 = .error .outside := rfl
    rw [hout] at hnew
    cases hnew
  · rintro ⟨⟨new, hnew, -, -, hbits⟩, -⟩
    obtain ⟨v, hv, hv'⟩ := hbits 1 le_rfl (by decide)
    have hoff : newBit (bitrJoin eight ten) 11 = .ok 0 := rfl
    have hon : bitrGet eight 1 = .ok 1 := rfl
    rw [hnew] at hoff
    have hzero : v = 0 := Except.ok.inj (hv.symm.trans hoff)
    have hone : v = 1 := Except.ok.inj (hv'.symm.trans hon)
    omega

end Libtarp.Bitr
