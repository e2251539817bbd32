import Libtarp.Bitarray.FromString

/-!
# Dumping a bit array, and parsing the dump (`bitarray.c`, `Bitr_tostring` and `Bitr_fromstring`)

* `RoundTrip`: what is asked for.
* `Dumped`: what stands in the string after some of the bits. `dumpBits_dumped`: the loop keeps it, and fills the
  string exactly. `dumpBits_ok`: it goes through where there is room.
* `roundTrip_iff`: the round trip goes through for all arrays whose buffer and whose string have the right size.
-/

namespace Libtarp.Bitr

open Lib Bits

variable {a r : Bitarray} {sep : List Char} {groupsz : ℕ} {d d' : Dump}

/-! ## What is asked for -/

/-- A separator that is a string without digits. -/
structure Separator (sep : List Char) : Prop where
  ne_nil : sep ≠ []
  free : NoDigits sep
  terminated : '\x00' ∉ sep

/-- The string in memory. -/
def cString (mem : List Char) : List Char := mem.takeWhile fun c => c ≠ '\x00'

/-- The string that is dumped fills its memory, and is parsed to an array of the same bits. -/
def RoundTrip (a : Bitarray) (splitEvery : ℕ) (sep : List Char) : Prop :=
  ∃ mem r, bitrTostring a splitEvery (some sep) = .ok mem ∧ mem.length = (cString mem).length + 1 ∧
    bitrFromstring none (cString mem) (some sep) = .ok (none, some r) ∧ r.width = a.width ∧
    ∀ i, 1 ≤ i → i ≤ a.width → ∃ v, bitrGet r i = .ok v ∧ bitrGet a i = .ok v

/-- The bytes of the dump, with the terminator. -/
def dumpSize (width groupsz seplen : ℕ) : ℕ := width + 1 + seplen * separators width groupsz

/-! ## Writing the string -/

theorem Dump.put_ok {p : List Char} (h : d.put p = .ok d') : d'.text = p ++ d.text ∧ d.room = d'.room + p.length := by
  unfold Dump.put at h
  split_ifs at h with hle
  · obtain rfl := Except.ok.inj h
    exact ⟨rfl, by change d.room = d.room - p.length + p.length; omega⟩

theorem Dump.put_of_room {p : List Char} (h : p.length ≤ d.room) : d.put p = .ok ⟨d.room - p.length, p ++ d.text⟩ := by
  unfold Dump.put
  rw [if_pos h]
  rfl

/-- The first `k` bits of an array are in the string, with separators. -/
structure Dumped (a : Bitarray) (sep : List Char) (k : ℕ) (d : Dump) : Prop where
  separated : Separated isBit sep d.text
  count : d.text.countP isBit = k
  bits : ∀ i < k, (digitBits d.text.reverse)[i]? = a.bit? i
  terminated : '\x00' ∉ d.text

namespace Dumped

variable {k : ℕ}

theorem nil (a : Bitarray) (sep : List Char) (room : ℕ) : Dumped a sep 0 ⟨room, []⟩ :=
  ⟨Separated.nil, rfl, fun i hi => absurd hi (Nat.not_lt_zero i), List.not_mem_nil⟩

theorem bit {v : Bool} (h : Dumped a sep k d) (hbit : a.bit? k = some v)
    (hput : d.put [if (v.toNat : ℤ) = 1 then '1' else '0'] = .ok d') : Dumped a sep (k + 1) d' := by
  obtain ⟨htext, -⟩ := Dump.put_ok hput
  obtain ⟨c, hc, hdigit, hval, hnul⟩ : ∃ c, (if (v.toNat : ℤ) = 1 then '1' else '0') = c ∧ isBit c = true ∧
      decide (c = '1') = v ∧ c ≠ '\x00' := by
    cases v with
    | false => exact ⟨'0', rfl, rfl, rfl, by decide⟩
    | true => exact ⟨'1', rfl, rfl, rfl, by decide⟩
  rw [hc, List.singleton_append] at htext
  have hlen : (digitBits d.text.reverse).length = k := by
    rw [digitBits_length, countP_reverse_isBit, h.count]
  refine ⟨?_, ?_, fun i hi => ?_, ?_⟩
  · rw [htext]
    exact h.separated.digit hdigit
  · rw [htext, List.countP_cons_of_pos hdigit, h.count]
  · have hrev : digitBits d'.text.reverse = digitBits d.text.reverse ++ [v] := by
      rw [htext, digitBits_reverse, digitBits_reverse, digitBits_cons_of_pos hdigit, hval, List.reverse_cons]
    rw [hrev]
    by_cases hlast : i = k
    · rw [hlast, List.getElem?_append_right hlen.le, hlen, Nat.sub_self, List.getElem?_cons_zero, hbit]
    · rw [List.getElem?_append_left (by omega), h.bits i (by omega)]
  · rw [htext, List.mem_cons, not_or]
    exact ⟨hnul.symm, h.terminated⟩

theorem separator (h : Dumped a sep k d) (hsep : Separator sep) (hput : d.put sep = .ok d') : Dumped a sep k d' := by
  obtain ⟨htext, -⟩ := Dump.put_ok hput
  have hnone : digitBits sep.reverse = [] := by
    rw [← List.length_eq_zero_iff, digitBits_length, countP_reverse_isBit, List.countP_eq_zero]
    intro c hc
    rw [hsep.free c hc]
    exact Bool.false_ne_true
  have hrev : digitBits d'.text.reverse = digitBits d.text.reverse := by
    rw [htext, List.reverse_append]
    unfold digitBits at hnone ⊢
    rw [List.filter_append, List.map_append, hnone, List.append_nil]
  refine ⟨?_, ?_, fun i hi => ?_, ?_⟩
  · rw [htext]
    exact h.separated.sep hsep.ne_nil
  · rw [htext, countP_separator hsep.free, h.count]
  · rw [hrev, h.bits i hi]
  · rw [htext, List.mem_append, not_or]
    exact ⟨hsep.terminated, h.terminated⟩

end Dumped

/-! ## The loop -/

/-- The groups that are left have their ends ahead. -/
theorem groups_step {k rounds groups : ℕ} (h : groups - 1 + k / groupsz ≤ (k + (rounds + 1)) / groupsz) :
    (if 1 < groups ∧ (k + 1) % groupsz = 0 then groups - 1 else groups) - 1 + (k + 1) / groupsz ≤
      (k + 1 + rounds) / groupsz := by
  have hmono : (k + 1) / groupsz ≤ (k + 1 + rounds) / groupsz := Nat.div_le_div_right (Nat.le_add_right _ _)
  have hend : k + (rounds + 1) = k + 1 + rounds := by omega
  have hsucc := Nat.succ_div (a := k) (b := groupsz)
  rw [hend] at h
  by_cases hmul : 1 < groups ∧ (k + 1) % groupsz = 0
  · rw [if_pos hmul]
    rw [if_pos (Nat.dvd_of_mod_eq_zero hmul.2)] at hsucc
    omega
  · rw [if_neg hmul]
    by_cases hone : 1 < groups
    · rw [if_neg fun hdvd => hmul ⟨hone, Nat.mod_eq_zero_of_dvd hdvd⟩] at hsucc
      omega
    · omega

/-- One separator less for one group less. -/
theorem separators_succ (sep : List Char) {groups : ℕ} (h : 1 < groups) :
    sep.length * (groups - 1) = sep.length * (groups - 1 - 1) + sep.length := by
  rw [← Nat.mul_succ]
  congr 1
  omega

/-- One round: a bit, and a separator where a group ends and another one follows. -/
theorem dumpBits_succ {rounds k groups : ℕ} {v : Bool} (hin : k < a.width) (hbit : a.bit? k = some v)
    (hsep : sep ≠ []) : dumpBits a groupsz sep (rounds + 1) (k + 1) groups d =
      d.put [if (v.toNat : ℤ) = 1 then '1' else '0'] >>= fun d =>
        if 1 < groups ∧ (k + 1) % groupsz = 0 then
          d.put sep >>= dumpBits a groupsz sep rounds (k + 1 + 1) (groups - 1)
        else dumpBits a groupsz sep rounds (k + 1 + 1) groups d := by
  rw [dumpBits, bitrGet_eq hin, hbit]
  change (d.put [if (v.toNat : ℤ) = 1 then '1' else '0'] >>= _) = _
  congr 1
  funext d
  by_cases hend : 1 < groups ∧ (k + 1) % groupsz = 0
  · rw [if_pos hend, if_pos hend, if_pos (by omega), if_neg hsep]
  · rw [if_neg hend, if_neg hend]

/-- The loop reads a bit in each round. -/
theorem dumpBits_read {rounds k groups : ℕ} (hin : k < a.width)
    (h : dumpBits a groupsz sep (rounds + 1) (k + 1) groups d = .ok d') : ∃ v, a.bit? k = some v := by
  rw [dumpBits, bitrGet_eq hin] at h
  cases hbit : a.bit? k with
  | none => rw [hbit] at h; cases h
  | some v => exact ⟨v, rfl⟩

/-- **What the loop writes is what was counted before it.** -/
theorem dumpBits_dumped (hsep : Separator sep) {rounds k groups : ℕ} (hin : k + rounds = a.width)
    (hgroups : groups - 1 + k / groupsz ≤ (k + rounds) / groupsz)
    (h : dumpBits a groupsz sep rounds (k + 1) groups d = .ok d') (hd : Dumped a sep k d) :
    Dumped a sep a.width d' ∧ d.room = d'.room + rounds + sep.length * (groups - 1) := by
  induction rounds generalizing k groups d with
  | zero =>
    obtain rfl := Except.ok.inj h
    have hzero : groups - 1 = 0 := by
      rw [Nat.add_zero] at hgroups
      omega
    rw [Nat.add_zero] at hin
    rw [hzero, Nat.mul_zero, ← hin]
    exact ⟨hd, rfl⟩
  | succ rounds ih =>
    obtain ⟨v, hv⟩ := dumpBits_read (by omega) h
    have hnext := groups_step hgroups
    rw [dumpBits_succ (by omega) hv hsep.ne_nil] at h
    obtain ⟨d₁, hput, h⟩ := bind_ok_iff.1 h
    have hroom := (Dump.put_ok hput).2
    have hd₁ := hd.bit hv hput
    rw [List.length_singleton] at hroom
    by_cases hend : 1 < groups ∧ (k + 1) % groupsz = 0
    · rw [if_pos hend] at h hnext
      obtain ⟨d₂, hput', h⟩ := bind_ok_iff.1 h
      have hroom' := (Dump.put_ok hput').2
      obtain ⟨hd', hleft⟩ := ih (by omega) hnext h (hd₁.separator hsep hput')
      have hmul := separators_succ sep hend.1
      exact ⟨hd', by omega⟩
    · rw [if_neg hend] at h hnext
      obtain ⟨hd', hleft⟩ := ih (by omega) hnext h hd₁
      exact ⟨hd', by omega⟩

/-- The loop goes through where there is room for the rest. -/
theorem dumpBits_ok (hwidth : a.width < 2 ^ 32) (hsep : sep ≠ []) {rounds k groups : ℕ} (hin : k + rounds = a.width)
    (hroom : rounds + sep.length * (groups - 1) ≤ d.room) :
    ∃ d', dumpBits a groupsz sep rounds (k + 1) groups d = .ok d' := by
  induction rounds generalizing k groups d with
  | zero => exact ⟨d, rfl⟩
  | succ rounds ih =>
    obtain ⟨v, hv⟩ := exists_bit hwidth (show k < a.width by omega)
    rw [dumpBits_succ (by omega) hv hsep, Dump.put_of_room (by rw [List.length_singleton]; omega), ok_bind]
    by_cases hend : 1 < groups ∧ (k + 1) % groupsz = 0
    · have hmul := separators_succ sep hend.1
      rw [if_pos hend, Dump.put_of_room (by change sep.length ≤ d.room - 1; omega), ok_bind]
      refine ih (by omega) ?_
      change rounds + sep.length * (groups - 1 - 1) ≤ d.room - 1 - sep.length
      omega
    · rw [if_neg hend]
      refine ih (by omega) ?_
      change rounds + sep.length * (groups - 1) ≤ d.room - 1
      omega

/-! ## The whole dump -/

/-- The groups of a dump, as the loop counts them. -/
def groupCount (width groupsz : ℕ) : ℕ := if 0 < groupsz ∧ groupsz < width then separators width groupsz + 1 else 0

theorem groupCount_eq (width groupsz : ℕ) : groupCount width groupsz - 1 = separators width groupsz := by
  unfold groupCount separators
  by_cases h : 0 < groupsz ∧ groupsz < width
  · rw [if_pos h, if_pos h, Nat.add_sub_cancel]
  · rw [if_neg h, if_neg h]

theorem separators_le (width groupsz : ℕ) : separators width groupsz ≤ width / groupsz := by
  unfold separators
  by_cases h : 0 < groupsz ∧ groupsz < width
  · rw [if_pos h]
    exact Nat.sub_le ..
  · rw [if_neg h]
    exact Nat.zero_le _

theorem bitrTostring_eq : bitrTostring a groupsz (some sep) =
    if dumpSize a.width groupsz sep.length % 2 ^ 64 = 0 then .error .nullPointer
    else Dump.memory <$> dumpBits a groupsz sep a.width (0 + 1) (groupCount a.width groupsz)
      ⟨dumpSize a.width groupsz sep.length % 2 ^ 64 - 1, []⟩ := rfl

/-- A dump that goes through had the room it needed. -/
theorem bitrTostring_dumped (hsep : Separator sep) {mem : List Char} (h : bitrTostring a groupsz (some sep) = .ok mem) :
    ∃ d, mem = d.memory ∧ Dumped a sep a.width d ∧
      dumpSize a.width groupsz sep.length % 2 ^ 64 = d.room + dumpSize a.width groupsz sep.length := by
  rw [bitrTostring_eq] at h
  split_ifs at h with h0
  cases hdump : dumpBits a groupsz sep a.width (0 + 1) (groupCount a.width groupsz)
      ⟨dumpSize a.width groupsz sep.length % 2 ^ 64 - 1, []⟩ with
  | error e => rw [hdump] at h; cases h
  | ok d =>
    rw [hdump] at h
    have hgroups : groupCount a.width groupsz - 1 + 0 / groupsz ≤ (0 + a.width) / groupsz := by
      rw [groupCount_eq, Nat.zero_div, Nat.add_zero, Nat.zero_add]
      exact separators_le a.width groupsz
    obtain ⟨hdumped, hroom⟩ := dumpBits_dumped hsep (Nat.zero_add _) hgroups hdump (Dumped.nil a sep _)
    rw [groupCount_eq] at hroom
    refine ⟨d, (Except.ok.inj h).symm, hdumped, ?_⟩
    change dumpSize a.width groupsz sep.length % 2 ^ 64 - 1 = _ at hroom
    -- a size that wraps is smaller than what was written
    generalize hsize : dumpSize a.width groupsz sep.length = size at hroom h0 ⊢
    unfold dumpSize at hsize
    omega

/-- A dump goes through where its size is that of its memory. -/
theorem bitrTostring_ok (hwidth : a.width < 2 ^ 32) (hsep : Separator sep)
    (hsize : dumpSize a.width groupsz sep.length < 2 ^ 64) : ∃ mem, bitrTostring a groupsz (some sep) = .ok mem := by
  have hpos : 0 < dumpSize a.width groupsz sep.length := by
    unfold dumpSize
    omega
  have hroom : a.width + sep.length * (groupCount a.width groupsz - 1) ≤ dumpSize a.width groupsz sep.length - 1 := by
    rw [groupCount_eq]
    unfold dumpSize
    omega
  obtain ⟨d, hd⟩ : ∃ d, dumpBits a groupsz sep a.width (0 + 1) (groupCount a.width groupsz)
      ⟨dumpSize a.width groupsz sep.length - 1, []⟩ = .ok d := dumpBits_ok hwidth hsep.ne_nil (Nat.zero_add a.width) hroom
  rw [bitrTostring_eq, Nat.mod_eq_of_lt hsize, if_neg (by omega), hd]
  exact ⟨d.memory, rfl⟩

/-- A full string is read up to its end. -/
theorem cString_memory {text : List Char} (h : '\x00' ∉ text) : cString (Dump.memory ⟨0, text⟩) = text := by
  have hall : ∀ c ∈ text, decide (c ≠ '\x00') = true := by
    intro c hc
    rw [decide_eq_true_iff]
    rintro rfl
    exact h hc
  unfold cString Dump.memory
  rw [List.replicate_zero, List.nil_append, List.takeWhile_append_of_pos hall, List.takeWhile_cons_of_neg, List.append_nil]
  decide

/-! ## The round trip -/

theorem RoundTrip.width_lt (h : RoundTrip a groupsz sep) : a.width < 2 ^ 32 := by
  obtain ⟨mem, r, -, -, -, hwidth, hbits⟩ := h
  refine width_lt_of_bits fun i hi => ?_
  obtain ⟨v, -, hv⟩ := (bitrGet_same_iff (by omega) hi).1 (hbits (i + 1) (by omega) hi)
  exact ⟨v, hv⟩

/-- **The dump is parsed to the array it is of, unless the buffer of the array or the memory of the string is too
small for it.** -/
theorem roundTrip_iff (a : Bitarray) (splitEvery : ℕ) (sep : List Char) (hsep : Separator sep) :
    RoundTrip a splitEvery sep ↔ a.width < 2 ^ 32 ∧ dumpSize a.width splitEvery sep.length < 2 ^ 64 := by
  constructor
  · intro h
    refine ⟨h.width_lt, ?_⟩
    obtain ⟨mem, r, hmem, -⟩ := h
    obtain ⟨d, -, -, hroom⟩ := bitrTostring_dumped hsep hmem
    omega
  · rintro ⟨hwidth, hsize⟩
    have hpos := a.width_pos
    obtain ⟨mem, hmem⟩ := bitrTostring_ok hwidth hsep hsize
    obtain ⟨⟨room, text⟩, rfl, hdumped, hroom⟩ := bitrTostring_dumped hsep hmem
    obtain rfl : room = 0 := by
      change _ = room + _ at hroom
      rw [Nat.mod_eq_of_lt hsize] at hroom
      omega
    have htext := cString_memory hdumped.terminated
    have hcount : text.countP isBit = a.width := hdumped.count
    have hne : text ≠ [] := by
      rintro rfl
      rw [List.countP_nil] at hcount
      omega
    have hfree : NoDigits ((some sep).getD []) := hsep.free
    have hvalid := (isValidBitstring_iff hfree).2 ⟨hne, hdumped.separated, hcount.symm⟩
    obtain ⟨r, hr, hstored⟩ := bitrFromstring_new hvalid hcount.symm hpos hwidth
    have hr_width := (hstored.fresh rfl).trans hcount
    refine ⟨_, r, hmem, ?_, by rw [htext]; exact hr, hr_width, fun i h1 hi => ?_⟩
    · rw [htext]
      unfold Dump.memory
      rw [List.replicate_zero, List.nil_append, List.length_append, List.length_singleton]
    · obtain ⟨k, rfl⟩ := Nat.exists_eq_add_of_le' h1
      obtain ⟨v, hv, hget⟩ := hstored.bits (k + 1) h1 (by omega)
      have hbit : (digitBits text.reverse)[k]? = a.bit? k := hdumped.bits k hi
      rw [digitBits_reverse_getElem? (by omega)] at hbit
      refine ⟨v.toNat, hget, ?_⟩
      rw [bitrGet_eq hi, ← hbit, hv, Option.elim_some]

theorem separator_dot : Separator ['.'] := ⟨List.cons_ne_nil _ _, noDigits_singleton (by decide), by decide⟩

theorem sized_seven : [(89 : UInt8)].length = calculateRequiredSize 7 ∧ 0 < 7 ∧ 7 < 2 ^ 64 := by decide

/-- The width is 7: it is dumped as 1.011.001 in groups of three. -/
def seven : Bitarray := ofBytes 7 [89] sized_seven

theorem roundTrip_seven : RoundTrip seven 3 ['.'] := (roundTrip_iff seven 3 ['.'] separator_dot).2 ⟨by decide, by decide⟩

example : bitrTostring seven 3 (some ['.']) = .ok ['1', '.', '0', '1', '1', '.', '0', '0', '1', '\x00'] := by rfl

theorem sized_wide : ([] : List UInt8).length = calculateRequiredSize (2 ^ 32) ∧ 0 < 2 ^ 32 ∧ 2 ^ 32 < 2 ^ 64 := by decide

/-- The array that is allocated for 2³² bits. -/
def wide : Bitarray := ofBytes (2 ^ 32) [] sized_wide

/-- **No bit of it can be dumped.** -/
theorem wide_outside : ¬ RoundTrip wide 0 ['.'] := fun h => absurd h.width_lt (Nat.lt_irrefl (2 ^ 32))

end Libtarp.Bitr
