import Libtarp.Strings.Hex

/-!
# Bytes to a string in hexadecimal and back (`string_utils.hxx`)

An element is widened to 64 bits before it is printed, with its sign.

* `intToHexstring_byte`, `intToHexstring_negative`: the two digits of a byte, and the sixteen of a negative number.
* `hexRoundTrips_iff`: when bytes are written with two digits each and read back.
-/

namespace Libtarp.Strings

open Lib

/-- The types of elements; whether `char` has a sign depends on the implementation. -/
inductive ElemType
  | uint8
  | unsignedChar
  | char (isSigned : Bool)
  deriving DecidableEq, Repr

/-- The value of an element that is stored as a byte. -/
def ElemType.value : ElemType → UInt8 → ℤ
  | .char true, byte => if byte.toNat < 128 then byte.toNat else byte.toNat - 256
  | _, byte => byte.toNat

/-- `int_to_hexstring`, for a type of `size` bytes. -/
def intToHexstring (size : ℕ) (i : ℤ) (ndigits : ℕ) : List Char :=
  let width := size * 2
  let ndigits := max width ndigits
  let digits := Nat.toDigits 16 (i % 2 ^ 64).toNat
  List.replicate (ndigits - digits.length) '0' ++ digits

/-- `hexstring_from_bytes`. -/
def hexstringFromBytes (T : ElemType) (bytes : List UInt8) : List Char :=
  bytes.foldl (fun s byte => s ++ intToHexstring 1 (T.value byte) (1 * 2)) []

/-- Two lower-case digits for each byte, that are read back. -/
structure HexRoundTrips (T : ElemType) (bytes : List UInt8) : Prop where
  length : (hexstringFromBytes T bytes).length = 2 * bytes.length
  lower : ∀ c ∈ hexstringFromBytes T bytes, c ∈ "0123456789abcdef".toList
  back : ∃ fuel, hexstringToBytes fuel (hexstringFromBytes T bytes) = some (.ok (bytes, ""))

variable {T : ElemType} {i : ℤ} {n : ℕ} {byte : UInt8} {bytes : List UInt8}

/-! ## One element -/

theorem digitChar_lower (hn : n < 16) : Nat.digitChar n ∈ "0123456789abcdef".toList := by
  decide +revert

/-- A byte that is not taken for a negative number. -/
theorem intToHexstring_byte (hn : n < 256) :
    intToHexstring 1 n (1 * 2) = [Nat.digitChar (n / 16), Nat.digitChar (n % 16)] := by
  have hvalue : ((n : ℤ) % 2 ^ 64).toNat = n := by omega
  unfold intToHexstring
  dsimp only
  rw [hvalue]
  by_cases hlt : n < 16
  · rw [Nat.toDigits_of_lt_base hlt, Nat.div_eq_of_lt hlt, Nat.mod_eq_of_lt hlt]
    rfl
  · rw [Nat.toDigits_of_base_le (by decide) (Nat.not_lt.1 hlt), Nat.toDigits_of_lt_base (by omega)]
    rfl

theorem length_intToHexstring (i : ℤ) : 2 ≤ (intToHexstring 1 i (1 * 2)).length := by
  unfold intToHexstring
  dsimp only
  rw [List.length_append, List.length_replicate]
  omega

/-- A negative number has more than two digits. -/
theorem intToHexstring_negative (hneg : i < 0) (hi : -2 ^ 63 ≤ i) : 2 < (intToHexstring 1 i (1 * 2)).length := by
  have hlarge : ¬(i % 2 ^ 64).toNat < 16 ^ 2 := by omega
  have hdigits : ¬(Nat.toDigits 16 (i % 2 ^ 64).toNat).length ≤ 2 :=
    mt (Nat.length_toDigits_le_iff (by decide) (by decide)).1 hlarge
  unfold intToHexstring
  dsimp only
  rw [List.length_append, List.length_replicate]
  omega

theorem value_of_small (hsmall : T = .char true → byte.toNat < 128) : T.value byte = byte.toNat := by
  unfold ElemType.value
  split
  · exact if_pos (hsmall rfl)
  · rfl

theorem value_of_large (hlarge : 128 ≤ byte.toNat) : (ElemType.char true).value byte = byte.toNat - 256 :=
  if_neg (Nat.not_lt.2 hlarge)

/-! ## All elements -/

theorem hexstringFromBytes_cons (T : ElemType) (byte : UInt8) (bytes : List UInt8) :
    hexstringFromBytes T (byte :: bytes) = intToHexstring 1 (T.value byte) (1 * 2) ++ hexstringFromBytes T bytes := by
  unfold hexstringFromBytes
  rw [List.foldl_append_eq_append, List.foldl_append_eq_append, List.map_cons, List.flatten_cons]
  rfl

theorem length_hexstringFromBytes_le (T : ElemType) (bytes : List UInt8) :
    2 * bytes.length ≤ (hexstringFromBytes T bytes).length := by
  induction bytes with
  | nil => exact Nat.le_refl 0
  | cons byte bytes ih =>
    have hone := length_intToHexstring (T.value byte)
    rw [hexstringFromBytes_cons, List.length_append, List.length_cons]
    omega

/-- A negative element makes the string too long. -/
theorem length_hexstringFromBytes_lt (hmem : byte ∈ bytes) (hlarge : 128 ≤ byte.toNat) :
    2 * bytes.length < (hexstringFromBytes (.char true) bytes).length := by
  induction bytes with
  | nil => cases hmem
  | cons first bytes ih =>
    rw [hexstringFromBytes_cons, List.length_append, List.length_cons]
    rcases List.mem_cons.1 hmem with rfl | hmem
    · have hlt := byte.toNat_lt
      have hone : 2 < (intToHexstring 1 ((ElemType.char true).value byte) (1 * 2)).length := by
        rw [value_of_large hlarge]
        exact intToHexstring_negative (by omega) (by omega)
      have hrest := length_hexstringFromBytes_le (.char true) bytes
      omega
    · have hone := length_intToHexstring ((ElemType.char true).value first)
      have hrest := ih hmem
      omega

/-- The two digits of a byte. -/
def hexPair (byte : UInt8) : Char × Char := (Nat.digitChar (byte.toNat / 16), Nat.digitChar (byte.toNat % 16))

theorem hexstringFromBytes_small (hsmall : T = .char true → ∀ b ∈ bytes, b.toNat < 128) :
    hexstringFromBytes T bytes = bytes.flatMap fun b => [(hexPair b).1, (hexPair b).2] := by
  induction bytes with
  | nil => rfl
  | cons byte bytes ih =>
    rw [hexstringFromBytes_cons, value_of_small fun hT => hsmall hT byte List.mem_cons_self,
      intToHexstring_byte byte.toNat_lt, ih fun hT b hb => hsmall hT b (List.mem_cons_of_mem _ hb), List.flatMap_cons]
    rfl

theorem pairs_flatMap (f : UInt8 → Char × Char) (bytes : List UInt8) :
    pairs (bytes.flatMap fun b => [(f b).1, (f b).2]) = bytes.map f := by
  induction bytes with
  | nil => rfl
  | cons byte bytes ih =>
    rw [List.flatMap_cons, List.map_cons, ← ih]
    rfl

theorem pairByte_hexPair (byte : UInt8) : pairByte (hexPair byte) = byte := by
  have hlt := byte.toNat_lt
  unfold pairByte hexPair
  dsimp only
  rw [digitValue_digitChar (by omega), digitValue_digitChar (by omega), Nat.div_add_mod]
  exact UInt8.ofNat_toNat

/-- The digits of bytes. -/
theorem digits_of_small (hsmall : T = .char true → ∀ b ∈ bytes, b.toNat < 128) :
    (hexstringFromBytes T bytes).length = 2 * bytes.length ∧
      ∀ c ∈ hexstringFromBytes T bytes, ∃ d < 16, c = Nat.digitChar d := by
  rw [hexstringFromBytes_small hsmall]
  clear hsmall
  induction bytes with
  | nil => exact ⟨rfl, List.forall_mem_nil _⟩
  | cons byte bytes ih =>
    have hlt := byte.toNat_lt
    rw [List.flatMap_cons, List.length_append, ih.1]
    refine ⟨by rw [List.length_cons, List.length_cons, List.length_cons, List.length_nil]; omega, fun c hc => ?_⟩
    rcases List.mem_append.1 hc with hc | hc
    · rcases List.mem_pair.1 hc with rfl | rfl
      · exact ⟨byte.toNat / 16, by omega, rfl⟩
      · exact ⟨byte.toNat % 16, by omega, rfl⟩
    · exact ih.2 c hc

/-- Digits are not stripped. -/
theorem trimmed_digits {s : List Char} (hall : ∀ c ∈ s, isDigitOf 16 c = true) : trimmed isSpace s = s := by
  refine trimmed_eq_self_iff.2 ⟨fun c hc => ?_, fun c hc => ?_⟩
  · exact (digit_ne (hall c (List.mem_of_mem_head? hc))).1
  · exact (digit_ne (hall c (List.mem_of_mem_getLast? hc))).1

/-- What is written with two digits for each byte is read back, as far as 32 bits go. -/
theorem back_iff (hsmall : T = .char true → ∀ b ∈ bytes, b.toNat < 128) :
    (∃ fuel, hexstringToBytes fuel (hexstringFromBytes T bytes) = some (.ok (bytes, ""))) ↔
      bytes.length < 2 ^ 32 ∧ Repeats bytes := by
  obtain ⟨hlength, hdigits⟩ := digits_of_small hsmall
  have hall : ∀ c ∈ hexstringFromBytes T bytes, isDigitOf 16 c = true := by
    intro c hc
    obtain ⟨d, hd, rfl⟩ := hdigits c hc
    unfold isDigitOf
    rw [digitValue_digitChar hd]
    exact decide_eq_true hd
  have htrimmed := trimmed_digits hall
  have heven : (hexstringFromBytes T bytes).length % 2 = 0 := by omega
  have hhalf : (hexstringFromBytes T bytes).length / 2 = bytes.length := by omega
  have hpairs : (pairs (hexstringFromBytes T bytes)).map pairByte = bytes := by
    rw [hexstringFromBytes_small hsmall, pairs_flatMap, List.map_map]
    exact (List.map_congr_left fun b _ => pairByte_hexPair b).trans (List.map_id bytes)
  have hbytes : hexBytes (trimmed isSpace (hexstringFromBytes T bytes)) = some bytes := by
    rw [htrimmed]
    exact (if_pos ⟨heven, List.all_eq_true.2 hall⟩).trans (congrArg some hpairs)
  have hright := right_iff_of_digits htrimmed heven hall
  rw [hhalf, hpairs] at hright
  unfold HexstringRight at hright
  rwa [hbytes] at hright

/-- **Bytes are read back** unless one of them is a negative `char`, or there are too many. -/
theorem hexRoundTrips_iff (T : ElemType) (bytes : List UInt8) : HexRoundTrips T bytes ↔
    (T = .char true → ∀ b ∈ bytes, b.toNat < 128) ∧ bytes.length < 2 ^ 32 ∧ Repeats bytes := by
  constructor
  · rintro ⟨hlength, -, hback⟩
    have hsmall : T = .char true → ∀ b ∈ bytes, b.toNat < 128 := by
      rintro rfl b hb
      by_contra hlarge
      exact (length_hexstringFromBytes_lt hb (Nat.not_lt.1 hlarge)).ne' hlength
    exact ⟨hsmall, (back_iff hsmall).1 hback⟩
  · rintro ⟨hsmall, hrepeats⟩
    obtain ⟨hlength, hdigits⟩ := digits_of_small hsmall
    refine ⟨hlength, fun c hc => ?_, (back_iff hsmall).2 hrepeats⟩
    obtain ⟨d, hd, rfl⟩ := hdigits c hc
    exact digitChar_lower hd

/-- A byte of type `char` that is negative is written with sixteen digits. -/
theorem negative_char : hexstringFromBytes (.char true) [0x80] = "ffffffffffffff80".toList ∧
    ¬HexRoundTrips (.char true) [0x80] := by
  have hsixteen : hexstringFromBytes (.char true) [0x80] = "ffffffffffffff80".toList := by decide +kernel
  refine ⟨hsixteen, fun hright => ?_⟩
  have hlength := hright.length
  rw [hsixteen] at hlength
  exact absurd hlength (by decide)

end Libtarp.Strings
