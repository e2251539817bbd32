import Libtarp.Strings.Strip

/-!
# Strings in hexadecimal (`string_utils.hxx`, `string_utils.cxx`)

`hexstring_to_bytes` hands two characters at a time to `strtoul`, which takes more than two digits, and finds them with
an index of 32 bits.

* `Tolerated`: the two characters that `strtoul` takes besides two digits. `hexstringToUint_digits`,
  `hexstringToUint_tolerated`, `hexstringToUint_other`: what it makes of two characters.
* `loop_rounds`, `loop_endless`: what the loop reads, and when there is no end of it.
* `hexstring_iff`: what is read, and what is reported.
-/

namespace Libtarp.Strings

open Lib

/-- `hexstring_to_uint`, for a type whose values go to `max`. -/
def hexstringToUint (max : ℕ) : Option (List Char) → Option ℕ × String
  | none => (none, "invalid nullptr string argument")
  | some s =>
    let res := strtoul (cStr s) 16
    if res.erange then (none, "Numerical result out of range")
    else if res.endptr ≠ [] then (none, "input not a hex number")
    else if res.value > max then (none, "result wider than T")
    else (some res.value.toNat, "")

/-- The loop of `get_n_bytes_from_hexstring`, whose index has 32 bits. -/
def getNBytesLoop (s : List Char) (nbytes : ℕ) :
    ℕ → ℕ → List UInt8 → Option (Except Exception (List UInt8 × String))
  | 0, _, _ => none
  | fuel + 1, i, bytes =>
    if i < nbytes then
      match substr s (i * 2 % 2 ^ 32) 2 with
      | .error e => some (.error e.toException)
      | .ok byteStr =>
        match hexstringToUint 255 (some byteStr) with
        | (none, err) => some (.ok ([], err))
        | (some res, _) => getNBytesLoop s nbytes fuel ((i + 1) % 2 ^ 32) (bytes ++ [UInt8.ofNat res])
    else some (.ok (bytes, ""))

/-- `get_n_bytes_from_hexstring`, for as many rounds of its loop as `fuel` says: the bytes, and the error string. -/
def getNBytesFromHexstring (fuel : ℕ) (s : List Char) (nbytes : ℕ) :
    Option (Except Exception (List UInt8 × String)) :=
  if s.length < nbytes * 2 % 2 ^ 64 then
    some (.error (.invalidArgument "Cannot parse bytes from hexstring - bad length"))
  else getNBytesLoop s nbytes fuel 0 []

/-- `hexstring_to_bytes`. -/
def hexstringToBytes (fuel : ℕ) (s : List Char) : Option (Except Exception (List UInt8 × String)) :=
  match strip s none with
  | .error e => some (.error e)
  | .ok input =>
    if input.length % 2 ≠ 0 then some (.ok ([], "bad hexstring length"))
    else
      match getNBytesFromHexstring fuel input (input.length / 2) with
      | none => none
      | some (.error e) => some (.error e)
      | some (.ok (bytes, errorString)) =>
        if bytes.length ≠ input.length / 2 then some (.ok ([], if errorString = "" then "bad parse" else errorString))
        else some (.ok (bytes, errorString))

/-! ## Two characters -/

/-- Two characters that are no two digits, and that `strtoul` makes a number of nevertheless. -/
inductive Tolerated : Char → Char → Prop
  /-- The string ends where it starts, or after a digit. -/
  | null (b : Char) : Tolerated '\x00' b
  | single {a : Char} (ha : isDigitOf 16 a = true) : Tolerated a '\x00'
  | blank {a b : Char} (ha : isSpace a = true) (hb : isDigitOf 16 b = true) : Tolerated a b
  | plus {b : Char} (hb : isDigitOf 16 b = true) : Tolerated '+' b
  | minus : Tolerated '-' '0'

variable {a b : Char} {s t : List Char} {n : ℕ}

theorem digitValue_eq_zero_iff : digitValue b = 0 ↔ b = '0' := by
  constructor
  · intro h
    have h0 : '0'.toNat = 48 := rfl
    have ha : 'a'.toNat = 97 := rfl
    have hA : 'A'.toNat = 65 := rfl
    refine Char.toNat_inj.1 ?_
    unfold digitValue at h
    split_ifs at h
    omega
  · rintro rfl
    rfl

theorem digit_ne (ha : isDigitOf 16 a = true) : isSpace a = false ∧ a ≠ '-' ∧ a ≠ '+' ∧ a ≠ '\x00' :=
  isDigitOf_ne (by decide) ha

theorem scanNumber_blank (ha : isSpace a = true) (s : List Char) : scanNumber 16 (a :: s) = scanNumber 16 s := by
  unfold scanNumber
  rw [List.dropWhile_cons_of_pos ha]

theorem scanPrefix_pair (h : s.length ≤ 2) : scanPrefix 16 s = s := by
  unfold scanPrefix
  split
  · next x d s' =>
    rw [List.length_cons, List.length_cons, List.length_cons] at h
    omega
  · rfl

/-- What two characters are to `strtoul`, where it finds a number in them. -/
theorem hexstringToUint_some {t : List Char} {m : Scanned} (ht : cStr s = t) (hscan : scanNumber 16 t = some m)
    (hvalue : m.value ≤ 255) : hexstringToUint 255 (some s) =
      if m.rest ≠ [] then (none, "input not a hex number")
      else if m.negative ∧ m.value ≠ 0 then (none, "result wider than T") else (some m.value, "") := by
  unfold hexstringToUint
  dsimp only
  rw [ht, strtoul_some hscan (by omega)]
  dsimp only
  rw [if_neg Bool.false_ne_true]
  by_cases hrest : m.rest ≠ []
  · rw [if_pos hrest, if_pos hrest]
  · rw [if_neg hrest, if_neg hrest]
    cases m.negative with
    | false =>
      rw [if_neg Bool.false_ne_true, if_neg (by omega), if_neg (by simp)]
      rfl
    | true =>
      rw [if_pos rfl]
      by_cases hzero : m.value = 0
      · rw [hzero]
        rfl
      · rw [if_pos (by omega), if_pos ⟨rfl, hzero⟩]

theorem hexstringToUint_none {t : List Char} (ht : cStr s = t) (hscan : scanNumber 16 t = none) (hne : t ≠ []) :
    hexstringToUint 255 (some s) = (none, "input not a hex number") := by
  unfold hexstringToUint
  dsimp only
  rw [ht, strtoul_none hscan]
  dsimp only
  rw [if_neg Bool.false_ne_true, if_pos hne]

theorem cStr_cons (ha : a ≠ '\x00') (s : List Char) : cStr (a :: s) = a :: cStr s :=
  List.takeWhile_cons_of_pos (decide_eq_true ha)

theorem scanDigits_single (negative : Bool) (b : Char) :
    scanDigits 16 negative [b] = if isDigitOf 16 b then some ⟨negative, digitValue b, []⟩ else none := by
  split_ifs with hb
  · have hvalue : digitsValue 16 [b] = digitValue b := Nat.zero_add _
    rw [← hvalue]
    exact scanDigits_eq (s := []) (List.forall_mem_singleton.2 hb) (List.cons_ne_nil b []) (by simp) negative
  · refine scanDigits_none ?_ negative
    rintro c ⟨⟩
    exact Bool.eq_false_iff.2 hb

theorem scanNumber_single (b : Char) :
    scanNumber 16 [b] = if isDigitOf 16 b then some ⟨false, digitValue b, []⟩ else none := by
  have hnone : ∀ c ∈ ([] : List Char), isSpace c = true := List.forall_mem_nil _
  by_cases hplain : Plain [b]
  · exact (scanNumber_eq hnone .none (fun _ => hplain) (scanPrefix_pair (Nat.le_succ 1))).trans (scanDigits_single ..)
  · -- a blank or a sign, behind which is nothing
    have hdigit : ¬isDigitOf 16 b = true := fun hb => hplain (plain_digit (by decide) hb [])
    rw [if_neg hdigit]
    by_cases hspace : isSpace b = true
    · exact scanNumber_blank hspace []
    · by_cases hminus : b = '-'
      · subst hminus
        rfl
      · by_cases hplus : b = '+'
        · subst hplus
          rfl
        · refine absurd ?_ hplain
          rintro c ⟨⟩
          exact ⟨Bool.eq_false_iff.2 hspace, hminus, hplus⟩

/-- A character that is no blank and no sign is a digit, or no number begins with it. -/
theorem scanNumber_plain (hplain : Plain [a, b]) : scanNumber 16 [a, b] = scanDigits 16 false [a, b] := by
  have hnone : ∀ c ∈ ([] : List Char), isSpace c = true := List.forall_mem_nil _
  exact scanNumber_eq hnone .none (fun _ => hplain) (scanPrefix_pair (Nat.le_refl 2))

theorem scanNumber_sign {sign : Char} {negative : Bool} (hsign : Sign [sign] negative) (b : Char) :
    scanNumber 16 [sign, b] = if isDigitOf 16 b then some ⟨negative, digitValue b, []⟩ else none := by
  have hnone : ∀ c ∈ ([] : List Char), isSpace c = true := List.forall_mem_nil _
  have hscan := scanNumber_eq (s := [b]) hnone hsign nofun (scanPrefix_pair (Nat.le_succ 1))
  exact hscan.trans (scanDigits_single ..)

theorem digitValue_lt (ha : isDigitOf 16 a = true) : digitValue a < 16 := of_decide_eq_true ha

/-- Two digits. -/
theorem hexstringToUint_digits (ha : isDigitOf 16 a = true) (hb : isDigitOf 16 b = true) :
    hexstringToUint 255 (some [a, b]) = (some (16 * digitValue a + digitValue b), "") := by
  have hda := digitValue_lt ha
  have hdb := digitValue_lt hb
  have hstr : cStr [a, b] = [a, b] := by
    rw [cStr_cons (digit_ne ha).2.2.2, cStr_cons (digit_ne hb).2.2.2]
    rfl
  have hvalue : digitsValue 16 [a, b] = 16 * digitValue a + digitValue b :=
    congrArg (16 * · + digitValue b) (Nat.zero_add _)
  have hscan : scanNumber 16 [a, b] = some ⟨false, 16 * digitValue a + digitValue b, []⟩ := by
    have hall : ∀ c ∈ [a, b], isDigitOf 16 c = true := by
      rintro c (_ | ⟨_, _ | ⟨_, ⟨⟩⟩⟩)
      · exact ha
      · exact hb
    rw [scanNumber_plain (plain_digit (by decide) ha [b]), ← hvalue]
    exact scanDigits_eq (s := []) hall (List.cons_ne_nil a [b]) (by simp) false
  rw [hexstringToUint_some hstr hscan (by dsimp only; omega)]
  rfl

/-- The other texts that are taken for a number. -/
theorem hexstringToUint_tolerated (h : Tolerated a b) : ∃ v, hexstringToUint 255 (some [a, b]) = (some v, "") := by
  have hsmall : ∀ {c : Char}, isDigitOf 16 c = true → digitValue c ≤ 255 := by
    intro c hc
    have hlt := digitValue_lt hc
    omega
  cases h with
  | null b => exact ⟨0, rfl⟩
  | single ha =>
    have hstr : cStr [a, '\x00'] = [a] := cStr_cons (digit_ne ha).2.2.2 _
    have hscan := scanNumber_single a
    rw [if_pos ha] at hscan
    exact ⟨digitValue a, hexstringToUint_some hstr hscan (hsmall ha)⟩
  | blank ha hb =>
    have hnull : a ≠ '\x00' := by
      rintro rfl
      exact absurd ha (by decide)
    have hstr : cStr [a, b] = [a, b] := by
      rw [cStr_cons hnull, cStr_cons (digit_ne hb).2.2.2]
      rfl
    have hscan := (scanNumber_blank ha [b]).trans (scanNumber_single b)
    rw [if_pos hb] at hscan
    exact ⟨digitValue b, hexstringToUint_some hstr hscan (hsmall hb)⟩
  | plus hb =>
    have hstr : cStr ['+', b] = ['+', b] := by
      rw [cStr_cons (by decide), cStr_cons (digit_ne hb).2.2.2]
      rfl
    have hscan := scanNumber_sign .plus b
    rw [if_pos hb] at hscan
    exact ⟨digitValue b, hexstringToUint_some hstr hscan (hsmall hb)⟩
  | minus => exact ⟨0, by decide +kernel⟩

/-- A digit and a character that is left over. -/
theorem hexstringToUint_left (ha : isDigitOf 16 a = true) (hb : ¬isDigitOf 16 b = true) (hend : b ≠ '\x00') :
    hexstringToUint 255 (some [a, b]) = (none, "input not a hex number") := by
  have hstr : cStr [a, b] = [a, b] := by
    rw [cStr_cons (digit_ne ha).2.2.2, cStr_cons hend]
    rfl
  have hscan : scanNumber 16 [a, b] = some ⟨false, digitsValue 16 [a], [b]⟩ := by
    rw [scanNumber_plain (plain_digit (by decide) ha [b])]
    refine scanDigits_eq (List.forall_mem_singleton.2 ha) (List.cons_ne_nil a []) ?_ false
    rintro c ⟨⟩
    exact Bool.eq_false_iff.2 hb
  have hvalue : digitsValue 16 [a] ≤ 255 := by
    have hlt := digitValue_lt ha
    have heq : digitsValue 16 [a] = digitValue a := Nat.zero_add _
    omega
  exact (hexstringToUint_some hstr hscan hvalue).trans (if_pos (List.cons_ne_nil b []))

/-- A negative number is too wide. -/
theorem hexstringToUint_minus (hb : isDigitOf 16 b = true) (hne : b ≠ '0') :
    hexstringToUint 255 (some ['-', b]) = (none, "result wider than T") := by
  have hstr : cStr ['-', b] = ['-', b] := by
    rw [cStr_cons (by decide), cStr_cons (digit_ne hb).2.2.2]
    rfl
  have hzero : digitValue b ≠ 0 := mt digitValue_eq_zero_iff.1 hne
  have hlt := digitValue_lt hb
  have hscan := (scanNumber_sign .minus b).trans (if_pos hb)
  rw [hexstringToUint_some hstr hscan (by dsimp only; omega)]
  dsimp only
  rw [if_neg (by decide), if_pos ⟨rfl, hzero⟩]

/-- Everything else is reported. -/
theorem hexstringToUint_other (hdigits : ¬(isDigitOf 16 a = true ∧ isDigitOf 16 b = true)) (hnot : ¬Tolerated a b) :
    ∃ err, err ≠ "" ∧ hexstringToUint 255 (some [a, b]) = (none, err) := by
  have hnull : a ≠ '\x00' := by
    rintro rfl
    exact hnot (.null b)
  by_cases hend : b = '\x00'
  · -- one character that is no digit
    subst hend
    have ha : ¬isDigitOf 16 a = true := fun ha => hnot (.single ha)
    have hscan := scanNumber_single a
    rw [if_neg ha] at hscan
    exact ⟨_, by decide, hexstringToUint_none (cStr_cons hnull _) hscan (List.cons_ne_nil a [])⟩
  have hstr : cStr [a, b] = [a, b] := by
    rw [cStr_cons hnull, cStr_cons hend]
    rfl
  have hnone : scanNumber 16 [a, b] = none → ∃ err, err ≠ "" ∧ hexstringToUint 255 (some [a, b]) = (none, err) :=
    fun hscan => ⟨_, by decide, hexstringToUint_none hstr hscan (List.cons_ne_nil a [b])⟩
  by_cases ha : isDigitOf 16 a = true
  · have hb : ¬isDigitOf 16 b = true := fun hb => hdigits ⟨ha, hb⟩
    exact ⟨_, by decide, hexstringToUint_left ha hb hend⟩
  -- a blank or a sign needs a digit behind it, and a minus a zero
  by_cases hspace : isSpace a = true
  · have hb : ¬isDigitOf 16 b = true := fun hb => hnot (.blank hspace hb)
    exact hnone (((scanNumber_blank hspace [b]).trans (scanNumber_single b)).trans (if_neg hb))
  by_cases hplus : a = '+'
  · subst hplus
    have hb : ¬isDigitOf 16 b = true := fun hb => hnot (.plus hb)
    exact hnone ((scanNumber_sign .plus b).trans (if_neg hb))
  by_cases hminus : a = '-'
  · subst hminus
    by_cases hb : isDigitOf 16 b = true
    · have hne : b ≠ '0' := by
        rintro rfl
        exact hnot .minus
      exact ⟨_, by decide, hexstringToUint_minus hb hne⟩
    · exact hnone ((scanNumber_sign .minus b).trans (if_neg hb))
  have hplain : Plain [a, b] := by
    rintro c ⟨⟩
    exact ⟨Bool.eq_false_iff.2 hspace, hminus, hplus⟩
  refine hnone ((scanNumber_plain hplain).trans (scanDigits_none ?_ false))
  rintro c ⟨⟩
  exact Bool.eq_false_iff.2 ha

/-! ## The loop -/

/-- The characters of a string, two at a time. -/
def pairs : List Char → List (Char × Char)
  | a :: b :: t => (a, b) :: pairs t
  | _ => []

/-- The byte of two digits. -/
def pairByte (p : Char × Char) : UInt8 := UInt8.ofNat (16 * digitValue p.1 + digitValue p.2)

def DigitPair (p : Char × Char) : Prop := isDigitOf 16 p.1 = true ∧ isDigitOf 16 p.2 = true

instance (p : Char × Char) : Decidable (DigitPair p) := inferInstanceAs (Decidable (_ ∧ _))

variable {fuel m i k : ℕ} {p : Char × Char} {v : ℕ → UInt8} {bytes : List UInt8}

theorem length_pairs (t : List Char) : (pairs t).length = t.length / 2 := by
  fun_induction pairs t with
  | case1 a b t ih =>
    rw [List.length_cons, ih, List.length_cons, List.length_cons]
    omega
  | case2 t h =>
    rcases t with _ | ⟨a, _ | ⟨b, t⟩⟩
    · rfl
    · exact (Nat.div_eq_of_lt (Nat.lt_succ_self 1)).symm
    · exact absurd rfl (h a b t)

theorem substr_pair (h : (pairs t)[k]? = some p) : substr t (k * 2) 2 = .ok [p.1, p.2] := by
  have hlt : k < t.length / 2 := by
    rw [← length_pairs]
    exact (List.getElem?_eq_some_iff.1 h).1
  rw [substr_ok (by omega)]
  congr 1
  clear hlt
  fun_induction pairs t generalizing k with
  | case1 a b t ih =>
    cases k with
    | zero =>
      obtain rfl := Option.some.inj h
      rfl
    | succ k =>
      have hdrop : (k + 1) * 2 = k * 2 + 1 + 1 := by omega
      rw [hdrop]
      exact ih h
  | case2 t h' => cases h

/-- What a round of the loop reads. -/
theorem getNBytesLoop_succ (hi : i < n) (hp : (pairs t)[i % 2 ^ 31]? = some p) (bytes : List UInt8) :
    getNBytesLoop t n (fuel + 1) i bytes =
      match hexstringToUint 255 (some [p.1, p.2]) with
      | (none, err) => some (.ok ([], err))
      | (some res, _) => getNBytesLoop t n fuel ((i + 1) % 2 ^ 32) (bytes ++ [UInt8.ofNat res]) := by
  have hindex : i * 2 % 2 ^ 32 = i % 2 ^ 31 * 2 := by omega
  rw [getNBytesLoop, if_pos hi, hindex, substr_pair hp]

/-- That the index `j` is read, as the byte `v j`. -/
def Reads (t : List Char) (j : ℕ) (byte : UInt8) : Prop :=
  ∃ p res, (pairs t)[j % 2 ^ 31]? = some p ∧ hexstringToUint 255 (some [p.1, p.2]) = (some res, "") ∧ byte = UInt8.ofNat res

/-- Rounds that all read a byte. -/
theorem loop_rounds (hm : m ≤ n) (hn : m < 2 ^ 32) (hreads : ∀ j < m, Reads t j (v j)) (fuel : ℕ) :
    getNBytesLoop t n (fuel + m) 0 [] = getNBytesLoop t n fuel m ((List.range m).map v) := by
  induction m generalizing fuel with
  | zero => rfl
  | succ m ih =>
    obtain ⟨p, res, hp, hres, hv⟩ := hreads m (Nat.lt_succ_self m)
    have hfuel : fuel + (m + 1) = fuel + 1 + m := by omega
    rw [hfuel, ih (by omega) (by omega) fun j hj => hreads j (by omega), getNBytesLoop_succ (by omega) hp, hres]
    dsimp only
    rw [Nat.mod_eq_of_lt hn, List.range_succ, List.map_append, ← hv]
    rfl

/-- The loop ends when its index is the number of bytes. -/
theorem loop_all (hn : n < 2 ^ 32) (hreads : ∀ j < n, Reads t j (v j)) :
    getNBytesLoop t n (n + 1) 0 [] = some (.ok ((List.range n).map v, "")) := by
  rw [Nat.add_comm, loop_rounds (Nat.le_refl n) hn hreads, getNBytesLoop, if_neg (Nat.lt_irrefl n)]

/-- An index of 32 bits does not get there. -/
theorem loop_endless (hn : 2 ^ 32 ≤ n) (hreads : ∀ j < 2 ^ 31, Reads t j (v j)) (hi : i < 2 ^ 32) :
    getNBytesLoop t n fuel i bytes = none := by
  induction fuel generalizing i bytes with
  | zero => rfl
  | succ fuel ih =>
    obtain ⟨p, res, hp, hres, -⟩ := hreads (i % 2 ^ 31) (Nat.mod_lt i (by decide))
    rw [Nat.mod_mod] at hp
    rw [getNBytesLoop_succ (by omega) hp, hres]
    exact ih (Nat.mod_lt _ (by decide))

/-- Once the loop returns, it returns the same with more rounds. -/
theorem loop_mono {r : Except Exception (List UInt8 × String)} (h : getNBytesLoop t n fuel i bytes = some r) (more : ℕ) :
    getNBytesLoop t n (fuel + more) i bytes = some r := by
  induction fuel generalizing i bytes with
  | zero => cases h
  | succ fuel ih =>
    have hfuel : fuel + 1 + more = fuel + more + 1 := by omega
    rw [getNBytesLoop] at h
    rw [hfuel, getNBytesLoop]
    split_ifs at h ⊢ with hi
    · split at h
      · exact h
      · split at h
        · exact h
        · exact ih h
    · exact h

/-! ## The bytes of a hexstring -/

/-- The bytes that a stripped string stands for. -/
def hexBytes (t : List Char) : Option (List UInt8) :=
  if t.length % 2 = 0 ∧ t.all (isDigitOf 16) then some ((pairs t).map pairByte) else none

/-- A hexstring is read, and every other string is reported. -/
def HexstringRight (s : List Char) : Prop :=
  match hexBytes (trimmed isSpace s) with
  | some bytes => ∃ fuel, hexstringToBytes fuel s = some (.ok (bytes, ""))
  | none => ∃ fuel bytes err, err ≠ "" ∧ hexstringToBytes fuel s = some (.ok (bytes, err))

/-- Bytes that repeat after 2^31 of them. -/
def Repeats (bytes : List UInt8) : Prop := ∀ k, k + 2 ^ 31 < bytes.length → bytes[k + 2 ^ 31]? = bytes[k]?

/-- Two characters that are reported, among the first 2^31 pairs. -/
def Reported (t : List Char) (k : ℕ) : Prop :=
  k < 2 ^ 31 ∧ ∃ p, (pairs t)[k]? = some p ∧ ¬DigitPair p ∧ ¬Tolerated p.1 p.2

/-- The stripped strings that `hexstring_to_bytes` is right about. -/
inductive Readable (t : List Char) : Prop
  | odd (h : t.length % 2 = 1)
  | reported {k : ℕ} (h : Reported t k)
  | digits (hall : ∀ c ∈ t, isDigitOf 16 c = true) (hn : t.length / 2 < 2 ^ 32) (hrepeats : Repeats ((pairs t).map pairByte))

theorem digits_iff_pairs (heven : t.length % 2 = 0) :
    (∀ c ∈ t, isDigitOf 16 c = true) ↔ ∀ p ∈ pairs t, DigitPair p := by
  fun_induction pairs t with
  | case1 a b t ih =>
    rw [List.length_cons, List.length_cons] at heven
    rw [List.forall_mem_cons, List.forall_mem_cons, List.forall_mem_cons, ih (by omega), ← and_assoc]
    rfl
  | case2 t h =>
    rcases t with _ | ⟨a, _ | ⟨b, t⟩⟩
    · exact iff_of_true (List.forall_mem_nil _) (List.forall_mem_nil _)
    · rw [List.length_singleton] at heven
      cases heven
    · exact absurd rfl (h a b t)

theorem Reads.byte_eq {byte : UInt8} (h : Reads t k byte) (hp : (pairs t)[k % 2 ^ 31]? = some p) (hdigits : DigitPair p) :
    byte = pairByte p := by
  obtain ⟨p', res, hp', hres, rfl⟩ := h
  obtain rfl := Option.some.inj (hp.symm.trans hp')
  rw [hexstringToUint_digits hdigits.1 hdigits.2] at hres
  rw [← Option.some.inj (Prod.mk.inj hres).1]
  rfl

theorem reads_of_accepted (hp : (pairs t)[k % 2 ^ 31]? = some p) (hok : DigitPair p ∨ Tolerated p.1 p.2) :
    ∃ byte, Reads t k byte := by
  rcases hok with hdigits | htolerated
  · exact ⟨_, p, _, hp, hexstringToUint_digits hdigits.1 hdigits.2, rfl⟩
  · obtain ⟨v, hv⟩ := hexstringToUint_tolerated htolerated
    exact ⟨_, p, v, hp, hv, rfl⟩

/-- What is read is the bytes of the first 2^31 pairs, and then of the same pairs again. -/
theorem range_map_eq_iff (hn : bytes.length < 2 ^ 32) (hv : ∀ j < bytes.length, bytes[j % 2 ^ 31]? = some (v j)) :
    (List.range bytes.length).map v = bytes ↔ Repeats bytes := by
  have hget : ∀ j < bytes.length, ((List.range bytes.length).map v)[j]? = bytes[j % 2 ^ 31]? := by
    intro j hj
    rw [List.getElem?_map, List.getElem?_range hj, hv j hj]
    rfl
  constructor
  · intro heq k hk
    have hmod : (k + 2 ^ 31) % 2 ^ 31 = k := by omega
    have hagain := hget _ hk
    rwa [heq, hmod] at hagain
  · intro hrepeats
    refine List.ext_getElem? fun j => ?_
    by_cases hj : j < bytes.length
    · rw [hget j hj]
      by_cases hlt : j < 2 ^ 31
      · rw [Nat.mod_eq_of_lt hlt]
      · obtain ⟨k, rfl⟩ : ∃ k, j = k + 2 ^ 31 := ⟨j - 2 ^ 31, by omega⟩
        have hmod : (k + 2 ^ 31) % 2 ^ 31 = k := by omega
        rw [hmod, hrepeats k hj]
    · have hlength : ((List.range bytes.length).map v).length = bytes.length := by
        rw [List.length_map, List.length_range]
      rw [List.getElem?_eq_none (Nat.not_lt.1 hj), List.getElem?_eq_none (by omega)]

/-- `hexstring_to_bytes`, by the stripped string. -/
theorem hexstringToBytes_eq (fuel : ℕ) (s : List Char) (ht : trimmed isSpace s = t) : hexstringToBytes fuel s =
    if t.length % 2 ≠ 0 then some (.ok ([], "bad hexstring length"))
    else (getNBytesLoop t (t.length / 2) fuel 0 []).map fun r => r.map fun (bytes, err) =>
      if bytes.length ≠ t.length / 2 then ([], if err = "" then "bad parse" else err) else (bytes, err) := by
  have hstrips : strips none = isSpace := rfl
  have hlong : ¬t.length < t.length / 2 * 2 % 2 ^ 64 := by omega
  unfold hexstringToBytes getNBytesFromHexstring
  rw [strip_eq, hstrips, ht]
  dsimp only
  rw [if_neg hlong]
  split_ifs with hodd
  · rfl
  · cases getNBytesLoop t (t.length / 2) fuel 0 [] with
    | none => rfl
    | some r =>
      cases r with
      | error e => rfl
      | ok r =>
        obtain ⟨bytes, err⟩ := r
        dsimp only [Option.map, Except.map]
        split_ifs <;> rfl

/-- It returns at most one thing. -/
theorem hexstringToBytes_unique {fuel' : ℕ} {r r' : Except Exception (List UInt8 × String)}
    (h : hexstringToBytes fuel s = some r) (h' : hexstringToBytes fuel' s = some r') : r = r' := by
  rw [hexstringToBytes_eq _ _ rfl] at h h'
  split_ifs at h h' with hodd
  · exact Option.some.inj (h.symm.trans h')
  · obtain ⟨q, hq, rfl⟩ := Option.map_eq_some_iff.1 h
    obtain ⟨q', hq', rfl⟩ := Option.map_eq_some_iff.1 h'
    have hmore := loop_mono hq fuel'
    rw [Nat.add_comm, loop_mono hq' fuel] at hmore
    rw [Option.some.inj hmore]

theorem hexBytes_eq_none (heven : t.length % 2 = 0) (hp : p ∈ pairs t) (hdigits : ¬DigitPair p) : hexBytes t = none := by
  unfold hexBytes
  refine if_neg fun hall => hdigits ?_
  exact (digits_iff_pairs heven).1 (List.all_eq_true.1 hall.2) p hp

theorem right_of_none {err : String} (hnone : hexBytes (trimmed isSpace s) = none) (herr : err ≠ "")
    (h : hexstringToBytes fuel s = some (.ok (bytes, err))) : HexstringRight s := by
  unfold HexstringRight
  rw [hnone]
  exact ⟨fuel, bytes, err, herr, h⟩

theorem right_of_odd (hodd : (trimmed isSpace s).length % 2 = 1) : HexstringRight s := by
  have hnone : hexBytes (trimmed isSpace s) = none := by
    unfold hexBytes
    exact if_neg fun hall => by omega
  refine right_of_none hnone (by decide) (?_ : hexstringToBytes 0 s = some (.ok ([], "bad hexstring length")))
  rw [hexstringToBytes_eq _ _ rfl, if_pos (by omega)]

/-- What is not reported is read. -/
theorem exists_reads (hlen : ∀ j < m, j % 2 ^ 31 < (pairs t).length) (hnot : ∀ j < m, ¬Reported t (j % 2 ^ 31)) :
    ∃ v : ℕ → UInt8, ∀ j < m, Reads t j (v j) := by
  have hread : ∀ j, ∃ byte, j < m → Reads t j byte := by
    intro j
    by_cases hj : j < m
    · obtain ⟨p, hp⟩ : ∃ p, (pairs t)[j % 2 ^ 31]? = some p := ⟨_, List.getElem?_eq_getElem (hlen j hj)⟩
      have hok : DigitPair p ∨ Tolerated p.1 p.2 := by
        by_contra hneither
        exact hnot j hj ⟨Nat.mod_lt j (by decide), p, hp, not_or.1 hneither⟩
      obtain ⟨byte, hbyte⟩ := reads_of_accepted hp hok
      exact ⟨byte, fun _ => hbyte⟩
    · exact ⟨0, fun h => absurd h hj⟩
  choose v hv using hread
  exact ⟨v, hv⟩

/-- Two characters that are reported, behind others that are not. -/
theorem right_of_reported (ht : trimmed isSpace s = t) (heven : t.length % 2 = 0) (hk : Reported t k)
    (hfirst : ∀ j < k, ¬Reported t j) : HexstringRight s := by
  obtain ⟨hk, p, hp, hdigits, hnot⟩ := hk
  obtain ⟨err, herr, hres⟩ := hexstringToUint_other hdigits hnot
  have hlen : k < (pairs t).length := (List.getElem?_eq_some_iff.1 hp).1
  have hlt : k < t.length / 2 := length_pairs t ▸ hlen
  have hmod : ∀ {j}, j ≤ k → j % 2 ^ 31 = j := fun hj => Nat.mod_eq_of_lt (hj.trans_lt hk)
  obtain ⟨v, hreads⟩ : ∃ v : ℕ → UInt8, ∀ j < k, Reads t j (v j) := by
    refine exists_reads (fun j hj => (Nat.mod_le ..).trans_lt (hj.trans hlen)) fun j hj => ?_
    rw [hmod hj.le]
    exact hfirst j hj
  have hloop : getNBytesLoop t (t.length / 2) (1 + k) 0 [] = some (.ok ([], err)) := by
    rw [loop_rounds (by omega) (by omega) hreads, getNBytesLoop_succ hlt (by rw [hmod (Nat.le_refl k), hp]), hres]
  have hnone : hexBytes (trimmed isSpace s) = none := by
    rw [ht]
    exact hexBytes_eq_none heven (List.mem_of_getElem? hp) hdigits
  refine right_of_none hnone herr (?_ : hexstringToBytes (1 + k) s = some (.ok ([], err)))
  rw [hexstringToBytes_eq _ _ ht, if_neg (by omega), hloop]
  dsimp only [Option.map, Except.map]
  rw [if_pos (by rw [List.length_nil]; omega), if_neg herr]

/-- Fewer than 2^32 pairs that are all read. -/
theorem hexstringToBytes_reads (ht : trimmed isSpace s = t) (heven : t.length % 2 = 0) (hn : t.length / 2 < 2 ^ 32)
    (hreads : ∀ j < t.length / 2, Reads t j (v j)) :
    hexstringToBytes (t.length / 2 + 1) s = some (.ok ((List.range (t.length / 2)).map v, "")) := by
  have hlength : ((List.range (t.length / 2)).map v).length = t.length / 2 := by
    rw [List.length_map, List.length_range]
  rw [hexstringToBytes_eq _ _ ht, if_neg (by omega), loop_all hn hreads]
  dsimp only [Option.map, Except.map]
  rw [hlength, if_neg (not_not_intro rfl)]

theorem not_right_of_endless (ht : trimmed isSpace s = t) (heven : t.length % 2 = 0) (hn : 2 ^ 32 ≤ t.length / 2)
    (hreads : ∀ j < 2 ^ 31, Reads t j (v j)) : ¬HexstringRight s := by
  have hendless : ∀ fuel, hexstringToBytes fuel s = none := by
    intro fuel
    rw [hexstringToBytes_eq _ _ ht, if_neg (by omega), loop_endless hn hreads (by decide)]
    rfl
  unfold HexstringRight
  split
  · rintro ⟨fuel, h⟩
    cases (hendless fuel).symm.trans h
  · rintro ⟨fuel, bytes, err, -, h⟩
    cases (hendless fuel).symm.trans h

/-- Bytes are returned for a string that is none of bytes. -/
theorem not_right_of_misread (hnone : hexBytes (trimmed isSpace s) = none)
    (h : hexstringToBytes fuel s = some (.ok (bytes, ""))) : ¬HexstringRight s := by
  unfold HexstringRight
  rw [hnone]
  rintro ⟨fuel', bytes', err, herr, h'⟩
  exact herr (Prod.mk.inj (Except.ok.inj (hexstringToBytes_unique h' h))).2

/-- Fewer than 2^32 pairs of digits. -/
theorem right_iff_repeats (ht : trimmed isSpace s = t) (heven : t.length % 2 = 0) (hn : t.length / 2 < 2 ^ 32)
    (hreads : ∀ j < t.length / 2, Reads t j (v j)) (hall : ∀ c ∈ t, isDigitOf 16 c = true) :
    HexstringRight s ↔ Repeats ((pairs t).map pairByte) := by
  have hlength : ((pairs t).map pairByte).length = t.length / 2 := by
    rw [List.length_map, length_pairs]
  have hsome : hexBytes (trimmed isSpace s) = some ((pairs t).map pairByte) := by
    rw [ht]
    exact if_pos ⟨heven, List.all_eq_true.2 hall⟩
  have hv : ∀ j < t.length / 2, ((pairs t).map pairByte)[j % 2 ^ 31]? = some (v j) := by
    intro j hj
    have hlt : j % 2 ^ 31 < (pairs t).length := by
      rw [length_pairs]
      exact (Nat.mod_le ..).trans_lt hj
    have hp := List.getElem?_eq_getElem hlt
    rw [List.getElem?_map, hp, (hreads j hj).byte_eq hp ((digits_iff_pairs heven).1 hall _ (List.getElem_mem hlt))]
    rfl
  have hrange := range_map_eq_iff (v := v) (hlength.trans_lt hn) fun j hj => hv j (hlength ▸ hj)
  rw [hlength] at hrange
  have hreturn := hexstringToBytes_reads ht heven hn hreads
  unfold HexstringRight
  rw [hsome, ← hrange]
  constructor
  · rintro ⟨fuel, hfuel⟩
    exact (Prod.mk.inj (Except.ok.inj (hexstringToBytes_unique hreturn hfuel))).1
  · intro heq
    exact ⟨_, heq ▸ hreturn⟩

/-- Where nothing is reported, fewer than 2^32 pairs are read, and of more there is no end. -/
theorem unreported_cases (hnot : ¬∃ k, Reported t k) :
    (t.length / 2 < 2 ^ 32 ∧ ∃ v : ℕ → UInt8, ∀ j < t.length / 2, Reads t j (v j)) ∨
      2 ^ 32 ≤ t.length / 2 ∧ ∃ v : ℕ → UInt8, ∀ j < 2 ^ 31, Reads t j (v j) := by
  have hnot' : ∀ j, ¬Reported t (j % 2 ^ 31) := fun j h => hnot ⟨_, h⟩
  by_cases hn : t.length / 2 < 2 ^ 32
  · refine .inl ⟨hn, exists_reads (fun j hj => ?_) fun j _ => hnot' j⟩
    rw [length_pairs]
    exact (Nat.mod_le ..).trans_lt hj
  · refine .inr ⟨Nat.not_lt.1 hn, exists_reads (fun j hj => ?_) fun j _ => hnot' j⟩
    rw [length_pairs, Nat.mod_eq_of_lt hj]
    omega

theorem not_reported_of_digits (heven : t.length % 2 = 0) (hall : ∀ c ∈ t, isDigitOf 16 c = true) : ¬∃ k, Reported t k := by
  rintro ⟨k, -, p, hp, hdigits, -⟩
  exact hdigits ((digits_iff_pairs heven).1 hall p (List.mem_of_getElem? hp))

/-- Digits only. -/
theorem right_iff_of_digits (ht : trimmed isSpace s = t) (heven : t.length % 2 = 0)
    (hall : ∀ c ∈ t, isDigitOf 16 c = true) :
    HexstringRight s ↔ t.length / 2 < 2 ^ 32 ∧ Repeats ((pairs t).map pairByte) := by
  rcases unreported_cases (not_reported_of_digits heven hall) with ⟨hn, v, hreads⟩ | ⟨hn, v, hreads⟩
  · rw [right_iff_repeats ht heven hn hreads hall]
    exact ⟨fun hrepeats => ⟨hn, hrepeats⟩, fun h => h.2⟩
  · exact iff_of_false (not_right_of_endless ht heven hn hreads) fun h => Nat.not_lt.2 hn h.1

/-- Characters that are no digits, and none of them reported. -/
theorem not_right_of_unreported (ht : trimmed isSpace s = t) (heven : t.length % 2 = 0)
    (hall : ¬∀ c ∈ t, isDigitOf 16 c = true) (hnot : ¬∃ k, Reported t k) : ¬HexstringRight s := by
  rcases unreported_cases hnot with ⟨hn, v, hreads⟩ | ⟨hn, v, hreads⟩
  · refine not_right_of_misread ?_ (hexstringToBytes_reads ht heven hn hreads)
    rw [ht]
    exact if_neg fun h => hall (List.all_eq_true.1 h.2)
  · exact not_right_of_endless ht heven hn hreads

/-- **What `hexstring_to_bytes` is right about.** -/
theorem hexstring_iff (s : List Char) : HexstringRight s ↔ Readable (trimmed isSpace s) := by
  obtain ⟨t, ht⟩ : ∃ t, trimmed isSpace s = t := ⟨_, rfl⟩
  rw [ht]
  by_cases hodd : t.length % 2 = 1
  · exact iff_of_true (right_of_odd (ht ▸ hodd)) (.odd hodd)
  have heven : t.length % 2 = 0 := by omega
  by_cases hreported : ∃ k, Reported t k
  · -- the first of those that are reported
    classical
    have hfirst := Nat.find_spec hreported
    exact iff_of_true (right_of_reported ht heven hfirst fun j hj => Nat.find_min hreported hj) (.reported hfirst)
  by_cases hall : ∀ c ∈ t, isDigitOf 16 c = true
  · rw [right_iff_of_digits ht heven hall]
    constructor
    · rintro ⟨hn, hrepeats⟩
      exact .digits hall hn hrepeats
    · rintro (hodd' | hreported' | ⟨-, hn, hrepeats⟩)
      · exact absurd hodd' hodd
      · exact absurd ⟨_, hreported'⟩ hreported
      · exact ⟨hn, hrepeats⟩
  · refine iff_of_false (not_right_of_unreported ht heven hall hreported) ?_
    rintro (hodd' | hreported' | ⟨hall', -, -⟩)
    · exact hodd hodd'
    · exact hreported ⟨_, hreported'⟩
    · exact hall hall'

/-- A sign in the place of a digit. -/
theorem sign_taken : hexstringToBytes 2 "+5".toList = some (.ok ([5], "")) ∧ ¬HexstringRight "+5".toList := by
  have htaken : hexstringToBytes 2 "+5".toList = some (.ok ([5], "")) := by decide +kernel
  have ht : trimmed isSpace "+5".toList = ['+', '5'] := by decide +kernel
  have hnone : hexBytes (trimmed isSpace "+5".toList) = none := by
    rw [ht]
    exact hexBytes_eq_none (p := ('+', '5')) rfl List.mem_cons_self (by decide)
  exact ⟨htaken, not_right_of_misread hnone htaken⟩

end Libtarp.Strings
