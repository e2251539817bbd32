import Libtarp.Bits
import Mathlib.Data.List.Basic

/-!
# Numbers and bytes as strings (`bits.c`)

Both functions compute a size before they write. `bitstr` allocates the size of that size, which is 8 bytes; `hexstr`
counts one separator too many and then takes one off, also where there is no byte.

* `TextFault.outside`: what stops a write past the end of a string. `TextFault.source`: a read past the end of the source.
* `hexstr_eq`: what is formatted where there is room.
* `strings_iff`: when the strings are right.
-/

namespace Libtarp.Bits

/-- What stops `bitstr` and `hexstr`. -/
inductive TextFault
  | outside
  | source
  deriving DecidableEq, Repr

/-- `'\0'`. -/
def nul : Char := '\x00'

/-- A string of the language: it has no terminator inside, and with its terminator it fits into an object. -/
structure CText where
  chars : List Char
  terminated : nul ∉ chars
  length_lt : chars.length + 1 < 2 ^ 63

/-! ## The functions of the source -/

/-- `*buff++ = c`: the memory, and where `buff` points. -/
def putNext (s : List Char) (buff : ℕ) (c : Char) : Except TextFault (List Char × ℕ) :=
  if buff < s.length then .ok (s.set buff c, buff + 1) else .error .outside

/-- The loop for the padding. -/
def padZeros : ℕ → List Char × ℕ → Except TextFault (List Char × ℕ)
  | 0, s => .ok s
  | padding + 1, s => do padZeros padding (← putNext s.1 s.2 '0')

/-- The loop for the bits, from position `pos` down. -/
def putBits (val : ℕ) : ℕ → List Char × ℕ → Except TextFault (List Char × ℕ)
  | 0, s => .ok s
  | pos + 1, s => do putBits val pos (← putNext s.1 s.2 (if 1 &&& (val >>> pos) ≠ 0 then '1' else '0'))

/-- `bitstr`: the memory that is allocated. -/
def bitstr (val width : ℕ) : Except TextFault (List Char) := do
  let msbPos := posmsb val
  -- `salloc(sizeof(strsz), NULL)`: the size of a `size_t`
  let s := List.replicate 8 nul
  let padding := if width > msbPos then Int.bmod (width - msbPos : ℕ) (2 ^ 32) else 0
  let s ← padZeros padding.toNat (s, 0)
  let pos := if msbPos ≤ width then msbPos else width
  let (s, _) ← putBits val pos s
  return s

/-- `%02x`. -/
def hexByte (byte : UInt8) : List Char := [Nat.digitChar (byte.toNat / 16), Nat.digitChar (byte.toNat % 16)]

/-- `sprintf(dst + d, …)`: the text and a terminator. -/
def sprintf (dst : List Char) (d : ℕ) (text : List Char) : Except TextFault (List Char) :=
  if d + text.length + 1 ≤ dst.length then
    .ok (dst.take d ++ text ++ nul :: dst.drop (d + text.length + 1))
  else .error .outside

/-- The loop of `hexstr`. -/
def hexstrLoop (sep pref : List Char) (stepsz : ℕ) : List UInt8 → ℕ → List Char → Except TextFault (List Char)
  | [], _, dst => .ok dst
  | byte :: src, d, dst => do
    let dst ← sprintf dst d (sep ++ pref ++ hexByte byte)
    hexstrLoop sep pref stepsz src (d + stepsz) dst

/-- `hexstr` with its defaults filled in: what is returned, and the destination. -/
def hexstrWith (dst : List Char) (src : List UInt8) (sep pref : List Char) : Except TextFault (ℤ × List Char) :=
  let stepsz := (sep.length + pref.length + 2) % 2 ^ 64
  let totlen := (src.length * stepsz + 1 + (2 ^ 64 - sep.length)) % 2 ^ 64
  if dst.length < totlen then .ok (-1, dst)
  else
    let dst := List.replicate dst.length nul
    match src with
    | [] => .error .source
    | byte :: src => do
      let dst ← sprintf dst 0 (pref ++ hexByte byte)
      let dst ← hexstrLoop sep pref stepsz src (stepsz - sep.length) dst
      return (0, dst)

/-- `hexstr`. -/
def hexstr (dst : List Char) (src : List UInt8) (delim pref : Option (List Char)) :
    Except TextFault (ℤ × List Char) :=
  hexstrWith dst src (delim.getD []) (pref.getD [])

/-! ## What they should do -/

/-- The lowest bits of a number, the most significant first. -/
def lowBits (val width : ℕ) : List Char := (List.range width).map fun i => if val.testBit (width - 1 - i) then '1' else '0'

/-- The bytes in hexadecimal, each with the prefix, and the separator between them. -/
def formatted (sep pref : List Char) : List UInt8 → List Char
  | [] => []
  | byte :: src => pref ++ hexByte byte ++ src.flatMap fun b => sep ++ pref ++ hexByte b

/-- That `bitstr` returns the lowest bits, with a terminator. -/
def BitstrRight (val width : ℕ) : Prop := ∃ rest, bitstr val width = .ok (lowBits val width ++ nul :: rest)

/-- That `hexstr` refuses a destination that is too short, and formats into all others. -/
def HexstrRight (dst : List Char) (src : List UInt8) (delim pref : Option (List Char)) : Prop :=
  if dst.length < (formatted (delim.getD []) (pref.getD []) src).length + 1 then
    hexstr dst src delim pref = .ok (-1, dst)
  else ∃ rest, hexstr dst src delim pref = .ok (0, formatted (delim.getD []) (pref.getD []) src ++ nul :: rest)

/-! ## `bitstr` -/

variable {text : List Char} {n val width : ℕ}

/-- Memory of `n` bytes with a text at its front, and a pointer after the text. -/
def withText (n : ℕ) (text : List Char) : List Char × ℕ := (text ++ List.replicate (n - text.length) nul, text.length)

theorem putNext_withText (h : text.length < n) (c : Char) :
    putNext (withText n text).1 (withText n text).2 c = .ok (withText n (text ++ [c])) := by
  obtain ⟨k, hk⟩ : ∃ k, n - text.length = k + 1 := ⟨n - text.length - 1, by omega⟩
  unfold putNext withText
  dsimp only
  rw [if_pos (by rw [List.length_append, List.length_replicate]; omega), List.set_append_right _ _ (Nat.le_refl _), hk,
    Nat.sub_self, List.length_append, List.length_singleton, show n - (text.length + 1) = k by omega, List.append_assoc]
  rfl

theorem padZeros_eq {padding : ℕ} (h : text.length + padding ≤ n) :
    padZeros padding (withText n text) = .ok (withText n (text ++ List.replicate padding '0')) := by
  induction padding generalizing text with
  | zero => rw [List.replicate_zero, List.append_nil]; rfl
  | succ padding ih =>
    rw [padZeros, putNext_withText (by omega)]
    refine (ih (by rw [List.length_append, List.length_singleton]; omega)).trans ?_
    rw [List.append_assoc, List.singleton_append, ← List.replicate_succ]

theorem lowBits_succ (val pos : ℕ) :
    lowBits val (pos + 1) = (if val.testBit pos then '1' else '0') :: lowBits val pos := by
  unfold lowBits
  rw [List.range_succ_eq_map, List.map_cons, List.map_map]
  congr 1
  refine List.map_congr_left (fun i _ => ?_)
  rw [Function.comp_apply, show pos + 1 - 1 - Nat.succ i = pos - 1 - i by omega]

theorem putBits_eq {pos : ℕ} (h : text.length + pos ≤ n) :
    putBits val pos (withText n text) = .ok (withText n (text ++ lowBits val pos)) := by
  induction pos generalizing text with
  | zero => exact congrArg (fun t => Except.ok (withText n t)) (List.append_nil text).symm
  | succ pos ih =>
    have hbit : (1 &&& (val >>> pos) ≠ 0) ↔ val.testBit pos = true := bne_iff_ne.symm
    rw [putBits, putNext_withText (by omega)]
    refine (ih (by rw [List.length_append, List.length_singleton]; omega)).trans ?_
    rw [lowBits_succ, List.append_assoc, List.singleton_append]
    simp only [hbit]

/-- Above the highest bit there are only zeros. -/
theorem lowBits_pad {msb padding : ℕ} (h : val < 2 ^ msb) :
    lowBits val (msb + padding) = List.replicate padding '0' ++ lowBits val msb := by
  induction padding with
  | zero => rfl
  | succ padding ih =>
    have hbit : val.testBit (msb + padding) = false :=
      Nat.testBit_lt_two_pow (Nat.lt_of_lt_of_le h (Nat.pow_le_pow_right (by decide) (by omega)))
    rw [← Nat.add_assoc, lowBits_succ, hbit, ih, List.replicate_succ]
    rfl

theorem lt_two_pow_posmsb (val : ℕ) : val < 2 ^ posmsb val := by
  rcases Nat.eq_zero_or_pos val with rfl | hpos
  · exact Nat.two_pow_pos _
  · rw [posmsb_eq hpos]
    exact Nat.lt_log2_self

theorem putNext_length {s : List Char} {buff : ℕ} {c : Char} {r : List Char × ℕ} (h : putNext s buff c = .ok r) :
    r.1.length = s.length := by
  unfold putNext at h
  split_ifs at h
  obtain rfl := Except.ok.inj h
  exact List.length_set

theorem padZeros_length {padding : ℕ} {s r : List Char × ℕ} (h : padZeros padding s = .ok r) :
    r.1.length = s.1.length := by
  induction padding generalizing s with
  | zero => rw [Except.ok.inj h]
  | succ padding ih =>
    rw [padZeros] at h
    cases hput : putNext s.1 s.2 '0' with
    | error e =>
      rw [hput] at h
      cases h
    | ok t =>
      rw [hput] at h
      exact (ih h).trans (putNext_length hput)

theorem putBits_length {pos : ℕ} {s r : List Char × ℕ} (h : putBits val pos s = .ok r) : r.1.length = s.1.length := by
  induction pos generalizing s with
  | zero => rw [Except.ok.inj h]
  | succ pos ih =>
    rw [putBits] at h
    cases hput : putNext s.1 s.2 (if 1 &&& (val >>> pos) ≠ 0 then '1' else '0') with
    | error e =>
      rw [hput] at h
      cases h
    | ok t =>
      rw [hput] at h
      exact (ih h).trans (putNext_length hput)

/-- The memory has 8 bytes. -/
theorem bitstr_length {mem : List Char} (h : bitstr val width = .ok mem) : mem.length = 8 := by
  unfold bitstr at h
  dsimp only at h
  cases hpad : padZeros (if width > posmsb val then Int.bmod (width - posmsb val : ℕ) (2 ^ 32) else 0).toNat
      (List.replicate 8 nul, 0) with
  | error e =>
    rw [hpad] at h
    cases h
  | ok t =>
    rw [hpad] at h
    cases hbits : putBits val (if posmsb val ≤ width then posmsb val else width) t with
    | error e =>
      change (putBits val _ t >>= fun r => Except.ok r.1) = _ at h
      rw [hbits] at h
      cases h
    | ok r =>
      change (putBits val _ t >>= fun r => Except.ok r.1) = _ at h
      rw [hbits] at h
      obtain rfl := Except.ok.inj h
      rw [putBits_length hbits, padZeros_length hpad]
      rfl

/-- `bitstr` is right where the string and its terminator fit into 8 bytes. -/
theorem bitstrRight_iff (val width : ℕ) : BitstrRight val width ↔ width ≤ 7 := by
  constructor
  · rintro ⟨rest, h⟩
    have hlength := bitstr_length h
    rw [List.length_append, List.length_cons, lowBits, List.length_map, List.length_range] at hlength
    omega
  · intro hwidth
    obtain ⟨padding, hpadding⟩ : ∃ padding, padding = width - posmsb val := ⟨_, rfl⟩
    have hpad : (if width > posmsb val then Int.bmod (width - posmsb val : ℕ) (2 ^ 32) else 0).toNat = padding := by
      split_ifs with h
      · rw [Int.bmod_eq_of_le_mul_two (by push_cast; omega) (by push_cast; omega)]
        omega
      · rw [hpadding]
        omega
    obtain ⟨pos, hpos⟩ : ∃ pos, pos = if posmsb val ≤ width then posmsb val else width := ⟨_, rfl⟩
    have hsum : pos + padding = width := by split_ifs at hpos <;> omega
    have htext : lowBits val width = List.replicate padding '0' ++ lowBits val pos := by
      rcases Nat.eq_zero_or_pos padding with h | h
      · rw [← hsum, h]
        rfl
      · rw [← hsum]
        refine lowBits_pad ?_
        rw [show pos = posmsb val by split_ifs at hpos <;> omega]
        exact lt_two_pow_posmsb val
    have hlength : (lowBits val width).length = width := by rw [lowBits, List.length_map, List.length_range]
    refine ⟨List.replicate (7 - width) nul, ?_⟩
    have hstart : (List.replicate 8 nul, 0) = withText 8 [] := rfl
    have hrun : bitstr val width = .ok (withText 8 (lowBits val width)).1 := by
      unfold bitstr
      dsimp only
      rw [hpad, ← hpos, hstart, padZeros_eq (by rw [List.length_nil]; omega), List.nil_append]
      change (putBits val pos (withText 8 (List.replicate padding '0')) >>= fun r => Except.ok r.1) = _
      rw [putBits_eq (by rw [List.length_replicate]; omega), htext]
      rfl
    rw [hrun, withText, hlength, show 8 - width = 7 - width + 1 by omega, List.replicate_succ]

/-! ## `hexstr` -/

/-- Text is formatted after a text. -/
theorem sprintf_withText {p : List Char} (h : text.length + p.length + 1 ≤ n) :
    sprintf (withText n text).1 text.length p = .ok (withText n (text ++ p)).1 := by
  have hrest : n - (text.length + p.length) = n - text.length - (p.length + 1) + 1 := by omega
  unfold sprintf withText
  dsimp only
  rw [if_pos (by rw [List.length_append, List.length_replicate]; omega), List.take_left, Nat.add_assoc,
    List.drop_length_add_append, List.drop_replicate, ← List.replicate_succ, List.length_append, hrest]

/-- The loop formats the bytes after the first. -/
theorem hexstrLoop_eq {sep pref : List Char} {src : List UInt8}
    (h : text.length + (src.flatMap fun b => sep ++ pref ++ hexByte b).length + 1 ≤ n) :
    hexstrLoop sep pref (sep.length + pref.length + 2) src text.length (withText n text).1 =
      .ok (withText n (text ++ src.flatMap fun b => sep ++ pref ++ hexByte b)).1 := by
  induction src generalizing text with
  | nil => rw [List.flatMap_nil, List.append_nil]; rfl
  | cons byte src ih =>
    have hpiece : (sep ++ pref ++ hexByte byte).length = sep.length + pref.length + 2 := by
      rw [List.length_append, List.length_append]
      rfl
    rw [List.flatMap_cons, List.length_append, hpiece] at h
    rw [hexstrLoop, sprintf_withText (by omega)]
    have hnext : text.length + (sep.length + pref.length + 2) = (text ++ (sep ++ pref ++ hexByte byte)).length := by
      rw [List.length_append, hpiece]
    have hroom : (text ++ (sep ++ pref ++ hexByte byte)).length +
        (src.flatMap fun b => sep ++ pref ++ hexByte b).length + 1 ≤ n := by
      rw [← hnext]
      omega
    have hloop := ih hroom
    rw [← hnext] at hloop
    refine Eq.trans ?_ (hloop.trans ?_)
    · rfl
    · rw [List.flatMap_cons, List.append_assoc]

/-- The length of what is formatted. -/
theorem formatted_length (sep pref : List Char) (byte : UInt8) (src : List UInt8) :
    (formatted sep pref (byte :: src)).length + sep.length = (src.length + 1) * (sep.length + pref.length + 2) := by
  have hrest : (src.flatMap fun b => sep ++ pref ++ hexByte b).length = src.length * (sep.length + pref.length + 2) := by
    induction src with
    | nil => rw [List.flatMap_nil, List.length_nil, List.length_nil, Nat.zero_mul]
    | cons b src ih =>
      rw [List.flatMap_cons, List.length_append, ih, List.length_cons, Nat.succ_mul, List.length_append,
        List.length_append, Nat.add_comm]
      rfl
  rw [formatted, List.length_append, hrest, List.length_append, Nat.succ_mul]
  change pref.length + 2 + _ + _ = _
  omega

variable {dst sep pref : List Char} {byte : UInt8} {src : List UInt8}

/-- The length that is required of the destination, where there is a byte. -/
theorem totlen_eq (hstep : sep.length + pref.length + 2 < 2 ^ 64) (byte : UInt8) (src : List UInt8) :
    ((byte :: src).length * ((sep.length + pref.length + 2) % 2 ^ 64) + 1 + (2 ^ 64 - sep.length)) % 2 ^ 64 =
      ((formatted sep pref (byte :: src)).length + 1) % 2 ^ 64 := by
  have hlength := formatted_length sep pref byte src
  rw [Nat.mod_eq_of_lt hstep, List.length_cons, ← hlength]
  omega

/-- What is formatted where there is room. -/
theorem hexstrWith_eq (hstep : sep.length + pref.length + 2 < 2 ^ 64)
    (hroom : (formatted sep pref (byte :: src)).length + 1 ≤ dst.length) (hdst : dst.length < 2 ^ 64) :
    hexstrWith dst (byte :: src) sep pref = .ok (0, (withText dst.length (formatted sep pref (byte :: src))).1) := by
  obtain ⟨rest, hrest⟩ : ∃ rest, rest = src.flatMap fun b => sep ++ pref ++ hexByte b := ⟨_, rfl⟩
  have htext : formatted sep pref (byte :: src) = pref ++ hexByte byte ++ rest := by
    rw [hrest]
    rfl
  have hpiece : (pref ++ hexByte byte).length = pref.length + 2 := List.length_append
  have hlength := hroom
  rw [htext, List.length_append] at hlength
  have hfirst : sprintf (withText dst.length []).1 ([] : List Char).length (pref ++ hexByte byte) =
      .ok (withText dst.length ([] ++ (pref ++ hexByte byte))).1 :=
    sprintf_withText (by rw [List.length_nil]; omega)
  have hloop : hexstrLoop sep pref (sep.length + pref.length + 2) src (pref ++ hexByte byte).length
      (withText dst.length (pref ++ hexByte byte)).1 = .ok (withText dst.length (pref ++ hexByte byte ++ rest)).1 := by
    rw [hrest]
    exact hexstrLoop_eq (by rw [← hrest]; omega)
  rw [List.nil_append] at hfirst
  unfold hexstrWith
  dsimp only
  rw [totlen_eq hstep, Nat.mod_eq_of_lt (by omega), if_neg (by omega), Nat.mod_eq_of_lt hstep]
  change (sprintf (withText dst.length []).1 ([] : List Char).length (pref ++ hexByte byte) >>= fun dst =>
    hexstrLoop sep pref _ src _ dst >>= fun dst => Except.ok ((0 : ℤ), dst)) = _
  rw [hfirst]
  change (hexstrLoop sep pref _ src (sep.length + pref.length + 2 - sep.length) _ >>= fun dst =>
    Except.ok ((0 : ℤ), dst)) = _
  rw [show sep.length + pref.length + 2 - sep.length = (pref ++ hexByte byte).length by omega, hloop, htext]
  rfl

/-- Without a byte only a destination without a byte is refused rightly. -/
theorem hexstrWith_nil (hdst : dst.length < 2 ^ 63) (hsep : sep.length < 2 ^ 63) (pref : List Char) :
    hexstrWith dst [] sep pref = if dst.length = 0 ∧ sep.length ≠ 1 ∨ 2 ≤ sep.length then .ok (-1, dst) else .error .source := by
  unfold hexstrWith
  dsimp only
  rw [List.length_nil, Nat.zero_mul, Nat.zero_add]
  split_ifs with hshort h h
  · rfl
  · exfalso
    omega
  · exfalso
    omega
  · rfl

/-- With a byte, the destination is refused where it is shorter than what is left of the length. -/
theorem hexstrWith_short (hstep : sep.length + pref.length + 2 < 2 ^ 64) :
    hexstrWith dst (byte :: src) sep pref = .ok (-1, dst) ↔
      dst.length < ((formatted sep pref (byte :: src)).length + 1) % 2 ^ 64 := by
  unfold hexstrWith
  dsimp only
  rw [totlen_eq hstep]
  split_ifs with hshort
  · exact iff_of_true rfl hshort
  · refine iff_of_false (fun h => ?_) hshort
    cases hfirst : sprintf (List.replicate dst.length nul) 0 (pref ++ hexByte byte) with
    | error e =>
      rw [hfirst] at h
      cases h
    | ok first =>
      rw [hfirst] at h
      cases hloop : hexstrLoop sep pref ((sep.length + pref.length + 2) % 2 ^ 64) src
          ((sep.length + pref.length + 2) % 2 ^ 64 - sep.length) first with
      | error e =>
        change (hexstrLoop sep pref _ src _ first >>= fun dst => Except.ok ((0 : ℤ), dst)) = _ at h
        rw [hloop] at h
        cases h
      | ok out =>
        change (hexstrLoop sep pref _ src _ first >>= fun dst => Except.ok ((0 : ℤ), dst)) = _ at h
        rw [hloop] at h
        cases h

theorem text_length (t : Option CText) : ((t.map CText.chars).getD []).length + 1 < 2 ^ 63 := by
  cases t with
  | none => decide
  | some t => exact t.length_lt

/-- `hexstr` is right where there is a byte and the length does not wrap, or the destination is also shorter than what is
left of it. Without a byte it is right where the destination has to be refused and is. -/
theorem hexstrRight_iff (hdst : dst.length < 2 ^ 63) (src : List UInt8) (delim pref : Option CText) :
    HexstrRight dst src (delim.map CText.chars) (pref.map CText.chars) ↔
      (src = [] → dst.length = 0 ∧ ((delim.map CText.chars).getD []).length ≠ 1) ∧
        (src ≠ [] →
          (formatted ((delim.map CText.chars).getD []) ((pref.map CText.chars).getD []) src).length + 1 < 2 ^ 64 ∨
          dst.length <
            ((formatted ((delim.map CText.chars).getD []) ((pref.map CText.chars).getD []) src).length + 1) % 2 ^ 64) := by
  have hsep := text_length delim
  have hpref := text_length pref
  unfold HexstrRight hexstr
  generalize (delim.map CText.chars).getD [] = sep at *
  generalize (pref.map CText.chars).getD [] = pref at *
  cases src with
  | nil =>
    rw [hexstrWith_nil hdst (by omega), and_iff_left (fun h => absurd rfl h), imp_iff_right rfl]
    change (if dst.length < 1 then _ else _) ↔ _
    split_ifs with h1 h2 h2
    · exact iff_of_true rfl (by omega)
    · exact iff_of_false (by simp) (by omega)
    · exact iff_of_false (by simp) (by omega)
    · exact iff_of_false (by simp) (by omega)
  | cons byte src =>
    have hstep : sep.length + pref.length + 2 < 2 ^ 64 := by omega
    rw [and_iff_right (fun h => absurd h (List.cons_ne_nil byte src)), imp_iff_right (List.cons_ne_nil byte src)]
    split_ifs with hshort
    · rw [hexstrWith_short hstep]
      constructor
      · exact .inr
      · rintro (h | h)
        · rwa [Nat.mod_eq_of_lt h]
        · exact h
    · obtain ⟨k, hk⟩ : ∃ k, dst.length - (formatted sep pref (byte :: src)).length = k + 1 :=
        ⟨dst.length - (formatted sep pref (byte :: src)).length - 1, by omega⟩
      refine iff_of_true ⟨List.replicate k nul, ?_⟩ (.inl (by omega))
      rw [hexstrWith_eq hstep (by omega) (by omega), withText, hk, List.replicate_succ]

/-- **Numbers and bytes as strings**: `bitstr` is right where the width and the terminator fit into 8 bytes. `hexstr` is
right where there is a byte and the length does not wrap, or the destination is also shorter than what is left of it;
without a byte, where the destination has to be refused and is. -/
theorem strings_iff (val width : ℕ) {dst : List Char} (hdst : dst.length < 2 ^ 63) (src : List UInt8)
    (delim pref : Option CText) :
    (BitstrRight val width ↔ width ≤ 7) ∧
      (HexstrRight dst src (delim.map CText.chars) (pref.map CText.chars) ↔
        (src = [] → dst.length = 0 ∧ ((delim.map CText.chars).getD []).length ≠ 1) ∧
          (src ≠ [] →
            (formatted ((delim.map CText.chars).getD []) ((pref.map CText.chars).getD []) src).length + 1 < 2 ^ 64 ∨
            dst.length <
              ((formatted ((delim.map CText.chars).getD []) ((pref.map CText.chars).getD []) src).length + 1) % 2 ^ 64)) :=
  ⟨bitstrRight_iff val width, hexstrRight_iff hdst src delim pref⟩

/-- The ninth character is written outside, and the first byte of an empty source is read. -/
theorem not_strings : bitstr 5 9 = .error .outside ∧ hexstr [nul, nul, nul, nul] [] none none = .error .source := by
  decide

theorem strings_iff_byte : (BitstrRight 5 4 ↔ 4 ≤ 7) ∧
    (HexstrRight [nul, nul, nul] [7] none none ↔ ([7] = ([] : List UInt8) → 3 = 0 ∧ 0 ≠ 1) ∧
      ([7] ≠ ([] : List UInt8) → (formatted [] [] [7]).length + 1 < 2 ^ 64 ∨ 3 < ((formatted [] [] [7]).length + 1) % 2 ^ 64)) :=
  strings_iff 5 4 (by decide) [7] none none

end Libtarp.Bits
