import Mathlib.Algebra.Group.Int.Defs
import Mathlib.Algebra.Group.Nat.Defs
import Mathlib.Data.List.DropRight
import Mathlib.Tactic.Common

/-!
# Text, as the C library has it

* `isSpace`, `digitValue`: characters in the C locale.
* `trimmed`: a list without what surrounds it. `trimmed_append`: it is what is between the ends that are cut off.
* `strtoul`, `strtoll`: the numeral that a string begins with, behind blanks and a sign. `scanNumber_eq`,
  `scanDigits_eq`: what they find where digits follow.
* `digitsValue_toDigits`: a number read back from its digits.
* `Numeral`, `strtoll_numeral`: what a string that is a numeral is converted to.
-/

namespace Libtarp.Lib

/-! ## Characters -/

/-- `isspace`. -/
def isSpace (c : Char) : Bool := c ∈ [' ', '\t', '\n', '\x0b', '\x0c', '\r']

/-- The value of a digit, in the bases that have it. -/
def digitValue (c : Char) : ℕ :=
  if '0'.toNat ≤ c.toNat ∧ c.toNat ≤ '9'.toNat then c.toNat - '0'.toNat
  else if 'a'.toNat ≤ c.toNat ∧ c.toNat ≤ 'z'.toNat then c.toNat - 'a'.toNat + 10
  else if 'A'.toNat ≤ c.toNat ∧ c.toNat ≤ 'Z'.toNat then c.toNat - 'A'.toNat + 10
  else 36

def isDigitOf (base : ℕ) (c : Char) : Bool := digitValue c < base

theorem digitValue_of_space {c : Char} (h : isSpace c = true) : digitValue c = 36 := by
  have hc : c ∈ [' ', '\t', '\n', '\x0b', '\x0c', '\r'] := of_decide_eq_true h
  simp only [List.mem_cons, List.not_mem_nil, or_false] at hc
  rcases hc with rfl | rfl | rfl | rfl | rfl | rfl <;> rfl

/-- No digit is a blank, a sign or the end of a string. -/
theorem isDigitOf_ne {base : ℕ} {c : Char} (hbase : base ≤ 36) (hc : isDigitOf base c = true) :
    isSpace c = false ∧ c ≠ '-' ∧ c ≠ '+' ∧ c ≠ '\x00' := by
  have hlt : digitValue c < 36 := (of_decide_eq_true hc).trans_le hbase
  refine ⟨?_, ?_, ?_, ?_⟩
  · by_contra hspace
    exact hlt.ne (digitValue_of_space (eq_true_of_ne_false hspace))
  · rintro rfl
    exact absurd hlt (by decide)
  · rintro rfl
    exact absurd hlt (by decide)
  · rintro rfl
    exact absurd hlt (by decide)

/-! ## What surrounds a list -/

section Trimmed

variable {α : Type*} {p : α → Bool} {s : List α}

/-- The list without the elements with `p` at its ends. -/
def trimmed (p : α → Bool) (s : List α) : List α := (s.rdropWhile p).dropWhile p

theorem trimmed_split (p : α → Bool) (s : List α) :
    ∃ pre post, s = pre ++ trimmed p s ++ post ∧ (∀ c ∈ pre, p c = true) ∧ ∀ c ∈ post, p c = true := by
  refine ⟨(s.rdropWhile p).takeWhile p, s.rtakeWhile p, ?_, fun c hc => ?_, fun c hc => List.mem_rtakeWhile_imp hc⟩
  · unfold trimmed
    rw [List.takeWhile_append_dropWhile, List.rdropWhile_append_rtakeWhile]
  · exact List.mem_takeWhile_imp hc

theorem dropWhile_head (p : α → Bool) (s : List α) : ∀ c ∈ (s.dropWhile p).head?, p c = false := by
  intro c hc
  have hnot := List.head?_dropWhile_not p s
  rwa [Option.mem_def.1 hc] at hnot

theorem trimmed_head (p : α → Bool) (s : List α) : ∀ c ∈ (trimmed p s).head?, p c = false := dropWhile_head p _

theorem rdropWhile_last (p : α → Bool) (s : List α) : ∀ c ∈ (s.rdropWhile p).getLast?, p c = false := by
  unfold List.rdropWhile
  rw [List.getLast?_reverse]
  exact dropWhile_head p _

theorem trimmed_last (p : α → Bool) (s : List α) : ∀ c ∈ (trimmed p s).getLast?, p c = false := by
  intro c hc
  refine rdropWhile_last p s c ?_
  rw [← List.takeWhile_append_dropWhile (p := p) (l := s.rdropWhile p)]
  exact List.mem_getLast?_append_of_mem_getLast? hc

theorem dropWhile_append_stop {a b : List α} (ha : ∀ c ∈ a, p c = true) (hb : ∀ c ∈ b.head?, p c = false) :
    (a ++ b).dropWhile p = b := by
  rw [List.dropWhile_append_of_pos ha]
  cases b with
  | nil => rfl
  | cons c b => rw [List.dropWhile_cons, hb c rfl, if_neg Bool.false_ne_true]

theorem takeWhile_append_stop {a b : List α} (ha : ∀ c ∈ a, p c = true) (hb : ∀ c ∈ b.head?, p c = false) :
    (a ++ b).takeWhile p = a := by
  rw [List.takeWhile_append_of_pos ha]
  cases b with
  | nil => rw [List.takeWhile_nil, List.append_nil]
  | cons c b => rw [List.takeWhile_cons, hb c rfl, if_neg Bool.false_ne_true, List.append_nil]

theorem rdropWhile_append_stop {a b : List α} (ha : ∀ c ∈ a.getLast?, p c = false) (hb : ∀ c ∈ b, p c = true) :
    (a ++ b).rdropWhile p = a := by
  unfold List.rdropWhile
  rw [List.reverse_append, dropWhile_append_stop, List.reverse_reverse]
  · intro c hc
    exact hb c (List.mem_reverse.1 hc)
  · rw [List.head?_reverse]
    exact ha

/-- What is between the ends that are cut off. -/
theorem trimmed_append {pre w post : List α} (hpre : ∀ c ∈ pre, p c = true) (hpost : ∀ c ∈ post, p c = true)
    (hhead : ∀ c ∈ w.head?, p c = false) (hlast : ∀ c ∈ w.getLast?, p c = false) :
    trimmed p (pre ++ w ++ post) = w := by
  unfold trimmed
  rcases List.eq_nil_or_concat w with rfl | ⟨w', x, rfl⟩
  · have hall : ∀ c ∈ pre ++ [] ++ post, p c = true := by
      intro c hc
      rw [List.append_nil] at hc
      exact (List.mem_append.1 hc).elim (hpre c) (hpost c)
    rw [List.rdropWhile_eq_nil_iff.2 hall]
    rfl
  · have hlast' : ∀ c ∈ (pre ++ w'.concat x).getLast?, p c = false := by
      intro c hc
      refine hlast c ?_
      rw [List.concat_eq_append] at hc ⊢
      rw [← List.append_assoc, List.getLast?_concat] at hc
      rwa [List.getLast?_concat]
    rw [rdropWhile_append_stop hlast' hpost, dropWhile_append_stop hpre hhead]

theorem trimmed_eq_nil_iff : trimmed p s = [] ↔ ∀ c ∈ s, p c = true := by
  constructor
  · intro hnil c hc
    obtain ⟨pre, post, hs, hpre, hpost⟩ := trimmed_split p s
    rw [hnil, List.append_nil] at hs
    rw [hs] at hc
    exact (List.mem_append.1 hc).elim (hpre c) (hpost c)
  · intro hall
    unfold trimmed
    rw [List.rdropWhile_eq_nil_iff.2 hall]
    rfl

/-- Nothing is cut off where nothing is at the ends. -/
theorem trimmed_eq_self_iff : trimmed p s = s ↔ (∀ c ∈ s.head?, p c = false) ∧ ∀ c ∈ s.getLast?, p c = false := by
  constructor
  · intro hself
    have hhead := trimmed_head p s
    have hlast := trimmed_last p s
    rw [hself] at hhead hlast
    exact ⟨hhead, hlast⟩
  · rintro ⟨hhead, hlast⟩
    have hnone : ∀ c ∈ ([] : List α), p c = true := List.forall_mem_nil _
    have htrimmed := trimmed_append hnone hnone hhead hlast
    rwa [List.nil_append, List.append_nil] at htrimmed

theorem trimmed_trimmed (p : α → Bool) (s : List α) : trimmed p (trimmed p s) = trimmed p s :=
  trimmed_eq_self_iff.2 ⟨trimmed_head p s, trimmed_last p s⟩

end Trimmed

/-! ## Numerals -/

/-- The value of digits. -/
def digitsValue (base : ℕ) (digits : List Char) : ℕ := digits.foldl (fun n c => base * n + digitValue c) 0

/-- A numeral that a string begins with, and what comes behind it. -/
structure Scanned where
  negative : Bool
  value : ℕ
  rest : List Char
  deriving DecidableEq, Repr

def scanSign : List Char → Bool × List Char
  | '-' :: s => (true, s)
  | '+' :: s => (false, s)
  | s => (false, s)

/-- In base 16, `0x` may come before a digit. -/
def scanPrefix (base : ℕ) : List Char → List Char
  | '0' :: x :: d :: s => if base = 16 ∧ (x = 'x' ∨ x = 'X') ∧ isDigitOf 16 d then d :: s else '0' :: x :: d :: s
  | s => s

/-- The digits that a string begins with. -/
def scanDigits (base : ℕ) (negative : Bool) (s : List Char) : Option Scanned :=
  let digits := s.takeWhile (isDigitOf base)
  if digits = [] then none else some ⟨negative, digitsValue base digits, s.dropWhile (isDigitOf base)⟩

/-- The subject sequence of `strtol` and its siblings, for a base up to 36. -/
def scanNumber (base : ℕ) (s : List Char) : Option Scanned :=
  let (negative, s) := scanSign (s.dropWhile isSpace)
  scanDigits base negative (scanPrefix base s)

/-- The value, where `endptr` points to, and whether `errno` was set to `ERANGE`. -/
structure Converted where
  value : ℤ
  endptr : List Char
  erange : Bool
  deriving DecidableEq, Repr

/-- `strtoul`, for an `unsigned long` of 64 bits. -/
def strtoul (s : List Char) (base : ℕ) : Converted :=
  match scanNumber base s with
  | none => ⟨0, s, false⟩
  | some n =>
    if n.value ≥ 2 ^ 64 then ⟨2 ^ 64 - 1, n.rest, true⟩
    else ⟨if n.negative then (-n.value : ℤ) % 2 ^ 64 else n.value, n.rest, false⟩

/-- `strtoll`, for a `long long` of 64 bits. -/
def strtoll (s : List Char) (base : ℕ) : Converted :=
  match scanNumber base s with
  | none => ⟨0, s, false⟩
  | some n =>
    let value : ℤ := if n.negative then -n.value else n.value
    if value > 2 ^ 63 - 1 then ⟨2 ^ 63 - 1, n.rest, true⟩
    else if value < -2 ^ 63 then ⟨-2 ^ 63, n.rest, true⟩
    else ⟨value, n.rest, false⟩

/-- The characters that a pointer to characters points to. -/
def cStr (s : List Char) : List Char := s.takeWhile (· ≠ '\x00')

/-- A sign, and whether it makes a number negative. -/
inductive Sign : List Char → Bool → Prop
  | none : Sign [] false
  | plus : Sign ['+'] false
  | minus : Sign ['-'] true

section Numerals

variable {base n : ℕ} {blanks sign digits s : List Char} {negative : Bool}

/-- What begins with no blank and no sign. -/
def Plain (s : List Char) : Prop := ∀ c ∈ s.head?, isSpace c = false ∧ c ≠ '-' ∧ c ≠ '+'

theorem plain_digit {c : Char} (hbase : base ≤ 36) (hc : isDigitOf base c = true) (s : List Char) : Plain (c :: s) := by
  rintro _ ⟨⟩
  obtain ⟨hspace, hminus, hplus, -⟩ := isDigitOf_ne hbase hc
  exact ⟨hspace, hminus, hplus⟩

theorem scanSign_plain (h : Plain s) : scanSign s = (false, s) := by
  rcases s with _ | ⟨c, s⟩
  · rfl
  · obtain ⟨-, hminus, hplus⟩ := h c rfl
    unfold scanSign
    split
    · next heq => exact absurd (List.cons.inj heq).1 hminus
    · next heq => exact absurd (List.cons.inj heq).1 hplus
    · rfl

/-- Blanks, and then a sign. -/
theorem scanNumber_eq (hblanks : ∀ c ∈ blanks, isSpace c = true) (hsign : Sign sign negative)
    (hplain : sign = [] → Plain s) (hzero : scanPrefix base s = s) :
    scanNumber base (blanks ++ sign ++ s) = scanDigits base negative s := by
  have hdrop : (blanks ++ sign ++ s).dropWhile isSpace = sign ++ s := by
    rw [List.append_assoc]
    refine dropWhile_append_stop hblanks fun c hc => ?_
    cases hsign with
    | none => exact (hplain rfl c hc).1
    | plus =>
      obtain rfl := Option.some.inj hc
      rfl
    | minus =>
      obtain rfl := Option.some.inj hc
      rfl
  have hscan : scanSign (sign ++ s) = (negative, s) := by
    cases hsign with
    | none => exact scanSign_plain (hplain rfl)
    | plus => rfl
    | minus => rfl
  unfold scanNumber
  rw [hdrop, hscan]
  dsimp only
  rw [hzero]

/-- Digits, and then something else. -/
theorem scanDigits_eq (hdigits : ∀ c ∈ digits, isDigitOf base c = true) (hne : digits ≠ [])
    (hstop : ∀ c ∈ s.head?, isDigitOf base c = false) (negative : Bool) :
    scanDigits base negative (digits ++ s) = some ⟨negative, digitsValue base digits, s⟩ := by
  unfold scanDigits
  rw [takeWhile_append_stop hdigits hstop, dropWhile_append_stop hdigits hstop]
  exact if_neg hne

theorem scanDigits_none (hstop : ∀ c ∈ s.head?, isDigitOf base c = false) (negative : Bool) :
    scanDigits base negative s = none := by
  have htake : s.takeWhile (isDigitOf base) = [] := takeWhile_append_stop (a := []) (List.forall_mem_nil _) hstop
  unfold scanDigits
  rw [htake]
  exact if_pos rfl

theorem digitsValue_concat (base : ℕ) (digits : List Char) (c : Char) :
    digitsValue base (digits ++ [c]) = base * digitsValue base digits + digitValue c := by
  unfold digitsValue
  rw [List.foldl_append]
  rfl

theorem digitValue_digitChar (hn : n < 16) : digitValue (Nat.digitChar n) = n := by
  decide +revert

theorem digitsValue_toDigits (hbase : 1 < base) (hle : base ≤ 16) (n : ℕ) :
    digitsValue base (Nat.toDigits base n) = n := by
  induction n using Nat.strong_induction_on with
  | _ n ih =>
    by_cases hlt : n < base
    · rw [Nat.toDigits_of_lt_base hlt]
      have hnone : digitsValue base [] = 0 := rfl
      rw [← List.nil_append [_], digitsValue_concat, hnone, digitValue_digitChar (by omega), Nat.mul_zero, Nat.zero_add]
    · have hpos : 0 < n := by omega
      have hdigit : n % base < 16 := (Nat.mod_lt n (by omega)).trans_le hle
      rw [Nat.toDigits_of_base_le hbase (Nat.not_lt.1 hlt), digitsValue_concat, ih _ (Nat.div_lt_self hpos hbase),
        digitValue_digitChar hdigit, Nat.div_add_mod]

theorem isDigitOf_toDigits (hbase : 1 < base) (hle : base ≤ 16) (n : ℕ) :
    ∀ c ∈ Nat.toDigits base n, isDigitOf base c = true := by
  induction n using Nat.strong_induction_on with
  | _ n ih =>
    intro c hc
    unfold isDigitOf
    by_cases hlt : n < base
    · rw [Nat.toDigits_of_lt_base hlt, List.mem_singleton] at hc
      rw [hc, digitValue_digitChar (by omega)]
      exact decide_eq_true hlt
    · have hpos : 0 < n := by omega
      have hdigit : n % base < base := Nat.mod_lt n (by omega)
      rw [Nat.toDigits_of_base_le hbase (Nat.not_lt.1 hlt), List.mem_append, List.mem_singleton] at hc
      rcases hc with hc | rfl
      · exact ih _ (Nat.div_lt_self hpos hbase) c hc
      · rw [digitValue_digitChar (hdigit.trans_le hle)]
        exact decide_eq_true hdigit

theorem strtoul_none (hscan : scanNumber base s = none) : strtoul s base = ⟨0, s, false⟩ := by
  unfold strtoul
  rw [hscan]

/-- A negative number is taken modulo 2^64. -/
theorem strtoul_some {m : Scanned} (hscan : scanNumber base s = some m) (hlt : m.value < 2 ^ 64) :
    strtoul s base = ⟨if m.negative then (-m.value : ℤ) % 2 ^ 64 else m.value, m.rest, false⟩ := by
  unfold strtoul
  rw [hscan]
  exact if_neg (Nat.not_le.2 hlt)

/-- The text of a number, in the digits of a base. -/
def Numeral (base : ℕ) (text : List Char) (x : ℤ) : Prop :=
  ∃ sign digits negative, text = sign ++ digits ∧ Sign sign negative ∧ digits ≠ [] ∧
    (∀ c ∈ digits, isDigitOf base c = true) ∧
    x = if negative then -(digitsValue base digits : ℤ) else digitsValue base digits

/-- The text that a number is printed as. -/
def decimal (x : ℤ) : List Char := if x < 0 then '-' :: Nat.toDigits 10 x.natAbs else Nat.toDigits 10 x.natAbs

theorem numeral_decimal (x : ℤ) : Numeral 10 (decimal x) x := by
  have hdigits : ∀ c ∈ Nat.toDigits 10 x.natAbs, isDigitOf 10 c = true := isDigitOf_toDigits (by decide) (by decide) _
  have hvalue : digitsValue 10 (Nat.toDigits 10 x.natAbs) = x.natAbs := digitsValue_toDigits (by decide) (by decide) _
  unfold decimal
  split_ifs with hneg
  · refine ⟨['-'], Nat.toDigits 10 x.natAbs, true, rfl, .minus, Nat.toDigits_ne_nil, hdigits, ?_⟩
    rw [hvalue, if_pos rfl]
    omega
  · refine ⟨[], Nat.toDigits 10 x.natAbs, false, rfl, .none, Nat.toDigits_ne_nil, hdigits, ?_⟩
    rw [hvalue, if_neg Bool.false_ne_true]
    omega

theorem scanPrefix_of_ne (hbase : base ≠ 16) (s : List Char) : scanPrefix base s = s := by
  unfold scanPrefix
  split
  · exact if_neg fun h => hbase h.1
  · rfl

/-- A numeral behind nothing is all that is scanned. -/
theorem scanNumber_numeral {x : ℤ} (h : Numeral 10 s x) : ∃ m, scanNumber 10 s = some m ∧ m.rest = [] ∧
    x = if m.negative then -(m.value : ℤ) else m.value := by
  obtain ⟨sign, digits, negative, rfl, hsign, hne, hdigits, hx⟩ := h
  have hplain : Plain digits := by
    obtain ⟨c, digits, rfl⟩ := List.exists_cons_of_ne_nil hne
    exact plain_digit (by decide) (hdigits c List.mem_cons_self) digits
  have hzero : scanPrefix 10 digits = digits := scanPrefix_of_ne (by decide) digits
  have hscan := scanNumber_eq (List.forall_mem_nil _) hsign (fun _ => hplain) hzero
  have hall := scanDigits_eq (s := []) hdigits hne (by simp) negative
  rw [List.append_nil] at hall
  exact ⟨_, hscan.trans hall, rfl, hx⟩

/-- Nothing of a numeral is a blank or the end of a string. -/
theorem numeral_chars {x : ℤ} (h : Numeral 10 s x) : s ≠ [] ∧ ∀ c ∈ s, isSpace c = false ∧ c ≠ '\x00' := by
  obtain ⟨sign, digits, negative, rfl, hsign, hne, hdigits, -⟩ := h
  refine ⟨List.append_ne_nil_of_right_ne_nil _ hne, fun c hc => ?_⟩
  rcases List.mem_append.1 hc with hc | hc
  · cases hsign with
    | none => cases hc
    | plus =>
      obtain rfl := List.mem_singleton.1 hc
      decide
    | minus =>
      obtain rfl := List.mem_singleton.1 hc
      decide
  · obtain ⟨hspace, -, -, hnull⟩ := isDigitOf_ne (by decide) (hdigits c hc)
    exact ⟨hspace, hnull⟩

/-- `strtoll` finds the value of a numeral, if it has 64 bits for it. -/
theorem strtoll_numeral {x : ℤ} (h : Numeral 10 s x) : strtoll s 10 =
    if x > 2 ^ 63 - 1 then ⟨2 ^ 63 - 1, [], true⟩ else if x < -2 ^ 63 then ⟨-2 ^ 63, [], true⟩ else ⟨x, [], false⟩ := by
  obtain ⟨m, hscan, hrest, rfl⟩ := scanNumber_numeral h
  unfold strtoll
  rw [hscan]
  dsimp only
  rw [hrest]

end Numerals

end Libtarp.Lib
