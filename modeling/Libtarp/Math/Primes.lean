import Mathlib.Data.Nat.Prime.Basic

/-!
# The sieve (`math.c`)

`find_primes` crosses out the multiples of every number that is still marked, from its square on. The products are of a
`size_t` and could wrap; the buffer has to hold as many bytes as the limit says, and no object is that large.

* `Crossed`: the numbers that are crossed out before the loop gets to a number.
* `crossOut_spec`, `sieve_spec`: what the loops leave in the buffer.
* `findPrimes_spec`: 1 for the primes, 0 for the composite numbers, and nothing else is touched.
-/

namespace Libtarp.Math

/-- What stops `find_primes`. -/
inductive SieveFault
  | assertion
  | outside
  | rounds
  deriving DecidableEq, Repr

/-- An object made of `char`. None has more than `PTRDIFF_MAX` bytes. -/
structure CharBuffer where
  bytes : List UInt8
  length_lt : bytes.length < 2 ^ 63

/-! ## The functions of the source -/

def charAt (buff : List UInt8) (i : ℕ) : Except SieveFault UInt8 :=
  match buff[i]? with
  | none => .error .outside
  | some c => .ok c

def putChar (buff : List UInt8) (i : ℕ) (c : UInt8) : Except SieveFault (List UInt8) :=
  if i < buff.length then .ok (buff.set i c) else .error .outside

/-- `memset(buff, c, n)`. -/
def memset (buff : List UInt8) (c : UInt8) (n : ℕ) : Except SieveFault (List UInt8) :=
  if n ≤ buff.length then .ok (List.replicate n c ++ buff.drop n) else .error .outside

/-- The inner loop of `find_primes`. -/
def crossOut (limit i : ℕ) (rounds j : ℕ) (buff : List UInt8) : Except SieveFault (List UInt8) :=
  let factor := i * j % 2 ^ 64
  if factor < limit then
    match rounds with
    | 0 => .error .rounds
    | rounds + 1 => do
      let buff ← putChar buff factor 0
      crossOut limit i rounds ((j + 1) % 2 ^ 64) buff
  else .ok buff

/-- What the outer loop of `find_primes` does with a number. -/
def crossOutMarked (limit i : ℕ) (buff : List UInt8) : Except SieveFault (List UInt8) := do
  if (← charAt buff i) ≠ 0 then crossOut limit i limit i buff else return buff

/-- The outer loop of `find_primes`. -/
def sieve (limit : ℕ) (rounds i : ℕ) (buff : List UInt8) : Except SieveFault (List UInt8) :=
  if i * i % 2 ^ 64 ≤ limit then
    match rounds with
    | 0 => .error .rounds
    | rounds + 1 => do
      let buff ← crossOutMarked limit i buff
      sieve limit rounds ((i + 1) % 2 ^ 64) buff
  else .ok buff

def findPrimes (limit : ℕ) (buff : Option (List UInt8)) : Except SieveFault (List UInt8) :=
  if 1 < limit then
    match buff with
    | none => .error .assertion
    | some buff => do
      let buff ← memset buff 1 limit
      sieve limit limit 2 buff
  else .error .assertion

/-! ## What is crossed out -/

variable {limit i j n rounds : ℕ} {buff : List UInt8}

/-- That a number is crossed out before the loop gets to `i`: it is a multiple of a smaller prime, from its square on. -/
def Crossed (i n : ℕ) : Prop := ∃ p, p.Prime ∧ p < i ∧ p ∣ n ∧ p * p ≤ n

/-- A number is crossed out before the loop gets to it unless it is a prime. -/
theorem crossed_self (hi : 2 ≤ i) : Crossed i i ↔ ¬i.Prime := by
  constructor
  · rintro ⟨p, hp, hlt, hdvd, -⟩ hprime
    rcases (Nat.dvd_prime hprime).1 hdvd with h | h
    · exact hp.one_lt.ne' h
    · omega
  · intro hprime
    refine ⟨i.minFac, Nat.minFac_prime (by omega), ?_, Nat.minFac_dvd i, ?_⟩
    · exact (Nat.not_prime_iff_minFac_lt hi).1 hprime
    · rw [← pow_two]
      exact Nat.minFac_sq_le_self (by omega) hprime

/-- Before a number whose square is larger everything composite is crossed out. -/
theorem crossed_iff (hn : 2 ≤ n) (hi : n < i * i) : Crossed i n ↔ ¬n.Prime := by
  constructor
  · rintro ⟨p, hp, -, hdvd, hsquare⟩ hprime
    rcases (Nat.dvd_prime hprime).1 hdvd with h | h
    · exact hp.one_lt.ne' h
    · subst h
      have := Nat.mul_le_mul_right p hp.two_le
      omega
  · intro hprime
    have hsquare : n.minFac * n.minFac ≤ n := by
      rw [← pow_two]
      exact Nat.minFac_sq_le_self (by omega) hprime
    refine ⟨n.minFac, Nat.minFac_prime (by omega), ?_, Nat.minFac_dvd n, hsquare⟩
    by_contra h
    have := Nat.mul_le_mul (Nat.le_of_not_lt h) (Nat.le_of_not_lt h)
    omega

/-- What is crossed out with one more number. -/
theorem crossed_succ : Crossed (i + 1) n ↔ Crossed i n ∨ i.Prime ∧ i ∣ n ∧ i * i ≤ n := by
  constructor
  · rintro ⟨p, hp, hlt, hdvd, hsquare⟩
    rcases Nat.eq_or_lt_of_le (Nat.le_of_lt_succ hlt) with h | h
    · subst h
      exact .inr ⟨hp, hdvd, hsquare⟩
    · exact .inl ⟨p, hp, h, hdvd, hsquare⟩
  · rintro (⟨p, hp, hlt, hdvd, hsquare⟩ | ⟨hp, hdvd, hsquare⟩)
    · exact ⟨p, hp, Nat.lt_succ_of_lt hlt, hdvd, hsquare⟩
    · exact ⟨i, hp, Nat.lt_succ_self i, hdvd, hsquare⟩

/-! ## The loops -/

/-- The inner loop ends. -/
theorem crossOut_end (hw : limit + i < 2 ^ 64) (hj : i * j ≤ limit + i) (hend : limit ≤ i * j) :
    ∃ out, crossOut limit i rounds j buff = .ok out ∧ out.length = buff.length ∧
      ∀ n, out[n]? = if n < limit ∧ i ∣ n ∧ i * j ≤ n then some 0 else buff[n]? := by
  refine ⟨buff, ?_, rfl, fun n => ?_⟩
  · unfold crossOut
    rw [Nat.mod_eq_of_lt (by omega)]
    exact if_neg (by omega)
  · rw [if_neg (by omega)]

/-- The inner loop crosses out the multiples from `i * j` on. -/
theorem crossOut_spec (hi : 0 < i) (hlimit : limit ≤ buff.length) (hw : limit + i < 2 ^ 64) (hj : i * j ≤ limit + i)
    (hrounds : limit ≤ i * j + rounds) : ∃ out, crossOut limit i rounds j buff = .ok out ∧ out.length = buff.length ∧
      ∀ n, out[n]? = if n < limit ∧ i ∣ n ∧ i * j ≤ n then some 0 else buff[n]? := by
  induction rounds generalizing j buff with
  | zero => exact crossOut_end hw hj (by omega)
  | succ rounds ih =>
    by_cases hlt : i * j < limit
    · have hnext : i * (j + 1) = i * j + i := Nat.mul_succ i j
      have hjmod : (j + 1) % 2 ^ 64 = j + 1 := by
        refine Nat.mod_eq_of_lt (lt_of_le_of_lt (Nat.le_mul_of_pos_left (j + 1) hi) ?_)
        omega
      have hput : putChar buff (i * j) 0 = .ok (buff.set (i * j) 0) := if_pos (by omega)
      have hlength : (buff.set (i * j) 0).length = buff.length := List.length_set
      obtain ⟨out, hrun, hout, hbytes⟩ := ih (by omega : limit ≤ (buff.set (i * j) 0).length)
        (by omega : i * (j + 1) ≤ limit + i) (by omega)
      refine ⟨out, ?_, by omega, fun n => ?_⟩
      · rw [crossOut, Nat.mod_eq_of_lt (by omega)]
        rw [if_pos hlt, hput, hjmod]
        exact hrun
      · rw [hbytes n, List.getElem?_set]
        by_cases hn : n < limit ∧ i ∣ n ∧ i * j ≤ n
        · rw [if_pos hn]
          obtain ⟨hlimitn, ⟨k, rfl⟩, hle⟩ := hn
          have hjk : j ≤ k := Nat.le_of_mul_le_mul_left hle hi
          rcases Nat.eq_or_lt_of_le hjk with h | h
          · subst h
            rw [if_neg (by omega), if_pos rfl, if_pos (by omega)]
          · rw [if_pos ⟨hlimitn, Nat.dvd_mul_right i k, Nat.mul_le_mul_left i h⟩]
        · rw [if_neg hn, if_neg (fun h => hn ⟨h.1, h.2.1, by omega⟩), if_neg]
          rintro rfl
          exact hn ⟨hlt, Nat.dvd_mul_right i j, le_rfl⟩
    · exact crossOut_end hw hj (by omega)

/-- What the buffer holds before the loop gets to `i`. -/
structure Sieved (limit i : ℕ) (before buff : List UInt8) : Prop where
  length_eq : buff.length = before.length
  marks : ∀ n, 2 ≤ n → n < limit → (Crossed i n → buff[n]? = some 0) ∧ (¬Crossed i n → buff[n]? = some 1)
  frame : ∀ n, limit ≤ n → buff[n]? = before[n]?

variable {before : List UInt8}

/-- One round of the outer loop. -/
theorem sieved_step (h : Sieved limit i before buff) (hi : 2 ≤ i) (hlimit : limit ≤ before.length)
    (hw : limit + i < 2 ^ 64) (hsquare : i * i ≤ limit) :
    ∃ out, crossOutMarked limit i buff = .ok out ∧ Sieved limit (i + 1) before out := by
  have hilt : i < limit := by
    have := Nat.mul_le_mul_right i hi
    omega
  have hlength := h.length_eq
  obtain ⟨hcrossed, hmarked⟩ := h.marks i hi hilt
  unfold crossOutMarked charAt
  by_cases hprime : i.Prime
  · obtain ⟨out, hrun, hout, hbytes⟩ := crossOut_spec (by omega) (by omega : limit ≤ buff.length) hw
      (by omega : i * i ≤ limit + i) (by omega : limit ≤ i * i + limit)
    refine ⟨out, ?_, by omega, fun n hn hlt => ?_, fun n hn => ?_⟩
    · rw [hmarked (fun hc => (crossed_self hi).1 hc hprime)]
      exact hrun
    · obtain ⟨hzero, hone⟩ := h.marks n hn hlt
      rw [crossed_succ, hbytes n]
      by_cases hmultiple : i ∣ n ∧ i * i ≤ n
      · rw [if_pos ⟨hlt, hmultiple⟩]
        exact ⟨fun _ => rfl, fun hnot => absurd (.inr ⟨hprime, hmultiple⟩) hnot⟩
      · rw [if_neg (fun hc => hmultiple hc.2)]
        refine ⟨fun hc => hzero (hc.resolve_right (fun hr => hmultiple hr.2)), fun hnot => hone (fun hc => hnot (.inl hc))⟩
    · rw [hbytes n, if_neg (by omega)]
      exact h.frame n hn
  · refine ⟨buff, ?_, hlength, fun n hn hlt => ?_, h.frame⟩
    · rw [hcrossed ((crossed_self hi).2 hprime)]
      rfl
    · have hsame : Crossed (i + 1) n ↔ Crossed i n := by
        rw [crossed_succ]
        exact or_iff_left (fun hr => hprime hr.1)
      rw [hsame]
      exact h.marks n hn hlt

/-- The squares do not wrap up to the first that is beyond the limit. -/
theorem square_lt (hw : limit < 2 ^ 63) (hbelow : (i - 1) * (i - 1) ≤ limit) : i < 2 ^ 32 ∧ i * i < 2 ^ 64 := by
  have hsmall : i < 2 ^ 32 := by
    by_contra hlarge
    have := Nat.mul_le_mul (show 2 ^ 32 - 1 ≤ i - 1 by omega) (show 2 ^ 32 - 1 ≤ i - 1 by omega)
    omega
  have := Nat.mul_le_mul (show i ≤ 2 ^ 32 - 1 by omega) (show i ≤ 2 ^ 32 - 1 by omega)
  exact ⟨hsmall, by omega⟩

/-- The outer loop goes on to a number whose square is beyond the limit. -/
theorem sieve_spec (h : Sieved limit i before buff) (hi : 2 ≤ i) (hlimit : limit ≤ before.length) (hw : limit < 2 ^ 63)
    (hbelow : (i - 1) * (i - 1) ≤ limit) (hrounds : limit < i + rounds) :
    ∃ out j, sieve limit rounds i buff = .ok out ∧ limit < j * j ∧ Sieved limit j before out := by
  induction rounds generalizing i buff with
  | zero =>
    obtain ⟨hsmall, hsquare⟩ := square_lt hw hbelow
    have hself := Nat.le_mul_self i
    refine ⟨buff, i, ?_, by omega, h⟩
    unfold sieve
    rw [Nat.mod_eq_of_lt hsquare, if_neg (by omega)]
  | succ rounds ih =>
    obtain ⟨hsmall, hsquare⟩ := square_lt hw hbelow
    by_cases hle : i * i ≤ limit
    · obtain ⟨next, hrun, hnext⟩ := sieved_step h hi hlimit (by omega) hle
      obtain ⟨out, j, hloop, hj, hout⟩ := ih hnext (by omega) hle (by omega)
      refine ⟨out, j, ?_, hj, hout⟩
      rw [sieve, Nat.mod_eq_of_lt hsquare, if_pos hle, hrun, Nat.mod_eq_of_lt (by omega)]
      exact hloop
    · refine ⟨buff, i, ?_, by omega, h⟩
      rw [sieve, Nat.mod_eq_of_lt hsquare, if_neg hle]

/-- **The sieve**: the primes below the limit are marked with 1 and the composite numbers with 0, for every buffer that
has as many bytes as the limit says. No other byte of it is changed. -/
theorem findPrimes_spec (buff : CharBuffer) (hlimit : 1 < limit) (hlength : limit ≤ buff.bytes.length) :
    ∃ out, findPrimes limit (some buff.bytes) = .ok out ∧ out.length = buff.bytes.length ∧
      (∀ i, 2 ≤ i → i < limit → (i.Prime → out[i]? = some 1) ∧ (¬i.Prime → out[i]? = some 0)) ∧
      ∀ i, limit ≤ i → out[i]? = buff.bytes[i]? := by
  have hw := buff.length_lt
  have hset : memset buff.bytes 1 limit = .ok (List.replicate limit 1 ++ buff.bytes.drop limit) := if_pos hlength
  have hstart : Sieved limit 2 buff.bytes (List.replicate limit 1 ++ buff.bytes.drop limit) := by
    refine ⟨?_, fun n hn hlt => ?_, fun n hn => ?_⟩
    · rw [List.length_append, List.length_replicate, List.length_drop]
      omega
    · rw [List.getElem?_append_left (by rwa [List.length_replicate]), List.getElem?_replicate_of_lt hlt]
      refine ⟨?_, fun _ => rfl⟩
      rintro ⟨p, hp, hlt, -⟩
      exact absurd hp.two_le (by omega)
    · rw [List.getElem?_append_right (by rwa [List.length_replicate]), List.length_replicate, List.getElem?_drop]
      congr 1
      omega
  obtain ⟨out, j, hrun, hj, hout⟩ := sieve_spec hstart le_rfl hlength (by omega) (by omega) (by omega : limit < 2 + limit)
  refine ⟨out, ?_, hout.length_eq, fun i hi hlt => ?_, hout.frame⟩
  · unfold findPrimes
    rw [if_pos hlimit]
    dsimp only
    rw [hset]
    exact hrun
  · obtain ⟨hzero, hone⟩ := hout.marks i hi hlt
    have hcrossed := crossed_iff hi (by omega : i < j * j)
    exact ⟨fun hprime => hone (fun hc => hcrossed.1 hc hprime), fun hprime => hzero (hcrossed.2 hprime)⟩

theorem findPrimes_spec_ten : ∃ out, findPrimes 10 (some (List.replicate 12 7)) = .ok out ∧ out.length = 12 ∧
    (∀ i, 2 ≤ i → i < 10 → (i.Prime → out[i]? = some 1) ∧ (¬i.Prime → out[i]? = some 0)) ∧
    ∀ i, 10 ≤ i → out[i]? = (List.replicate 12 (7 : UInt8))[i]? :=
  findPrimes_spec ⟨List.replicate 12 7, by decide⟩ (by decide) (by decide)

example : findPrimes 10 (some (List.replicate 12 7)) = .ok [1, 1, 1, 1, 0, 1, 0, 1, 0, 0, 7, 7] := by decide

end Libtarp.Math
