import Libtarp.Pipeline.Stage
import Mathlib.Data.UInt
import Mathlib.Data.List.GetD

/-!
# The counter (`pipeline.hxx`)

`m_current_value + 1 % m_modulus` is the value plus `1 % m_modulus`, so that with a modulus above 1 the value does not
wrap round at the modulus but at `2 ^ 64`.

* `outputs_counter`: what the stage puts out.
* `divides_iff`: it is one for every `m_modulus` inputs if the modulus is 1, or not reached.
-/

namespace Libtarp.Pipeline

/-- `counter`. -/
structure Counter where
  monotonicOutput : UInt64
  modulus : UInt64
  currentValue : UInt64
  deriving DecidableEq

/-- The constructor. -/
def Counter.new (modulus : UInt64) : Except String Counter :=
  if modulus ≤ 0 then .error "Invalid counter modulus (0)"
  else .ok { monotonicOutput := 1, modulus := modulus, currentValue := 0 }

/-- `counter::process_input`. -/
def Counter.processInput (_ : UInt64) (c : Counter) : Counter × Option UInt64 :=
  let c := { c with currentValue := c.currentValue + 1 % c.modulus }
  if c.currentValue ≠ 0 then (c, none) else (c, some c.monotonicOutput)

/-- One output for every `modulus` inputs: on every one whose number is a multiple of it. -/
structure Divides (modulus : UInt64) (inputs : List UInt64) (results : List (Option UInt64)) : Prop where
  emitted : (results.filterMap id).length = inputs.length / modulus.toNat
  each : ∀ i < inputs.length, results[i]? = some (if modulus.toNat ∣ i + 1 then some 1 else none)

variable {modulus : UInt64}

/-- After how many inputs the value is zero. -/
def period (modulus : UInt64) : ℕ := if modulus = 1 then 1 else 2 ^ 64

/-- The invariant: the value is the number of inputs, or stays zero where the modulus is 1. -/
def Counts (modulus : UInt64) (past : List UInt64) (c : Counter) : Prop :=
  c = ⟨1, modulus, if modulus = 1 then 0 else UInt64.ofNat past.length⟩

theorem ofNat_eq_zero_iff (n : ℕ) : UInt64.ofNat n = 0 ↔ 2 ^ 64 ∣ n := by
  rw [← UInt64.toNat_inj, UInt64.toNat_ofNat']
  exact (Nat.dvd_iff_mod_eq_zero ..).symm

theorem one_mod (hpos : 0 < modulus) (hne : modulus ≠ 1) : 1 % modulus = 1 := by
  have hlt : 1 < modulus.toNat := by
    have hpos := UInt64.lt_iff_toNat_lt.1 hpos
    have hne := mt UInt64.toNat_inj.1 hne
    have hzero : (0 : UInt64).toNat = 0 := rfl
    have hone : (1 : UInt64).toNat = 1 := rfl
    omega
  apply UInt64.toNat_inj.1
  rw [UInt64.toNat_mod]
  exact Nat.mod_eq_of_lt hlt

/-- **One input.** -/
theorem Counts.step (hpos : 0 < modulus) (past : List UInt64) (value : UInt64) (c : Counter)
    (h : Counts modulus past c) :
    Counts modulus (past ++ [value]) (c.processInput value).1 ∧
      (c.processInput value).2 = if period modulus ∣ (past ++ [value]).length then some 1 else none := by
  unfold Counts at h ⊢
  rw [List.length_append, List.length_singleton]
  subst h
  by_cases hone : modulus = 1
  · subst hone
    have hdvd : period 1 ∣ past.length + 1 := one_dvd _
    have hzero : Counter.processInput value ⟨1, 1, 0⟩ = (⟨1, 1, 0⟩, some 1) := rfl
    rw [if_pos hdvd, if_pos rfl, if_pos rfl, hzero]
    exact ⟨rfl, rfl⟩
  unfold Counter.processInput period
  dsimp only
  rw [if_neg hone, if_neg hone, if_neg hone, one_mod hpos hone]
  have hnext : UInt64.ofNat past.length + 1 = UInt64.ofNat (past.length + 1) := (UInt64.ofNat_add ..).symm
  rw [hnext]
  by_cases hzero : UInt64.ofNat (past.length + 1) = 0
  · rw [if_neg (not_not.2 hzero), if_pos ((ofNat_eq_zero_iff _).1 hzero)]
    exact ⟨rfl, rfl⟩
  · rw [if_pos hzero, if_neg (mt (ofNat_eq_zero_iff _).2 hzero)]
    exact ⟨rfl, rfl⟩

/-- **What the counter puts out**: one for every `period modulus` inputs. -/
theorem outputs_counter (hpos : 0 < modulus) (inputs : List UInt64) :
    outputs Counter.processInput inputs (Stage.new ⟨1, modulus, 0⟩) =
      (List.range inputs.length).map fun i => if period modulus ∣ i + 1 then some 1 else none := by
  have h0 : Counts modulus [] ⟨1, modulus, 0⟩ := by
    unfold Counts
    exact congrArg (Counter.mk 1 modulus) (ite_self _).symm
  rw [outputs_eq_of_step (Counts modulus) (fun past => if period modulus ∣ past.length then some 1 else none)
    (Counts.step hpos) h0]
  apply List.map_congr_left
  intro i hi
  have hlt : i + 1 ≤ inputs.length := List.mem_range.1 hi
  rw [List.length_take_of_le hlt]

/-- The multiples of a number among the first ones. -/
theorem length_filterMap_dvd (d n : ℕ) (one : UInt64) :
    (((List.range n).map fun i => if d ∣ i + 1 then some one else none).filterMap id).length = n / d := by
  induction n with
  | zero => rw [Nat.zero_div]; rfl
  | succ n ih =>
    rw [List.range_succ, List.map_append, List.filterMap_append, List.length_append, ih, Nat.succ_div,
      List.map_singleton]
    split_ifs
    · rfl
    · rfl

/-- **The counter divides** by its modulus if that is 1, and until it is reached for the first time. -/
theorem divides_iff (hpos : 0 < modulus) (inputs : List UInt64) :
    (∃ c, Counter.new modulus = .ok c ∧
        Divides modulus inputs (outputs Counter.processInput inputs (Stage.new c))) ↔
      modulus = 1 ∨ inputs.length < modulus.toNat := by
  have hnew : Counter.new modulus = .ok ⟨1, modulus, 0⟩ := if_neg (UInt64.not_le.2 hpos)
  have hone : 0 < modulus.toNat := UInt64.lt_iff_toNat_lt.1 hpos
  have hget : ∀ i < inputs.length, (outputs Counter.processInput inputs (Stage.new ⟨1, modulus, 0⟩))[i]? =
      some (if period modulus ∣ i + 1 then some 1 else none) := by
    intro i hi
    rw [outputs_counter hpos, List.getElem?_map, List.getElem?_range hi]
    rfl
  constructor
  · rintro ⟨c, hc, hdivides⟩
    obtain rfl := Except.ok.inj (hnew.symm.trans hc)
    by_contra hnot
    obtain ⟨hne, hle⟩ := not_or.1 hnot
    -- the input at which the value is to wrap round
    have hi : modulus.toNat - 1 < inputs.length := by omega
    have hsucc : modulus.toNat - 1 + 1 = modulus.toNat := by omega
    have heach := hdivides.each _ hi
    rw [hget _ hi, hsucc, if_pos dvd_rfl] at heach
    have hperiod : period modulus = 2 ^ 64 := if_neg hne
    have hnever : ¬period modulus ∣ modulus.toNat := by
      rw [hperiod]
      exact Nat.not_dvd_of_pos_of_lt hone modulus.toNat_lt
    rw [if_neg hnever] at heach
    exact absurd heach (by simp)
  · intro h
    have hsame : ∀ i < inputs.length, period modulus ∣ i + 1 ↔ modulus.toNat ∣ i + 1 := by
      intro i hi
      rcases h with rfl | hlt
      · exact Iff.rfl
      · by_cases hmod : modulus = 1
        · rw [hmod]
          exact Iff.rfl
        · have hperiod : period modulus = 2 ^ 64 := if_neg hmod
          have hbound := modulus.toNat_lt
          rw [hperiod]
          exact iff_of_false (Nat.not_dvd_of_pos_of_lt (by omega) (by omega))
            (Nat.not_dvd_of_pos_of_lt (by omega) (by omega))
    refine ⟨_, hnew, ?_, ?_⟩
    · rw [outputs_counter hpos, ← length_filterMap_dvd modulus.toNat inputs.length 1]
      congr 2
      apply List.map_congr_left
      intro i hi
      rw [if_congr (hsame i (List.mem_range.1 hi)) rfl rfl]
    · intro i hi
      rw [hget i hi, if_congr (hsame i hi) rfl rfl]

/-- A counter with modulus 3 and two inputs. -/
theorem divides_iff_three : 0 < (3 : UInt64) ∧ ((∃ c, Counter.new 3 = .ok c ∧
    Divides 3 [7, 7] (outputs Counter.processInput [7, 7] (Stage.new c))) ↔
      (3 : UInt64) = 1 ∨ [(7 : UInt64), 7].length < (3 : UInt64).toNat) :=
  ⟨by decide, divides_iff (by decide) [7, 7]⟩

/-- **Two inputs and no output**, with modulus 2. -/
theorem silent_at_two : ¬∃ c, Counter.new 2 = .ok c ∧
    Divides 2 [7, 7] (outputs Counter.processInput [7, 7] (Stage.new c)) := by
  rintro ⟨c, hc, hdivides⟩
  obtain rfl : (⟨1, 2, 0⟩ : Counter) = c := Except.ok.inj hc
  exact absurd hdivides.emitted (by decide)

end Libtarp.Pipeline
