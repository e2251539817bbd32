import Libtarp.Pipeline.Stage
import Mathlib.Algebra.BigOperators.Group.List.Basic
import Mathlib.Algebra.Order.Field.Rat
import Mathlib.Tactic.Ring

/-!
# The simple moving average (`pipeline.hxx`)

Numbers are rational. Until the buffer is full for the first time the values are only collected; from then on the
average is changed by what comes in and what goes out.

* `Averages`: the invariant. The buffer holds the last values, and `m_sma` is their mean once there are enough.
* `sma_mean`: what the stage puts out.
-/

namespace Libtarp.Pipeline

/-- `sma`. -/
structure Sma where
  fastpath : Bool
  windowWidth : ℕ
  weight : ℚ
  buffer : List ℚ
  sma : ℚ
  deriving DecidableEq

/-- The constructor. -/
def Sma.new (windowWidth : ℕ) : Except String Sma :=
  if windowWidth = 0 then .error "Invalid window of 0 width"
  else .ok { fastpath := false, windowWidth := windowWidth, weight := 1 / windowWidth, buffer := [], sma := 0 }

/-- `sma::process_input`. -/
def Sma.processInput (input : ℚ) (s : Sma) : Sma × Option ℚ :=
  if s.fastpath = false then
    let s := if s.buffer.length < s.windowWidth then { s with buffer := s.buffer ++ [input] } else s
    if s.buffer.length = s.windowWidth then
      let s := { s with sma := s.buffer.foldl (fun sma elem => sma + s.weight * elem) s.sma, fastpath := true }
      (s, some s.sma)
    else (s, none)
  else
    let buffer := s.buffer ++ [input]
    let oldest := buffer.headD 0
    let s := { s with buffer := buffer.tail, sma := s.weight * input + s.sma - s.weight * oldest }
    (s, some s.sma)

/-- The last `width` of a sequence. -/
def window (width : ℕ) (values : List ℚ) : List ℚ := values.drop (values.length - width)

/-- The mean of the last `width` values, once there are as many. -/
def mean (width : ℕ) (values : List ℚ) : Option ℚ :=
  if values.length < width then none else some ((window width values).sum / width)

variable {width : ℕ}

/-- **The invariant**, after the values `past`. -/
structure Averages (width : ℕ) (past : List ℚ) (s : Sma) : Prop where
  windowWidth : s.windowWidth = width
  weight : s.weight = 1 / width
  buffer : s.buffer = window width past
  fastpath : s.fastpath = true ↔ width ≤ past.length
  sma : s.sma = if width ≤ past.length then (window width past).sum / width else 0

theorem window_length {values : List ℚ} (h : width ≤ values.length) : (window width values).length = width := by
  unfold window
  rw [List.length_drop]
  omega

theorem window_all {values : List ℚ} (h : values.length ≤ width) : window width values = values := by
  unfold window
  rw [Nat.sub_eq_zero_of_le h, List.drop_zero]

/-- The window moves on by one. -/
theorem window_concat {values : List ℚ} (h : width ≤ values.length) (value : ℚ) :
    window width (values ++ [value]) = (window width values ++ [value]).tail := by
  have hsucc : values.length + 1 - width = values.length - width + 1 := Nat.succ_sub h
  unfold window
  rw [List.length_append, List.length_singleton, hsucc, ← List.tail_drop,
    List.drop_append_of_le_length (Nat.sub_le ..)]

/-- The weighted sum of a list. -/
theorem foldl_weight (weight start : ℚ) (values : List ℚ) :
    values.foldl (fun sma elem => sma + weight * elem) start = start + weight * values.sum := by
  induction values generalizing start with
  | nil => rw [List.foldl_nil, List.sum_nil, mul_zero, add_zero]
  | cons value values ih => rw [List.foldl_cons, ih, List.sum_cons, mul_add, add_assoc]

theorem mean_of_lt {values : List ℚ} (h : values.length < width) : mean width values = none := if_pos h

theorem mean_of_le {values : List ℚ} (h : width ≤ values.length) :
    mean width values = some ((window width values).sum / width) := if_neg (Nat.not_lt.2 h)

/-- Values are collected. The one that fills the buffer gives the first average. -/
theorem Averages.collect {past : List ℚ} {s : Sma} (h : Averages width past s) (hslow : past.length < width)
    (value : ℚ) :
    Averages width (past ++ [value]) (s.processInput value).1 ∧
      (s.processInput value).2 = mean width (past ++ [value]) := by
  have hfast : s.fastpath = false := Bool.eq_false_of_not_eq_true fun hf => absurd (h.fastpath.1 hf) (by omega)
  have hbuffer : s.buffer = past := h.buffer.trans (window_all hslow.le)
  have hsma : s.sma = 0 := h.sma.trans (if_neg (Nat.not_le.2 hslow))
  have hlength : (past ++ [value]).length = past.length + 1 := List.length_append
  have hall : window width (past ++ [value]) = past ++ [value] := window_all (by omega)
  unfold Sma.processInput
  rw [if_pos hfast, h.windowWidth, hbuffer, if_pos hslow]
  dsimp only
  -- the input that fills the buffer starts the fast path
  by_cases hfull : past.length + 1 = width
  · have hle : width ≤ (past ++ [value]).length := by omega
    have hfirst : (past ++ [value]).foldl (fun sma elem => sma + s.weight * elem) s.sma =
        (window width (past ++ [value])).sum / width := by
      rw [foldl_weight, hsma, h.weight, hall]
      ring
    rw [if_pos (hlength.trans hfull), mean_of_le hle]
    exact ⟨⟨rfl, h.weight, hall.symm, ⟨fun _ => hle, fun _ => rfl⟩, hfirst.trans (if_pos hle).symm⟩,
      congrArg some hfirst⟩
  · have hlt : (past ++ [value]).length < width := by omega
    have hnot : ¬width ≤ (past ++ [value]).length := Nat.not_le.2 hlt
    rw [if_neg (hlength ▸ hfull), mean_of_lt hlt]
    refine ⟨⟨rfl, h.weight, hall.symm, ?_, hsma.trans (if_neg hnot).symm⟩, rfl⟩
    exact ⟨fun hf => absurd hf (Bool.eq_false_iff.1 hfast), fun hle => absurd hle hnot⟩

/-- The average goes on from the one before. -/
theorem Averages.roll {past : List ℚ} {s : Sma} (h : Averages width past s) (hwidth : 1 ≤ width)
    (hfull : width ≤ past.length) (value : ℚ) :
    Averages width (past ++ [value]) (s.processInput value).1 ∧
      (s.processInput value).2 = mean width (past ++ [value]) := by
  have hfast : s.fastpath = true := h.fastpath.2 hfull
  have hlength : (past ++ [value]).length = past.length + 1 := List.length_append
  have hle : width ≤ (past ++ [value]).length := by omega
  have hne : window width past ≠ [] := by
    intro hnil
    have hzero := window_length hfull
    rw [hnil, List.length_nil] at hzero
    omega
  obtain ⟨oldest, rest, hwindow⟩ := List.exists_cons_of_ne_nil hne
  have hnext : window width (past ++ [value]) = rest ++ [value] := by
    rw [window_concat hfull, hwindow]
    rfl
  have hsma : s.sma = (oldest + rest.sum) / width := by
    rw [h.sma, if_pos hfull, hwindow, List.sum_cons]
  -- the code adds the new value and takes the oldest away, each weighted
  have hrolled : s.weight * value + s.sma - s.weight * oldest = (window width (past ++ [value])).sum / width := by
    rw [hsma, h.weight, hnext, List.sum_append, List.sum_singleton]
    ring
  unfold Sma.processInput
  rw [if_neg (by rw [hfast]; exact Bool.noConfusion), h.buffer, hwindow]
  dsimp only [List.cons_append, List.headD_cons, List.tail_cons]
  rw [hrolled, mean_of_le hle]
  exact ⟨⟨h.windowWidth, h.weight, hnext.symm, ⟨fun _ => hle, fun _ => hfast⟩, (if_pos hle).symm⟩, rfl⟩

/-- **The moving average**: nothing for the first `width - 1` inputs, and for every later one the mean of the last
`width`. -/
theorem sma_mean (hwidth : 1 ≤ width) (inputs : List ℚ) :
    ∃ s, Sma.new width = .ok s ∧ outputs Sma.processInput inputs (Stage.new s) =
      (List.range inputs.length).map fun i => mean width (inputs.take (i + 1)) := by
  have hnew : Sma.new width = .ok ⟨false, width, 1 / width, [], 0⟩ := if_neg (by omega)
  have hnot : ¬width ≤ ([] : List ℚ).length := Nat.not_le.2 hwidth
  refine ⟨_, hnew, outputs_eq_of_step (Averages width) (mean width) ?_ ?_ inputs⟩
  · intro past value s h
    rcases Nat.lt_or_ge past.length width with hslow | hfull
    · exact h.collect hslow value
    · exact h.roll hwidth hfull value
  · exact ⟨rfl, rfl, List.drop_nil.symm, ⟨fun hf => absurd hf Bool.false_ne_true, fun hle => absurd hle hnot⟩,
      (if_neg hnot).symm⟩

/-- A window of two over three inputs. -/
theorem sma_mean_two : ∃ s, Sma.new 2 = .ok s ∧ outputs Sma.processInput [1, 2, 4] (Stage.new s) =
    (List.range 3).map fun i => mean 2 ([1, 2, 4].take (i + 1)) :=
  sma_mean (by decide) [1, 2, 4]

end Libtarp.Pipeline
