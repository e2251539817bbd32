import Libtarp.Math.Equals
import Mathlib.Algebra.BigOperators.Group.List.Basic
import Mathlib.Algebra.Order.Field.Rat
import Mathlib.Tactic.Linarith
import Mathlib.Tactic.Ring

/-!
# Random choices (`random.hxx`)

Weights are rational, and what the generator draws below a sum is given. A weighted choice takes the first cumulative
weight that is not below the draw; a stepped choice calls for a weighted one that there is not.

* `pickIndex_positive`: a positive draw selects a positive weight.
* `choices_iff`: when the choices are right.
-/

namespace Libtarp.Random

open Lib Strings

/-- What stops a choice. -/
inductive PickFault
  | invalidArgument (what : String)
  | undefined (u : Undefined)
  | outside
  | infinite
  deriving DecidableEq, Repr

variable {V : Type}

/-! ## The functions of the source -/

/-- The cumulative weights, and their sum. -/
def cumulate : List ℚ → ℚ → Except PickFault (List ℚ × ℚ)
  | [], sum => .ok ([], sum)
  | w :: weights, sum =>
    if w < 0 then .error (.invalidArgument "Weights must be non-negative")
    else do
      let (cumulative, total) ← cumulate weights (sum + w)
      return ((sum + w) :: cumulative, total)

/-- The index that is selected with what is drawn between 0 and the sum: `std::lower_bound` in the cumulative weights. -/
def pickIndex (weights : List ℚ) (draw : ℚ → ℚ) : Except PickFault ℕ := do
  let (cumulative, sum) ← cumulate weights 0
  if sum ≤ 0 then throw (.invalidArgument "Total weight must be positive")
  else return cumulative.findIdx fun c => !decide (c < draw sum)

def valueAt (values : List V) (index : ℕ) : Except PickFault V :=
  match values[index]? with
  | none => .error .outside
  | some v => .ok v

/-- `weighted_pick`, from values and their weights. -/
def weightedPick (values : List V) (weights : List ℚ) (draw : ℚ → ℚ) : Except PickFault V :=
  if values.length ≠ weights.length then throw (.invalidArgument "Values and weights must have same size")
  else if values = [] then throw (.invalidArgument "Cannot pick from empty vector")
  else do valueAt values (← pickIndex weights draw)

/-- `weighted_pick`, from pairs. It returns the pair where a value is due: only a type that pairs convert to has an
instance, with that conversion. -/
def weightedPickPairs (convert : V × ℚ → V) (values : List (V × ℚ)) (draw : ℚ → ℚ) : Except PickFault V := do
  return convert (← valueAt values (← pickIndex (values.map Prod.snd) draw))

/-- `pick(min, max)`, for an integral type and a drawn number. A range the wrong way round is not defined. -/
def pickRange (min max drawn : ℤ) : Except PickFault ℤ := if min ≤ max then .ok drawn else .error .outside

/-- The `weighted_pick` that a list of braced pairs calls. Neither overload deduces its type from one: there is none. -/
def bracedWeightedPick : Option (List (ℤ × ℚ) → Except PickFault ℤ) := none

/-- `pick(min, max, step)`, with the number that is drawn. It has an instance where its call of `weighted_pick` has a
function. The weights are added up as integers, and a division by a sum of 0 is infinite. -/
def pickStep (called : Option (List (ℤ × ℚ) → Except PickFault ℤ)) (T : IntType) (min max step drawn : ℤ) :
    Option (Except PickFault ℤ) :=
  called.map fun weightedPick =>
    if step ≤ 0 then throw (.invalidArgument "Step must be positive")
    else do
      let range ← (T.operate (· - ·) max min).mapError .undefined
      let nsteps := T.wrap (range.tdiv step)
      let totalWeight ← (T.operate (· + ·) (1 + 1) nsteps).mapError .undefined
      let x ← pickRange 0 nsteps drawn
      if totalWeight = 0 then throw .infinite
      else
        let unit : ℚ := 1 / totalWeight
        weightedPick [(min, unit), (x, nsteps / totalWeight), (max, unit)]

/-! ## Weighted choices -/

variable {weights : List ℚ} {sum : ℚ} {draw : ℚ → ℚ}

/-- The sums of the first weights, from a number on. -/
def partialSums : ℚ → List ℚ → List ℚ
  | _, [] => []
  | sum, w :: weights => (sum + w) :: partialSums (sum + w) weights

theorem cumulate_eq (h : ∀ w ∈ weights, 0 ≤ w) (sum : ℚ) :
    cumulate weights sum = .ok (partialSums sum weights, sum + weights.sum) := by
  induction weights generalizing sum with
  | nil => rw [cumulate, partialSums, List.sum_nil, add_zero]
  | cons w weights ih =>
    rw [cumulate, if_neg (not_lt.2 (h w List.mem_cons_self)), ih (fun v hv => h v (List.mem_cons_of_mem w hv)),
      List.sum_cons, ← add_assoc]
    rfl

theorem pickIndex_eq (h : ∀ w ∈ weights, 0 ≤ w) (hsum : 0 < weights.sum) (draw : ℚ → ℚ) :
    pickIndex weights draw = .ok ((partialSums 0 weights).findIdx fun c => !decide (c < draw weights.sum)) := by
  unfold pickIndex
  rw [cumulate_eq h, zero_add]
  exact if_neg (not_le.2 hsum)

/-- Above the sums before it, a draw selects a positive weight. -/
theorem findIdx_positive {r : ℚ} (hlow : sum < r) (hhigh : r ≤ sum + weights.sum) :
    ∃ w, weights[(partialSums sum weights).findIdx fun c => !decide (c < r)]? = some w ∧ 0 < w := by
  induction weights generalizing sum with
  | nil =>
    rw [List.sum_nil, add_zero] at hhigh
    exact absurd hlow (not_lt.2 hhigh)
  | cons w weights ih =>
    rw [List.sum_cons, ← add_assoc] at hhigh
    rw [partialSums, List.findIdx_cons]
    by_cases h : sum + w < r
    · obtain ⟨v, hv, hpos⟩ := ih h hhigh
      refine ⟨v, ?_, hpos⟩
      rw [decide_eq_true h, Bool.not_true]
      exact hv
    · refine ⟨w, ?_, by linarith⟩
      rw [decide_eq_false h]
      rfl

/-- **Weighted choices**: a weight of 0 is only selected by the draw 0, where it is the first. -/
theorem pickIndex_positive (h : ∀ w ∈ weights, 0 ≤ w) (hdraw : 0 ≤ draw weights.sum)
    (hlt : draw weights.sum < weights.sum) :
    (∃ index w, pickIndex weights draw = .ok index ∧ weights[index]? = some w ∧ 0 < w) ↔
      0 < draw weights.sum ∨ ∃ w, weights.head? = some w ∧ 0 < w := by
  rw [pickIndex_eq h (lt_of_le_of_lt hdraw hlt)]
  generalize draw weights.sum = r at hdraw hlt
  rcases hdraw.lt_or_eq with hpos | rfl
  · obtain ⟨w, hw, hw_pos⟩ := findIdx_positive hpos (by rw [zero_add]; exact hlt.le)
    exact iff_of_true ⟨_, w, rfl, hw, hw_pos⟩ (.inl hpos)
  · cases weights with
    | nil => exact absurd hlt (by rw [List.sum_nil]; exact lt_irrefl 0)
    | cons v weights =>
      have hfirst : (partialSums 0 (v :: weights)).findIdx (fun c => !decide (c < 0)) = 0 := by
        rw [partialSums, List.findIdx_cons, zero_add, decide_eq_false (not_lt.2 (h v List.mem_cons_self))]
        rfl
      rw [hfirst, or_iff_right (lt_irrefl 0), List.head?_cons]
      constructor
      · rintro ⟨index, w, hindex, hw, hw_pos⟩
        obtain rfl := Except.ok.inj hindex
        exact ⟨w, hw, hw_pos⟩
      · rintro ⟨w, hw, hw_pos⟩
        exact ⟨0, w, rfl, hw, hw_pos⟩

/-- Both functions return the value at the index, one of them by way of its pair. -/
theorem weightedPick_eq {values : List V} {index : ℕ} {v : V} {w : ℚ} (hlength : values.length = weights.length)
    (hv : values[index]? = some v) (hw : weights[index]? = some w) (h : pickIndex weights draw = .ok index) :
    weightedPick values weights draw = .ok v ∧
      ∀ convert, weightedPickPairs convert (values.zip weights) draw = .ok (convert (v, w)) := by
  have hne : values ≠ [] := List.ne_nil_of_length_pos (by have := (List.getElem?_eq_some_iff.1 hv).1; omega)
  have hpair : (values.zip weights)[index]? = some (v, w) := List.getElem?_zip_eq_some.2 ⟨hv, hw⟩
  constructor
  · unfold weightedPick valueAt
    rw [if_neg (fun hne => hne hlength), if_neg hne, h]
    simp only [bind, Except.bind, hv]
  · intro convert
    unfold weightedPickPairs valueAt
    rw [List.map_snd_zip hlength.ge, h]
    simp only [bind, Except.bind, hpair]
    rfl

/-! ## Stepped choices -/

variable {T : IntType} {min max step drawn : ℤ}

/-- The values that may be chosen: the maximum, and those a number of steps from the minimum up to it. -/
def OnStep (min max step v : ℤ) : Prop := v = max ∨ ∃ k : ℕ, v = min + k * step ∧ v ≤ max

/-- **The random choices.** A weighted choice selects an index of the list with a positive weight if and only if the
draw or the first weight is positive. A stepped choice returns nothing: its call has no function. -/
theorem choices_iff {values : List V} {r : ℚ → ℚ} (hweights : ∀ w ∈ weights, 0 ≤ w)
    (hlength : values.length = weights.length) (hr : 0 ≤ r weights.sum) (hr_lt : r weights.sum < weights.sum) :
    ((∃ index w v, pickIndex weights r = .ok index ∧ weights[index]? = some w ∧ 0 < w ∧ values[index]? = some v ∧
        weightedPick values weights r = .ok v ∧
        ∀ convert, weightedPickPairs convert (values.zip weights) r = .ok (convert (v, w))) ↔
      0 < r weights.sum ∨ ∃ w, weights.head? = some w ∧ 0 < w) ∧
    ∀ (T : IntType) (min max step drawn : ℤ),
      ¬∃ v, pickStep bracedWeightedPick T min max step drawn = some (.ok v) ∧ OnStep min max step v := by
  constructor
  · rw [← pickIndex_positive hweights hr hr_lt]
    constructor
    · rintro ⟨index, w, v, hindex, hw, hw_pos, -⟩
      exact ⟨index, w, hindex, hw, hw_pos⟩
    · rintro ⟨index, w, hindex, hw, hw_pos⟩
      obtain ⟨hlt, -⟩ := List.getElem?_eq_some_iff.1 hw
      have hv : values[index]? = some values[index] := List.getElem?_eq_getElem (hlength ▸ hlt)
      exact ⟨index, w, values[index], hindex, hw, hw_pos, hv, weightedPick_eq hlength hv hw hindex⟩
  · rintro T min max step drawn ⟨v, hv, -⟩
    cases hv

theorem choices_iff_half :
    ((∃ index w v, pickIndex [0, 1] (fun s => s / 2) = .ok index ∧ ([0, 1] : List ℚ)[index]? = some w ∧ 0 < w ∧
        [false, true][index]? = some v ∧ weightedPick [false, true] [0, 1] (fun s => s / 2) = .ok v ∧
        ∀ convert, weightedPickPairs convert ([false, true].zip [0, 1]) (fun s => s / 2) = .ok (convert (v, w))) ↔
      0 < ([0, 1] : List ℚ).sum / 2 ∨ ∃ w : ℚ, ([0, 1] : List ℚ).head? = some w ∧ 0 < w) ∧
    ∀ (T : IntType) (min max step drawn : ℤ),
      ¬∃ v, pickStep bracedWeightedPick T min max step drawn = some (.ok v) ∧ OnStep min max step v :=
  choices_iff (r := fun s => s / 2) (by decide) rfl (by norm_num) (by norm_num)

/-- The draw 0 selects a first value of weight 0, and `pick<int>(10, 20, 5)` has no instance. -/
theorem not_choices : pickIndex [0, 1] (fun _ => 0) = .ok 0 ∧ ([0, 1] : List ℚ)[0]? = some 0 ∧
    weightedPick [false, true] [0, 1] (fun _ => 0) = .ok false ∧
    ∀ drawn, pickStep bracedWeightedPick .int32 10 20 5 drawn = none := by
  refine ⟨by decide +kernel, rfl, by decide +kernel, fun drawn => rfl⟩

end Libtarp.Random
