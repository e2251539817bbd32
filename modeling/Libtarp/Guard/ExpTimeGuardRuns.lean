import Libtarp.Guard.ExpTimeGuard

/-!
# Runs of guards with an exponential interval (`ExpTimeGuard` in `timeguard.hxx`)

A guard is shifted, reset and disabled in any order. Its intervals are counted since it was constructed or last reset.

* `Exponential`: what the intervals are to be.
* `Counted`: the invariant, by the number of intervals.
* `exponential_iff`: the shifts and resets after which the intervals are right.
-/

namespace Libtarp.Guard

open Lib

/-! ## Calls -/

inductive ExpCall
  | shift (numIntervals : ℕ)
  | reset (now : Ticks)
  | disable
  | up (now : Ticks)

/-- `disable`. -/
def TimeGuard.disable (g : TimeGuard) : TimeGuard := { g with enabled := false }

/-- A guard, and the intervals by which its end has advanced since it was constructed or last reset. -/
structure Advanced where
  guard : ExpTimeGuard
  advances : List Ticks

/-- A guard that has been constructed or reset. -/
def Advanced.start (now : Ticks) (g : ExpTimeGuard) : Advanced where
  guard := g
  advances := if g.1.startLow then [] else [g.1.nextTimepoint - now]

def ExpCall.does (shifted : ℕ → BitVec 32) (c : ExpCall) (s : Advanced) : Except Empty (Advanced × Option Bool) :=
  match c with
  | .shift numIntervals =>
    .ok ({ guard := Guard.shift (ExpTimeGuard.advance shifted) numIntervals s.guard
           advances := s.advances ++ moves (ExpTimeGuard.advance shifted) (performed numIntervals s.guard.1) s.guard },
      none)
  | .reset now => .ok (Advanced.start now (s.guard.initializeGuard shifted now), none)
  | .disable => .ok ({ s with guard := (s.guard.1.disable, s.guard.2) }, none)
  | .up now => .ok ({ s with guard := ((s.guard.1.isUp now).1, s.guard.2) }, some (s.guard.1.isUp now).2)

/-- What the intervals are to be. -/
def Exponential (interval : Ticks) (base : UInt32) (s : Advanced) : Prop :=
  ∀ j a, s.advances[j]? = some a → Representable (base.toNat ^ j * interval.toInt) →
    a.toInt = base.toNat ^ j * interval.toInt

/-- A call after which the intervals are right. A reset of a guard that starts high advances it by the factor of the
index that it has reached. -/
def Keeps (shifted : ℕ → BitVec 32) (interval : Ticks) (base : UInt32) (startLow : Bool) (c : ExpCall) (s : Advanced) :
    Prop :=
  match c with
  | .shift numIntervals => Exact interval base startLow (s.advances.length + performed numIntervals s.guard.1)
  | .reset _ => startLow = true ∨ interval * s.guard.2.factor shifted = interval
  | .disable => True
  | .up _ => True

variable {shifted : ℕ → BitVec 32} {undef : TimeGuard} {interval : Ticks} {base : UInt32} {startLow : Bool}
  {maxIntervals : Int32} {l : ℕ} {s : Advanced}

/-- The intervals that a guard has had, by the index. -/
def powers (shifted : ℕ → BitVec 32) (interval : Ticks) (base : UInt32) (startLow : Bool) (l : ℕ) : List Ticks :=
  (List.range l).map fun j => interval * ExpFields.factor shifted ⟨base, j - ahead startLow⟩

/-- A guard that has had a number of intervals. Those that it makes when it is initialised are not in the index. -/
structure Counted (shifted : ℕ → BitVec 32) (interval : Ticks) (base : UInt32) (startLow : Bool)
    (maxIntervals : Int32) (l : ℕ) (s : Advanced) : Prop where
  baseInterval : s.guard.1.baseInterval = interval
  low : s.guard.1.startLow = startLow
  limit : s.guard.1.maxIntervals = maxIntervals
  left : s.guard.1.intervalsLeft + l = maxIntervals.toInt.toNat
  initialized : ahead startLow ≤ l
  fields : s.guard.2 = ⟨base, l - ahead startLow⟩
  advances : s.advances = powers shifted interval base startLow l

theorem powers_length : (powers shifted interval base startLow l).length = l := by
  unfold powers
  rw [List.length_map, List.length_range]

theorem Counted.lt (h : Counted shifted interval base startLow maxIntervals l s) : l < 2 ^ 31 := by
  have hleft := h.left
  have hlt := maxIntervals.toInt_lt
  omega

/-- **The intervals are right up to their number.** -/
theorem Counted.right_iff (h : Counted shifted interval base startLow maxIntervals l s) :
    Exponential interval base s ↔ Exact interval base startLow l := by
  have hlt := h.lt
  have hiff : (∀ j < l, RightAt shifted interval base startLow j) ↔ Exact interval base startLow l :=
    right_iff_exact (by omega)
  rw [← hiff]
  unfold Exponential RightAt
  rw [h.advances]
  unfold powers
  constructor
  · intro hall j hj
    apply hall j
    rw [List.getElem?_map, List.getElem?_range hj, Option.map_some]
  · intro hall j a ha
    rw [List.getElem?_map] at ha
    obtain ⟨i, hi, rfl⟩ := Option.map_eq_some_iff.1 ha
    obtain ⟨hj, hji⟩ := List.getElem?_eq_some_iff.1 hi
    rw [List.getElem_range] at hji
    rw [List.length_range] at hj
    exact hji ▸ hall j hj

/-! ## Steps -/

theorem advance_steps : Steps (ExpTimeGuard.advance shifted)
    (fun e interval => interval * e.factor shifted) ExpFields.next := fun _ => rfl

theorem next_iterate {i k : ℕ} (h : k + i < 2 ^ 64) : ExpFields.next^[i] ⟨base, k⟩ = ⟨base, k + i⟩ := by
  induction i with
  | zero => rfl
  | succ i ih =>
    rw [Function.iterate_succ_apply', ih (by omega)]
    unfold ExpFields.next
    dsimp only
    rw [Nat.mod_eq_of_lt (by omega), Nat.add_assoc]

theorem powers_append (hahead : ahead startLow ≤ l) (n : ℕ) :
    powers shifted interval base startLow l ++
        (List.range n).map (fun i => interval * ExpFields.factor shifted ⟨base, l - ahead startLow + i⟩) =
      powers shifted interval base startLow (l + n) := by
  unfold powers
  rw [List.range_add, List.map_append, List.map_map]
  congr 1
  apply List.map_congr_left
  intro i _
  dsimp only [Function.comp]
  rw [Nat.sub_add_comm hahead]

/-- **A shift**, by the intervals that are left. -/
theorem Counted.shift (h : Counted shifted interval base startLow maxIntervals l s) (numIntervals : ℕ) :
    Counted shifted interval base startLow maxIntervals (l + performed numIntervals s.guard.1)
      { guard := Guard.shift (ExpTimeGuard.advance shifted) numIntervals s.guard
        advances :=
          s.advances ++ moves (ExpTimeGuard.advance shifted) (performed numIntervals s.guard.1) s.guard } := by
  have hleft := h.left
  have hlt := maxIntervals.toInt_lt
  have hle : performed numIntervals s.guard.1 ≤ s.guard.1.intervalsLeft := by
    unfold performed
    split_ifs
    · exact Nat.zero_le _
    · exact Nat.min_le_left ..
  have hmoves : moves (ExpTimeGuard.advance shifted) (performed numIntervals s.guard.1) s.guard =
      (List.range (performed numIntervals s.guard.1)).map fun i =>
        interval * ExpFields.factor shifted ⟨base, l - ahead startLow + i⟩ := by
    rw [advance_steps.moves_eq, h.fields, h.baseInterval]
    apply List.map_congr_left
    intro i hi
    have hlast := List.mem_range.1 hi
    rw [next_iterate (by omega)]
  have hnext : ExpFields.next^[performed numIntervals s.guard.1] s.guard.2 =
      ⟨base, l + performed numIntervals s.guard.1 - ahead startLow⟩ := by
    rw [h.fields, next_iterate (by omega), Nat.sub_add_comm h.initialized]
  -- whether the guard is disabled by the shift does not matter
  obtain ⟨enabled, up, next, heq⟩ := advance_steps.shift_kept numIntervals s.guard
  rw [heq, hmoves, hnext, h.advances, powers_append h.initialized]
  refine ⟨h.baseInterval, h.low, h.limit, ?_, h.initialized.trans (Nat.le_add_right ..), rfl, rfl⟩
  dsimp only
  omega

/-- A guard without its state, in the state that it starts in. -/
theorem Counted.start (now : Ticks) {g : ExpTimeGuard} (hbase : g.1.baseInterval = interval)
    (hlow : g.1.startLow = startLow) (hlimit : g.1.maxIntervals = maxIntervals)
    (hleft : g.1.intervalsLeft + ahead startLow = maxIntervals.toInt.toNat) (hfields : g.2 = ⟨base, 0⟩)
    (htimepoint : startLow = false → g.1.nextTimepoint - now = interval) :
    Counted shifted interval base startLow maxIntervals (ahead startLow) (Advanced.start now g) := by
  refine ⟨hbase, hlow, hlimit, hleft, le_refl _, ?_, ?_⟩
  · rw [Nat.sub_self]
    exact hfields
  · unfold Advanced.start powers
    rw [hlow]
    cases startLow with
    | true => rfl
    | false =>
      dsimp only
      rw [htimepoint rfl]
      change [interval] = [interval * ExpFields.factor shifted ⟨base, 0⟩]
      rw [factor_zero, mul_one]

/-- **A new guard.** The base class makes the first interval. -/
theorem Counted.new (undef : TimeGuard) (hpos : 0 < maxIntervals) (now : Ticks) :
    Counted shifted interval base startLow maxIntervals (ahead startLow)
      (Advanced.start now (ExpTimeGuard.new undef interval base startLow maxIntervals now)) := by
  have hm := pos_toInt hpos
  obtain ⟨up, left, next, timepoint, heq, rfl, rfl⟩ :=
    periodic_steps.initializeGuard_eq now (g := (undef.members interval startLow maxIntervals, ())) hpos
  unfold ExpTimeGuard.new TimeGuard.new
  rw [heq]
  refine Counted.start now rfl rfl rfl ?_ rfl ?_
  · unfold ahead
    change maxIntervals.toInt.toNat - (if startLow then 0 else 1) + _ = _
    split_ifs <;> omega
  · rintro rfl
    exact (congrArg (· - now) (BitVec.add_comm ..)).trans (BitVec.add_sub_cancel ..)

/-- The first interval of a guard that starts high, when it is reset. -/
theorem Counted.reset_timepoint (h : Counted shifted interval base startLow maxIntervals l s) (hpos : 0 < maxIntervals)
    (now : Ticks) : ∃ g : ExpTimeGuard, s.guard.initializeGuard shifted now = g ∧ g.1.baseInterval = interval ∧
      g.1.startLow = startLow ∧ g.1.maxIntervals = maxIntervals ∧
      g.1.intervalsLeft + ahead startLow = maxIntervals.toInt.toNat ∧ g.2 = ⟨base, 0⟩ ∧
      (startLow = false → g.1.nextTimepoint - now = interval * s.guard.2.factor shifted) := by
  have hm := pos_toInt hpos
  have hsteps : Steps (ExpTimeGuard.advance shifted) (fun e interval => interval * e.factor shifted) ExpFields.next :=
    advance_steps
  obtain ⟨up, left, next, timepoint, heq, rfl, rfl⟩ :=
    hsteps.initializeGuard_eq now (g := s.guard) (h.limit.symm ▸ hpos)
  unfold ExpTimeGuard.initializeGuard
  rw [heq, h.low]
  refine ⟨_, rfl, h.baseInterval, h.low, h.limit, ?_, ?_, ?_⟩
  · dsimp only
    unfold ahead
    rw [h.limit]
    split_ifs <;> omega
  · dsimp only
    rw [h.fields]
    split_ifs <;> rfl
  · rintro rfl
    dsimp only
    rw [h.baseInterval]
    exact (congrArg (· - now) (BitVec.add_comm ..)).trans (BitVec.add_sub_cancel ..)

theorem Counted.disable (h : Counted shifted interval base startLow maxIntervals l s) :
    Counted shifted interval base startLow maxIntervals l { s with guard := (s.guard.1.disable, s.guard.2) } :=
  ⟨h.baseInterval, h.low, h.limit, h.left, h.initialized, h.fields, h.advances⟩

theorem Counted.up (h : Counted shifted interval base startLow maxIntervals l s) (now : Ticks) :
    Counted shifted interval base startLow maxIntervals l { s with guard := ((s.guard.1.isUp now).1, s.guard.2) } := by
  obtain ⟨up, heq⟩ := isUp_eq now s.guard.1
  rw [heq]
  exact ⟨h.baseInterval, h.low, h.limit, h.left, h.initialized, h.fields, h.advances⟩

/-- One interval, or none, is right. -/
theorem exact_ahead : Exact interval base startLow (ahead startLow) := by
  unfold Exact ahead
  cases startLow with
  | true => exact fun _ hl => absurd hl (by decide)
  | false => exact fun hl => absurd hl (by decide)

/-- **A reset.** The first interval of a guard that starts high is to be the interval itself. -/
theorem Counted.reset (h : Counted shifted interval base startLow maxIntervals l s) (hpos : 0 < maxIntervals)
    (now : Ticks) :
    (startLow = true ∨ interval * s.guard.2.factor shifted = interval →
      Counted shifted interval base startLow maxIntervals (ahead startLow)
        (Advanced.start now (s.guard.initializeGuard shifted now))) ∧
    (Exponential interval base (Advanced.start now (s.guard.initializeGuard shifted now)) →
      startLow = true ∨ interval * s.guard.2.factor shifted = interval) := by
  obtain ⟨g, heq, hbase, hlow, hlimit, hleft, hfields, htimepoint⟩ := h.reset_timepoint hpos now
  rw [heq]
  constructor
  · rintro (rfl | hsame)
    · exact Counted.start now hbase hlow hlimit hleft hfields fun hno => absurd hno.symm Bool.false_ne_true
    · exact Counted.start now hbase hlow hlimit hleft hfields fun hhigh => (htimepoint hhigh).trans hsame
  · intro hexp
    cases startLow with
    | true => exact .inl rfl
    | false =>
      have hfirst : (Advanced.start now g).advances[0]? = some (g.1.nextTimepoint - now) := by
        unfold Advanced.start
        rw [hlow]
        rfl
      have hone : ((base.toNat : ℤ) ^ 0 * interval.toInt) = interval.toInt := by rw [pow_zero, one_mul]
      have hrep : Representable ((base.toNat : ℤ) ^ 0 * interval.toInt) := by
        rw [hone]
        exact representable_toInt interval
      have heq := hexp 0 _ hfirst hrep
      rw [hone, htimepoint rfl] at heq
      exact .inr (BitVec.toInt_inj.1 heq)

/-! ## Runs -/

/-- **Every interval is the power of the base that it is to be**, in the runs whose shifts and resets keep it so. -/
theorem exponential_iff (shifted : ℕ → BitVec 32) (undef : TimeGuard) (interval start : Ticks) (base : UInt32)
    (startLow : Bool) (maxIntervals : Int32) (hpos : 0 < maxIntervals) (calls : List ExpCall) :
    After (ExpCall.does shifted) (Exponential interval base) calls
        (Advanced.start start (ExpTimeGuard.new undef interval base startLow maxIntervals start)) ↔
      Meets (ExpCall.does shifted) (Keeps shifted interval base startLow) calls
        (Advanced.start start (ExpTimeGuard.new undef interval base startLow maxIntervals start)) := by
  have hnew : Counted shifted interval base startLow maxIntervals (ahead startLow)
      (Advanced.start start (ExpTimeGuard.new undef interval base startLow maxIntervals start)) :=
    Counted.new undef hpos start
  apply after_iff_meets fun s => Exponential interval base s ∧
    ∃ l, Counted shifted interval base startLow maxIntervals l s
  · rintro c s ⟨hexp, l, h⟩
    cases c with
    | shift numIntervals =>
      have hshift := h.shift numIntervals
      have hlength : s.advances.length = l := by rw [h.advances, powers_length]
      refine ⟨_, _, rfl, ?_, ?_⟩
      · intro hexact
        rw [Keeps, hlength] at hexact
        exact ⟨hshift.right_iff.2 hexact, _, hshift⟩
      · intro hright
        rw [Keeps, hlength]
        exact hshift.right_iff.1 hright
    | reset now =>
      -- the intervals of before do not count any longer
      have hreset := h.reset hpos now
      exact ⟨_, _, rfl, fun hok => ⟨(hreset.1 hok).right_iff.2 exact_ahead, _, hreset.1 hok⟩, hreset.2⟩
    | disable => exact ⟨_, _, rfl, fun _ => ⟨hexp, l, h.disable⟩, fun _ => trivial⟩
    | up now => exact ⟨_, _, rfl, fun _ => ⟨hexp, l, h.up now⟩, fun _ => trivial⟩
  · exact fun s h => h.1
  · exact ⟨hnew.right_iff.2 exact_ahead, _, hnew⟩

/-- Two intervals of a guard that starts low. -/
theorem exponential_iff_low : After (ExpCall.does fun _ => 0) (Exponential 5 2) [.shift 2]
    (Advanced.start 0 (ExpTimeGuard.new ⟨false, 0, 0, false, false, 0, 0, 0⟩ 5 2 true 3 0)) :=
  (exponential_iff _ _ 5 0 2 true 3 (by decide) _).2 ⟨fun _ hl => absurd hl (by decide), fun _ _ _ => trivial⟩

/-- **A guard that starts high has its first interval again**, where the second is to be twice as long. -/
theorem exponential_repeats : ¬After (ExpCall.does fun _ => 0) (Exponential 1 2) [.shift 1]
    (Advanced.start 0 (ExpTimeGuard.new ⟨false, 0, 0, false, false, 0, 0, 0⟩ 1 2 false 3 0)) := by
  intro hall
  obtain ⟨s, rs, hrun, hright⟩ := hall [.shift 1] List.prefix_rfl
  obtain ⟨rfl, -⟩ := Prod.mk.inj (Except.ok.inj hrun)
  have hsecond := hright 1 1 (by decide) ⟨by decide, by decide⟩
  exact absurd hsecond (by decide)

end Libtarp.Guard
