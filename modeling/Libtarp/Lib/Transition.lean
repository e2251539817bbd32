import Mathlib.Logic.Relation
import Mathlib.Tactic.Common

/-!
# Systems that take one event at a time

`step e s` is the state after the event `e`, and `none` where `e` cannot happen in `s`.

* `Reaches`: the states that an interleaving of events leads to, when every event of it meets
  a condition; `Free` is no condition.
* `runEvents`: the state after a list of events, to exhibit one interleaving (`exists_of_events`,
  `exists_of_checked`).
* `Reaches.invariant`: what one step keeps, every reached state has.
* `Reaches.relate`: a relation that every step respects relates the two ends.
-/

namespace Libtarp.Lib

variable {σ ε : Type*}

/-- `s'` is reached from `s` by events that all meet `C` where they happen. -/
inductive Reaches (step : ε → σ → Option σ) (C : ε → σ → Prop) (s₀ : σ) : σ → Prop
  | start : Reaches step C s₀ s₀
  | next {e : ε} {s s' : σ} : Reaches step C s₀ s → C e s → step e s = some s' → Reaches step C s₀ s'

/-- No condition on the events. -/
def Free : ε → σ → Prop := fun _ _ => True

/-- The state after a list of events. -/
def runEvents (step : ε → σ → Option σ) : List ε → σ → Option σ
  | [], s => some s
  | e :: es, s => (step e s).bind (runEvents step es)

variable {step : ε → σ → Option σ} {C : ε → σ → Prop} {s₀ s s' : σ} {e : ε}

theorem Reaches.trans (h : Reaches step C s₀ s) (h' : Reaches step C s s') : Reaches step C s₀ s' := by
  induction h' with
  | start => exact h
  | next _ hc hs ih => exact ih.next hc hs

theorem reaches_of_step (hc : C e s) (h : step e s = some s') : Reaches step C s s' := Reaches.start.next hc h

/-- Every event of a list meets the condition wherever it happens. -/
theorem reaches_of_forall {es : List ε} (hc : ∀ e ∈ es, ∀ s, C e s) (h : runEvents step es s = some s') :
    Reaches step C s s' := by
  induction es generalizing s with
  | nil =>
    obtain rfl := Option.some.inj h
    exact .start
  | cons e es ih =>
    obtain ⟨s₁, h₁, h₂⟩ := Option.bind_eq_some_iff.1 h
    exact (reaches_of_step (hc e List.mem_cons_self s) h₁).trans (ih (fun d hd => hc d (List.mem_cons_of_mem _ hd)) h₂)

theorem reaches_of_run {es : List ε} (h : runEvents step es s = some s') : Reaches step Free s s' :=
  reaches_of_forall (fun _ _ _ => trivial) h

/-- What the events of a list keep holds after them. -/
theorem run_invariant {I : σ → Prop} {es : List ε} (hstep : ∀ e ∈ es, ∀ s s', I s → step e s = some s' → I s')
    (h : runEvents step es s = some s') (h₀ : I s) : I s' := by
  induction es generalizing s with
  | nil =>
    obtain rfl := Option.some.inj h
    exact h₀
  | cons e es ih =>
    obtain ⟨s₁, h₁, h₂⟩ := Option.bind_eq_some_iff.1 h
    exact ih (fun d hd => hstep d (List.mem_cons_of_mem _ hd)) h₂ (hstep e List.mem_cons_self _ _ h₀ h₁)

/-- One list of events shows that a state with a decidable property can be reached. -/
theorem exists_of_events {P : σ → Prop} [DecidablePred P] (es : List ε)
    (h : (runEvents step es s).any (fun s => decide (P s)) = true) : ∃ s', Reaches step Free s s' ∧ P s' := by
  cases hrun : runEvents step es s with
  | none =>
    rw [hrun] at h
    cases h
  | some s' =>
    rw [hrun] at h
    exact ⟨s', reaches_of_run hrun, of_decide_eq_true h⟩

/-- The same under a condition that can be checked at every event. -/
theorem exists_of_checked [∀ e s, Decidable (C e s)] {P : σ → Prop} [DecidablePred P] (es : List ε)
    (h : (runEvents (fun e s => if C e s then step e s else none) es s).any (fun s => decide (P s)) = true) :
    ∃ s', Reaches step C s s' ∧ P s' := by
  obtain ⟨s', hreach, hs'⟩ := exists_of_events es h
  refine ⟨s', ?_, hs'⟩
  clear h hs'
  induction hreach with
  | start => exact .start
  | next _ _ hs ih =>
    split_ifs at hs with hc
    exact ih.next hc hs

/-- **The invariant rule.** -/
theorem Reaches.invariant {I : σ → Prop} (hstep : ∀ e s s', I s → C e s → step e s = some s' → I s')
    (h : Reaches step C s₀ s) (h₀ : I s₀) : I s := by
  induction h with
  | start => exact h₀
  | next _ hc hs ih => exact hstep _ _ _ ih hc hs

/-- The invariant rule for a relation between the first state and the last. -/
theorem Reaches.relate {I : σ → Prop} {R : σ → σ → Prop} (hrefl : ∀ s, R s s)
    (htrans : ∀ s₁ s₂ s₃, R s₁ s₂ → R s₂ s₃ → R s₁ s₃)
    (hstep : ∀ e s s', I s → C e s → step e s = some s' → I s' ∧ R s s') (h : Reaches step C s₀ s)
    (h₀ : I s₀) : R s₀ s := by
  have hboth : I s ∧ R s₀ s := by
    induction h with
    | start => exact ⟨h₀, hrefl _⟩
    | next _ hc hs ih =>
      obtain ⟨hi, hr⟩ := hstep _ _ _ ih.1 hc hs
      exact ⟨hi, htrans _ _ _ ih.2 hr⟩
  exact hboth.2

end Libtarp.Lib
