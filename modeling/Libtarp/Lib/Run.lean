import Mathlib.Data.List.Infix
import Mathlib.Tactic.Common

/-!
# Runs of a machine that answers calls

A machine takes a call in a state and either answers it, in a new state, or faults.

* `runCalls`: a list of calls, one after the other.
* `Meets`: every call of a run satisfies a condition in the state it is made in.
* `After`: a property of the state after every call of a run.
* `Each`: a property of every single call of a run (the state before it, its answer
  and the state after it).
* `Throughout`: a property of the state after every call, unless the run is stopped.
* `Always`: a property of every call that is made in a run, with its outcome, be it a fault.
* `endsIn`: a test of the state a run ends in.
* `replies`: all that the caller sees of a run.
* `lockstep_of_step`: machines that answer and fault alike look alike to the caller.
* `Simulates`: the machine answers as a transition system may, and the states after every call correspond.
* `after_of_step`, `each_of_step`, `throughout_of_step`, `simulates_of_step`, `simulates_of_spec`: they follow from
  one step lemma by induction on the calls. The invariant may depend on how many calls were made before.
* `after_iff_meets`: a property holds throughout a run exactly when its calls meet a condition.
-/

namespace Libtarp.Lib

variable {σ ι ρ φ : Type*}

/-- The calls of a list, made in order. -/
def runCalls (exec : ι → σ → Except φ (σ × ρ)) : List ι → σ → Except φ (σ × List ρ)
  | [], s => .ok (s, [])
  | c :: cs, s =>
    match exec c s with
    | .error e => .error e
    | .ok (s', r) =>
      match runCalls exec cs s' with
      | .error e => .error e
      | .ok (s'', rs) => .ok (s'', r :: rs)

/-- Every call is made in a state where `ok` admits it. -/
def Meets (exec : ι → σ → Except φ (σ × ρ)) (ok : ι → σ → Prop) : List ι → σ → Prop
  | [], _ => True
  | c :: cs, s => ok c s ∧ ∀ s' r, exec c s = .ok (s', r) → Meets exec ok cs s'

/-- After every call of the run (and before the first) the state satisfies `P`. In
particular no call faults. -/
def After (exec : ι → σ → Except φ (σ × ρ)) (P : σ → Prop) (cs : List ι) (s : σ) : Prop :=
  ∀ pre, pre <+: cs → ∃ s' rs, runCalls exec pre s = .ok (s', rs) ∧ P s'

/-- Every call of the run is answered, and satisfies `P` together with the states around it. -/
def Each (exec : ι → σ → Except φ (σ × ρ)) (P : ι → σ → ρ → σ → Prop) (cs : List ι) (s : σ) : Prop :=
  ∀ pre c, pre ++ [c] <+: cs → ∃ s₁ rs s₂ r, runCalls exec pre s = .ok (s₁, rs) ∧
    exec c s₁ = .ok (s₂, r) ∧ P c s₁ r s₂

variable {exec : ι → σ → Except φ (σ × ρ)} {ok : ι → σ → Prop}

theorem runCalls_cons {c : ι} {cs : List ι} {s s' s'' : σ} {r : ρ} {rs : List ρ}
    (h : exec c s = .ok (s', r)) (hs : runCalls exec cs s' = .ok (s'', rs)) :
    runCalls exec (c :: cs) s = .ok (s'', r :: rs) := by
  simp only [runCalls, h, hs]

/-- The call is made, and the rest of the list in the state after it. -/
theorem Meets.cons {c : ι} {cs : List ι} {s s' : σ} {r : ρ} (hc : ok c s) (he : exec c s = .ok (s', r))
    (h : Meets exec ok cs s') : Meets exec ok (c :: cs) s := by
  refine ⟨hc, fun s'' r' he' => ?_⟩
  obtain ⟨rfl, -⟩ := Prod.mk.inj (Except.ok.inj (he.symm.trans he'))
  exact h

theorem Meets.last {c : ι} {s : σ} (hc : ok c s) : Meets exec ok [c] s := ⟨hc, fun _ _ _ => trivial⟩

theorem Meets.take {cs pre : List ι} {s : σ} (h : Meets exec ok cs s) (hp : pre <+: cs) :
    Meets exec ok pre s := by
  induction pre generalizing cs s with
  | nil => trivial
  | cons c pre ih =>
    obtain ⟨suf, rfl⟩ := hp
    exact ⟨h.1, fun s' r hr => ih (h.2 s' r hr) ⟨suf, rfl⟩⟩

theorem meets_of_forall {cs : List ι} (h : ∀ c ∈ cs, ∀ s, ok c s) (s : σ) : Meets exec ok cs s := by
  induction cs generalizing s with
  | nil => trivial
  | cons c cs ih =>
    exact ⟨h c (List.mem_cons_self ..) s, fun s' _ _ => ih (fun d hd => h d (List.mem_cons_of_mem _ hd)) s'⟩

/-- A condition on the calls alone, where every call is answered. -/
theorem meets_iff_forall {Q : ι → Prop} (total : ∀ c s, ∃ s' r, exec c s = .ok (s', r)) (cs : List ι) (s : σ) :
    Meets exec (fun c _ => Q c) cs s ↔ ∀ c ∈ cs, Q c := by
  induction cs generalizing s with
  | nil => exact ⟨fun _ => List.forall_mem_nil _, fun _ => trivial⟩
  | cons c cs ih =>
    obtain ⟨s', r, hr⟩ := total c s
    rw [List.forall_mem_cons]
    constructor
    · rintro ⟨hc, hcs⟩
      exact ⟨hc, (ih s').1 (hcs s' r hr)⟩
    · rintro ⟨hc, hcs⟩
      exact ⟨hc, fun s₁ _ _ => (ih s₁).2 hcs⟩

theorem meets_free (cs : List ι) (s : σ) : Meets exec (fun _ _ => True) cs s :=
  meets_of_forall (fun _ _ _ => trivial) s

/-- **The run lemma.** `Inv n s` says what holds in state `s` after `n` calls; if one call
keeps it, so does a run. -/
theorem run_of_step {Inv : ℕ → σ → Prop} {N : ℕ}
    (step : ∀ n c s, n < N → Inv n s → ok c s → ∃ s' r, exec c s = .ok (s', r) ∧ Inv (n + 1) s') :
    ∀ (cs : List ι) (n : ℕ) (s : σ), n + cs.length ≤ N → Inv n s → Meets exec ok cs s →
      ∃ s' rs, runCalls exec cs s = .ok (s', rs) ∧ Inv (n + cs.length) s' := by
  intro cs
  induction cs with
  | nil => intro n s _ hi _; exact ⟨s, [], rfl, hi⟩
  | cons c cs ih =>
    intro n s hn hi hm
    simp only [List.length_cons] at hn
    obtain ⟨s₁, r, hr, hi₁⟩ := step n c s (by omega) hi hm.1
    obtain ⟨s₂, rs, hrs, hi₂⟩ := ih (n + 1) s₁ (by omega) hi₁ (hm.2 s₁ r hr)
    refine ⟨s₂, r :: rs, runCalls_cons hr hrs, ?_⟩
    rw [List.length_cons, show n + (cs.length + 1) = n + 1 + cs.length by omega]
    exact hi₂

theorem after_of_step (Inv : ℕ → σ → Prop) {P : σ → Prop} {cs : List ι} {s : σ}
    (step : ∀ n c s, n < cs.length → Inv n s → ok c s →
      ∃ s' r, exec c s = .ok (s', r) ∧ Inv (n + 1) s')
    (post : ∀ n s, Inv n s → P s) (h0 : Inv 0 s) (hm : Meets exec ok cs s) : After exec P cs s := by
  intro pre hp
  obtain ⟨s', rs, hr, hi⟩ := run_of_step step pre 0 s (by simpa using hp.length_le) h0 (hm.take hp)
  exact ⟨s', rs, hr, post _ _ hi⟩

/-- The state a prefix of a run ends in admits the call that follows the prefix. -/
theorem Meets.next {pre : List ι} {c : ι} {s s' : σ} {rs : List ρ}
    (h : Meets exec ok (pre ++ [c]) s) (hr : runCalls exec pre s = .ok (s', rs)) : ok c s' := by
  induction pre generalizing s rs with
  | nil =>
    simp only [runCalls, Except.ok.injEq, Prod.mk.injEq] at hr
    rw [← hr.1]; exact h.1
  | cons d pre ih =>
    simp only [runCalls] at hr
    split at hr
    · cases hr
    · rename_i s₁ r₁ h₁
      split at hr
      · cases hr
      · rename_i s₂ rs₂ h₂
        simp only [Except.ok.injEq, Prod.mk.injEq] at hr
        obtain ⟨rfl, -⟩ := hr
        exact ih (h.2 _ _ h₁) h₂

/-- Two conditions that come to the same for each call, as long as the first holds, come to the same for a run. -/
theorem meets_iff_meets (Inv : ℕ → σ → Prop) {P Q : ι → σ → Prop} {cs : List ι} {s : σ}
    (step : ∀ n c s, n < cs.length → Inv n s → ok c s →
      (P c s ↔ Q c s) ∧ (P c s → ∀ s' r, exec c s = .ok (s', r) → Inv (n + 1) s'))
    (h0 : Inv 0 s) (hm : Meets exec ok cs s) : Meets exec P cs s ↔ Meets exec Q cs s := by
  have run : ∀ (ds : List ι) (n : ℕ) (s : σ), n + ds.length ≤ cs.length → Inv n s → Meets exec ok ds s →
      (Meets exec P ds s ↔ Meets exec Q ds s) := by
    intro ds
    induction ds with
    | nil => exact fun _ _ _ _ _ => Iff.rfl
    | cons c ds ih =>
      intro n s hn hi hm
      simp only [List.length_cons] at hn
      obtain ⟨hiff, hnext⟩ := step n c s (by omega) hi hm.1
      have hrest : P c s → ∀ s' r, exec c s = .ok (s', r) → (Meets exec P ds s' ↔ Meets exec Q ds s') :=
        fun hP s' r hr => ih (n + 1) s' (by omega) (hnext hP s' r hr) (hm.2 s' r hr)
      constructor
      · rintro ⟨hP, hds⟩
        exact ⟨hiff.1 hP, fun s' r hr => (hrest hP s' r hr).1 (hds s' r hr)⟩
      · rintro ⟨hQ, hds⟩
        exact ⟨hiff.2 hQ, fun s' r hr => (hrest (hiff.2 hQ) s' r hr).2 (hds s' r hr)⟩
  exact run cs 0 s (by omega) h0 hm

theorem each_of_step (Inv : ℕ → σ → Prop) {P : ι → σ → ρ → σ → Prop} {cs : List ι} {s : σ}
    (step : ∀ n c s, n < cs.length → Inv n s → ok c s →
      ∃ s' r, exec c s = .ok (s', r) ∧ Inv (n + 1) s' ∧ P c s r s')
    (h0 : Inv 0 s) (hm : Meets exec ok cs s) : Each exec P cs s := by
  intro pre c hp
  have hlen : pre.length < cs.length := by
    have := hp.length_le
    simp only [List.length_append, List.length_cons, List.length_nil] at this; omega
  have hpre : pre <+: cs := (List.prefix_append pre [c]).trans hp
  obtain ⟨s₁, rs, hr, hi⟩ := run_of_step (N := cs.length)
    (fun n c s hn hi hok => by
      obtain ⟨s', r, hr, hi', -⟩ := step n c s hn hi hok
      exact ⟨s', r, hr, hi'⟩)
    pre 0 s (by omega) h0 (hm.take hpre)
  obtain ⟨s₂, r, hr₂, -, hP⟩ := step pre.length c s₁ hlen (by simpa using hi) ((hm.take hp).next hr)
  exact ⟨s₁, rs, s₂, r, hr, hr₂, hP⟩

/-- After every call of the run (and before the first) the state satisfies `P`, unless a call
was stopped for a reason that `stops` names. -/
def Throughout (exec : ι → σ → Except φ (σ × ρ)) (stops : ι → φ → Prop) (P : σ → Prop) (cs : List ι)
    (s : σ) : Prop :=
  ∀ pre, pre <+: cs → (∃ s' rs, runCalls exec pre s = .ok (s', rs) ∧ P s') ∨
    ∃ c ∈ pre, ∃ e, runCalls exec pre s = .error e ∧ stops c e

theorem throughout_of_step (Inv : ℕ → σ → Prop) {stops : ι → φ → Prop} {P : σ → Prop} {cs : List ι} {s : σ}
    (step : ∀ n c s, n < cs.length → Inv n s → ok c s →
      (∃ s' r, exec c s = .ok (s', r) ∧ Inv (n + 1) s') ∨ ∃ e, exec c s = .error e ∧ stops c e)
    (post : ∀ n s, Inv n s → P s) (h0 : Inv 0 s) (hm : Meets exec ok cs s) :
    Throughout exec stops P cs s := by
  have run : ∀ (ds : List ι) (n : ℕ) (s : σ), n + ds.length ≤ cs.length → Inv n s → Meets exec ok ds s →
      (∃ s' rs, runCalls exec ds s = .ok (s', rs) ∧ Inv (n + ds.length) s') ∨
        ∃ c ∈ ds, ∃ e, runCalls exec ds s = .error e ∧ stops c e := by
    intro ds
    induction ds with
    | nil => intro n s _ hi _; exact .inl ⟨s, [], rfl, hi⟩
    | cons c ds ih =>
      intro n s hn hi hm
      simp only [List.length_cons] at hn
      rcases step n c s (by omega) hi hm.1 with ⟨s₁, r, hr, hi₁⟩ | ⟨e, he, hs⟩
      · rcases ih (n + 1) s₁ (by omega) hi₁ (hm.2 s₁ r hr) with ⟨s₂, rs, hrs, hi₂⟩ | ⟨d, hd, e, he, hs⟩
        · refine .inl ⟨s₂, r :: rs, runCalls_cons hr hrs, ?_⟩
          rw [List.length_cons, show n + (ds.length + 1) = n + 1 + ds.length by omega]
          exact hi₂
        · exact .inr ⟨d, List.mem_cons_of_mem _ hd, e, by simp only [runCalls, hr, he], hs⟩
      · exact .inr ⟨c, List.mem_cons_self .., e, by simp only [runCalls, he], hs⟩
  intro pre hp
  rcases run pre 0 s (by simpa using hp.length_le) h0 (hm.take hp) with ⟨s', rs, hr, hi⟩ | h
  · exact .inl ⟨s', rs, hr, post _ _ hi⟩
  · exact .inr h

theorem After.tail {P : σ → Prop} {c : ι} {cs : List ι} {s s' : σ} {r : ρ} (h : After exec P (c :: cs) s)
    (hr : exec c s = .ok (s', r)) : After exec P cs s' := by
  intro pre hp
  obtain ⟨s₂, rs, hrun, hP⟩ := h (c :: pre) (by simpa using hp)
  simp only [runCalls, hr] at hrun
  split at hrun
  · cases hrun
  · rename_i s₃ rs₃ h₃
    simp only [Except.ok.injEq, Prod.mk.injEq] at hrun
    obtain ⟨rfl, -⟩ := hrun
    exact ⟨s₃, rs₃, h₃, hP⟩

/-- **The condition is exact**: where a call that it does not admit leads to a state without
`P`, the runs after whose every call `P` holds are those whose calls it admits. -/
theorem after_iff_meets (Inv : σ → Prop) {P : σ → Prop} {cs : List ι} {s : σ}
    (step : ∀ c s, Inv s → ∃ s' r, exec c s = .ok (s', r) ∧ (ok c s → Inv s') ∧ (P s' → ok c s))
    (post : ∀ s, Inv s → P s) (h0 : Inv s) : After exec P cs s ↔ Meets exec ok cs s := by
  constructor
  · intro h
    induction cs generalizing s with
    | nil => trivial
    | cons c cs ih =>
      obtain ⟨s', r, he, hkeep, hback⟩ := step c s h0
      have htail := h.tail he
      obtain ⟨s₁, rs₁, h₁, hP⟩ := htail [] (List.nil_prefix ..)
      simp only [runCalls, Except.ok.injEq, Prod.mk.injEq] at h₁
      have hok := hback (h₁.1 ▸ hP)
      refine ⟨hok, fun s₂ r₂ h₂ => ?_⟩
      obtain ⟨rfl, -⟩ := Prod.mk.inj (Except.ok.inj (he.symm.trans h₂))
      exact ih (hkeep hok) htail
  · intro hm
    refine after_of_step (fun _ s => Inv s) ?_ (fun _ s hi => post s hi) h0 hm
    intro n c s _ hi hok
    obtain ⟨s', r, he, hkeep, -⟩ := step c s hi
    exact ⟨s', r, he, hkeep hok⟩

/-- Every call that is made in the run has an outcome as `P` asks, in the state it is made in. -/
def Always (exec : ι → σ → Except φ (σ × ρ)) (P : ι → σ → Except φ (σ × ρ) → Prop) (cs : List ι) (s : σ) : Prop :=
  ∀ pre c s' rs, pre ++ [c] <+: cs → runCalls exec pre s = .ok (s', rs) → P c s' (exec c s')

theorem always_cons {P : ι → σ → Except φ (σ × ρ) → Prop} {c : ι} {cs : List ι} {s : σ} :
    Always exec P (c :: cs) s ↔
      P c s (exec c s) ∧ ∀ s' r, exec c s = .ok (s', r) → Always exec P cs s' := by
  constructor
  · intro h
    refine ⟨h [] c s [] ⟨cs, rfl⟩ rfl, ?_⟩
    intro s' r he pre d s'' rs hp hr
    exact h (c :: pre) d s'' (r :: rs) ((List.prefix_cons_inj c).2 hp) (runCalls_cons he hr)
  · rintro ⟨hc, hcs⟩ pre d s'' rs hp hr
    cases pre with
    | nil =>
      obtain ⟨rfl, -⟩ := List.cons_prefix_cons.1 hp
      simp only [runCalls, Except.ok.injEq, Prod.mk.injEq] at hr
      exact hr.1 ▸ hc
    | cons b pre =>
      obtain ⟨rfl, hpre⟩ := List.cons_prefix_cons.1 hp
      simp only [runCalls] at hr
      split at hr
      · cases hr
      · rename_i s' r he
        split at hr
        · cases hr
        · rename_i s₂ rs₂ h₂
          simp only [Except.ok.injEq, Prod.mk.injEq] at hr
          obtain ⟨rfl, -⟩ := hr
          exact hcs s' r he pre d _ _ hpre h₂

/-- **The condition is exact**: a call has the right outcome exactly where the condition admits it. -/
theorem always_iff_meets (Inv : σ → Prop) {P : ι → σ → Except φ (σ × ρ) → Prop} {cs : List ι} {s : σ}
    (step : ∀ c s, Inv s → (P c s (exec c s) ↔ ok c s) ∧ (ok c s → ∀ s' r, exec c s = .ok (s', r) → Inv s'))
    (h0 : Inv s) : Always exec P cs s ↔ Meets exec ok cs s := by
  induction cs generalizing s with
  | nil =>
    refine ⟨fun _ => trivial, ?_⟩
    intro _ pre c s' rs hp
    exact absurd hp.length_le (by simp)
  | cons c cs ih =>
    obtain ⟨hiff, hkeep⟩ := step c s h0
    rw [always_cons, hiff]
    apply and_congr_right
    intro hok
    exact forall_congr' fun s' => forall_congr' fun r => forall_congr' fun he => ih (hkeep hok s' r he)

/-- The runs of a transition system that answers the calls. -/
inductive Runs {τ : Type*} (Step : ι → τ → ρ → τ → Prop) : List ι → τ → List ρ → τ → Prop
  | nil (t : τ) : Runs Step [] t [] t
  | cons {c : ι} {cs : List ι} {t t' t'' : τ} {r : ρ} {rs : List ρ} (step : Step c t r t') (run : Runs Step cs t' rs t'') :
      Runs Step (c :: cs) t (r :: rs) t''

/-- Where the answers and the next state are computed there is only one run. -/
theorem Runs.runCalls {τ : Type*} {exec' : ι → τ → Except φ (τ × ρ)} {cs : List ι} {t t' : τ} {rs : List ρ}
    (h : Runs (fun c t r t' => exec' c t = .ok (t', r)) cs t rs t') : runCalls exec' cs t = .ok (t', rs) := by
  induction h with
  | nil t => rfl
  | cons step run ih => exact runCalls_cons step ih

/-- After every call of the run the machine is where the transition system can be, after the same answers. -/
def Simulates {τ : Type*} (exec : ι → σ → Except φ (σ × ρ)) (Step : ι → τ → ρ → τ → Prop) (R : σ → τ → Prop)
    (cs : List ι) (s : σ) (t : τ) : Prop :=
  ∀ pre, pre <+: cs → ∃ s' rs t', runCalls exec pre s = .ok (s', rs) ∧ Runs Step pre t rs t' ∧ R s' t'

/-- **The simulation lemma**, where `M cs s t` says that the calls `cs` may be made. -/
theorem simulates_of_kept {τ : Type*} {Step : ι → τ → ρ → τ → Prop} {R : σ → τ → Prop} (Inv : ℕ → σ → τ → Prop)
    (M : List ι → σ → τ → Prop) {cs : List ι} {s : σ} {t : τ}
    (step : ∀ n c ds s t, n < cs.length → Inv n s t → M (c :: ds) s t →
      ∃ s' r t', exec c s = .ok (s', r) ∧ Step c t r t' ∧ Inv (n + 1) s' t' ∧ M ds s' t')
    (post : ∀ n s t, Inv n s t → R s t) (h0 : Inv 0 s t) (hm : ∀ pre, pre <+: cs → M pre s t) :
    Simulates exec Step R cs s t := by
  have run : ∀ (ds : List ι) (n : ℕ) (s : σ) (t : τ), n + ds.length ≤ cs.length → Inv n s t → M ds s t →
      ∃ s' rs t', runCalls exec ds s = .ok (s', rs) ∧ Runs Step ds t rs t' ∧ R s' t' := by
    intro ds
    induction ds with
    | nil => intro n s t _ hi _; exact ⟨s, [], t, rfl, .nil t, post n s t hi⟩
    | cons c ds ih =>
      intro n s t hn hi hm
      simp only [List.length_cons] at hn
      obtain ⟨s₁, r, t₁, hr, hstep, hi₁, hm₁⟩ := step n c ds s t (by omega) hi hm
      obtain ⟨s₂, rs, t₂, hrs, hruns, hR⟩ := ih (n + 1) s₁ t₁ (by omega) hi₁ hm₁
      exact ⟨s₂, r :: rs, t₂, runCalls_cons hr hrs, .cons hstep hruns, hR⟩
  intro pre hp
  exact run pre 0 s t (by simpa using hp.length_le) h0 (hm pre hp)

theorem simulates_of_step {τ : Type*} {Step : ι → τ → ρ → τ → Prop} {R : σ → τ → Prop} (Inv : ℕ → σ → τ → Prop)
    {cs : List ι} {s : σ} {t : τ}
    (step : ∀ n c s t, n < cs.length → Inv n s t → ok c s →
      ∃ s' r t', exec c s = .ok (s', r) ∧ Step c t r t' ∧ Inv (n + 1) s' t')
    (post : ∀ n s t, Inv n s t → R s t) (h0 : Inv 0 s t) (hm : Meets exec ok cs s) :
    Simulates exec Step R cs s t := by
  refine simulates_of_kept Inv (fun cs s _ => Meets exec ok cs s) ?_ post h0 fun _ hp => hm.take hp
  intro n c ds s t hn hi hm
  obtain ⟨s', r, t', hr, hstep, hi'⟩ := step n c s t hn hi hm.1
  exact ⟨s', r, t', hr, hstep, hi', hm.2 s' r hr⟩

/-- The same, where the calls are admitted in the states of a specification that computes its answers. -/
theorem simulates_of_spec {τ : Type*} {spec : ι → τ → Except φ (τ × ρ)} {adm : ι → τ → Prop} {R : σ → τ → Prop}
    (Inv : ℕ → σ → τ → Prop) {cs : List ι} {s : σ} {t : τ}
    (step : ∀ n c s t, n < cs.length → Inv n s t → adm c t →
      ∃ s' r t', exec c s = .ok (s', r) ∧ spec c t = .ok (t', r) ∧ Inv (n + 1) s' t')
    (post : ∀ n s t, Inv n s t → R s t) (h0 : Inv 0 s t) (hm : Meets spec adm cs t) :
    Simulates exec (fun c t r t' => spec c t = .ok (t', r)) R cs s t := by
  refine simulates_of_kept Inv (fun cs _ t => Meets spec adm cs t) ?_ post h0 fun _ hp => hm.take hp
  intro n c ds s t hn hi hm
  obtain ⟨s', r, t', hr, hstep, hi'⟩ := step n c s t hn hi hm.1
  exact ⟨s', r, t', hr, hstep, hi', hm.2 t' r hstep⟩

/-- The run ends without a fault, in a state that passes `P`. -/
def endsIn (exec : ι → σ → Except φ (σ × ρ)) (P : σ → Bool) (cs : List ι) (s : σ) : Bool :=
  match runCalls exec cs s with
  | .ok (s', _) => P s'
  | .error _ => false

theorem exists_of_endsIn {P : σ → Bool} {cs : List ι} {s : σ} (h : endsIn exec P cs s = true) :
    ∃ s' rs, runCalls exec cs s = .ok (s', rs) ∧ P s' = true := by
  unfold endsIn at h
  split at h
  · exact ⟨_, _, ‹_›, h⟩
  · cases h

/-- What the caller sees of a run: the answers, and the fault that ends it, if one does. -/
def replies (exec : ι → σ → Except φ (σ × ρ)) : List ι → σ → List (Except φ ρ)
  | [], _ => []
  | c :: cs, s =>
    match exec c s with
    | .error e => [.error e]
    | .ok (s', r) => .ok r :: replies exec cs s'

theorem replies_head (c : ι) (cs : List ι) (s : σ) :
    (replies exec (c :: cs) s).head? = some ((exec c s).map Prod.snd) := by
  unfold replies
  cases exec c s with
  | error e => rfl
  | ok a => rfl

theorem replies_error {c : ι} {s : σ} {e : φ} (cs : List ι) (h : exec c s = .error e) :
    replies exec (c :: cs) s = [.error e] := by
  unfold replies
  rw [h]

theorem error_of_mem_replies {e : φ} {cs : List ι} {s : σ} (h : .error e ∈ replies exec cs s) :
    ∃ c s', exec c s' = .error e := by
  induction cs generalizing s with
  | nil => cases h
  | cons c cs ih =>
    unfold replies at h
    split at h
    · rename_i e' he
      have hsame := Except.error.inj (List.mem_singleton.1 h)
      exact ⟨c, s, hsame ▸ he⟩
    · rcases List.mem_cons.1 h with h | h
      · cases h
      · exact ih h

/-- Two machines that answer every call alike, and fault alike, where `R` relates their states. -/
theorem lockstep_of_step {τ : Type*} {spec : ι → τ → Except φ (τ × ρ)} {R : σ → τ → Prop}
    (step : ∀ c s t, R s t → (∃ e, exec c s = .error e ∧ spec c t = .error e) ∨
      ∃ s' t' r, exec c s = .ok (s', r) ∧ spec c t = .ok (t', r) ∧ R s' t')
    {s : σ} {t : τ} (h : R s t) (cs : List ι) : replies exec cs s = replies spec cs t ∧
      ∀ s' rs, runCalls exec cs s = .ok (s', rs) → ∃ t', runCalls spec cs t = .ok (t', rs) ∧ R s' t' := by
  induction cs generalizing s t with
  | nil =>
    refine ⟨rfl, fun s' rs hr => ?_⟩
    obtain ⟨rfl, rfl⟩ := Prod.mk.inj (Except.ok.inj hr)
    exact ⟨t, rfl, h⟩
  | cons c cs ih =>
    rcases step c s t h with ⟨e, he, he'⟩ | ⟨s₁, t₁, r, he, he', h₁⟩
    · refine ⟨(replies_error cs he).trans (replies_error cs he').symm, fun s' rs hr => ?_⟩
      simp only [runCalls, he] at hr
      cases hr
    · obtain ⟨hrep, hruns⟩ := ih h₁
      refine ⟨?_, fun s' rs hr => ?_⟩
      · simp only [replies, he, he', hrep]
      · simp only [runCalls, he] at hr
        split at hr
        · cases hr
        · rename_i s₂ rs₂ h₂
          obtain ⟨rfl, rfl⟩ := Prod.mk.inj (Except.ok.inj hr)
          obtain ⟨t₂, ht₂, hR⟩ := hruns _ _ h₂
          exact ⟨t₂, runCalls_cons he' ht₂, hR⟩

end Libtarp.Lib
