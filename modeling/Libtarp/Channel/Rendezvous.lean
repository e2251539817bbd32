import Libtarp.Channel.Trunk
import Mathlib.Logic.ExistsUnique

/-!
# What a trunk is for

A ledger has, for each call, what it was given to send and how it ends. Three things can
happen to it: a call is refused and gets its value back, a call receives nothing, or a call
that sends and a call that receives end together, and the second has the value of the first.

* `Step.valid`, `Step.settled`: no entry changes once it is there, and every value sent has
  exactly one receiver.
* `Valid.sound`: what a caller can rely on.
-/

namespace Libtarp.Unbuffered

open Function Relation

variable {ι α : Type} [DecidableEq ι]

/-- What the calls were given to send, and how they end. -/
@[ext]
structure Ledger (ι α : Type) where
  input : ι → Option α
  out : ι → Option (Answer ι α)

namespace Ledger

inductive Step : Ledger ι α → Ledger ι α → Prop
  | give {l : Ledger ι α} (t : ι) (x : α) : l.input t = none → l.out t = none →
      Step l { l with input := update l.input t (some x) }
  | refuse {l : Ledger ι α} (t : ι) (x : α) : l.input t = some x → l.out t = none →
      Step l { l with out := update l.out t (some (.pushed false (some ⟨t, x⟩))) }
  | miss {l : Ledger ι α} (r : ι) : l.out r = none → Step l { l with out := update l.out r (some (.got none)) }
  | exchange {l : Ledger ι α} (t r : ι) (x : α) : l.input t = some x → l.out t = none → l.out r = none → t ≠ r →
      Step l { l with out := update (update l.out t (some (.pushed true none))) r (some (.got (some ⟨t, x⟩))) }

/-- The invariant of a ledger: senders and receivers match. -/
structure Valid (l : Ledger ι α) : Prop where
  pushed : ∀ t ok back, l.out t = some (.pushed ok back) → ∃ x, l.input t = some x ∧
    (ok = true ∧ back = none ∧ (∃ r, l.out r = some (.got (some ⟨t, x⟩))) ∨ ok = false ∧ back = some ⟨t, x⟩)
  got : ∀ r v, l.out r = some (.got (some v)) → l.input v.call = some v.payload ∧
    l.out v.call = some (.pushed true none)
  once : ∀ r r' v, l.out r = some (.got (some v)) → l.out r' = some (.got (some v)) → r = r'

/-- What holds of the calls that have ended. -/
structure Sound (l : Ledger ι α) : Prop where
  /-- A send succeeds iff exactly one receive has its value. -/
  succeeds : ∀ t x, l.input t = some x →
    ((∃ back, l.out t = some (.pushed true back)) ↔ ∃! r, l.out r = some (.got (some ⟨t, x⟩)))
  /-- A send that fails has its value back, and no receive has it. -/
  fails : ∀ t x back, l.input t = some x → l.out t = some (.pushed false back) →
    back = some ⟨t, x⟩ ∧ ∀ r, l.out r ≠ some (.got (some ⟨t, x⟩))
  /-- What is received was sent, -/
  origin : ∀ r v, l.out r = some (.got (some v)) → l.input v.call = some v.payload
  /-- and is received once. -/
  once : ∀ r r' v, l.out r = some (.got (some v)) → l.out r' = some (.got (some v)) → r = r'

variable {l l' : Ledger ι α}

/-- How a call ends does not change. -/
theorem Step.settled (h : Step l l') {t : ι} {a : Answer ι α} (ha : l.out t = some a) : l'.out t = some a := by
  have hne : ∀ u, l.out u = none → t ≠ u := by
    rintro u hu rfl
    rw [hu] at ha
    cases ha
  cases h with
  | give u x _ _ => exact ha
  | refuse u x _ hu => exact (update_of_ne (hne u hu) _ _).trans ha
  | miss r hr => exact (update_of_ne (hne r hr) _ _).trans ha
  | exchange u r x _ hu hr _ => exact (update_of_ne (hne r hr) _ _).trans ((update_of_ne (hne u hu) _ _).trans ha)

/-- A step keeps the invariant if it gives out no value that was received before. -/
theorem Valid.of_out (h : Valid l) {t : ι} {a : Answer ι α} (ht : l.out t = none)
    (ha : ∀ ok back, a = .pushed ok back → ∃ x, l.input t = some x ∧ ok = false ∧ back = some ⟨t, x⟩)
    (hg : ∀ v, a ≠ .got (some v)) : Valid { l with out := update l.out t (some a) } := by
  have hold : ∀ r v, update l.out t (some a) r = some (.got (some v)) → l.out r = some (.got (some v)) := by
    intro r v hr
    by_cases hrt : r = t
    · rw [hrt, update_self] at hr
      exact absurd (Option.some.inj hr) (hg v)
    · rwa [update_of_ne hrt] at hr
  have hkeep : ∀ u b, l.out u = some b → update l.out t (some a) u = some b := by
    intro u b hu
    rw [update_of_ne, hu]
    rintro rfl
    rw [ht] at hu
    cases hu
  refine ⟨?_, ?_, fun r r' v hr hr' => h.once r r' v (hold r v hr) (hold r' v hr')⟩
  · intro u ok back hu
    by_cases hut : u = t
    · subst hut
      obtain ⟨x, hx, hrest⟩ := ha ok back (Option.some.inj ((update_self u (some a) l.out).symm.trans hu))
      exact ⟨x, hx, .inr hrest⟩
    · have hu' : l.out u = some (.pushed ok back) := (update_of_ne hut _ _).symm.trans hu
      obtain ⟨x, hx, ⟨hok, hb, r, hr⟩ | hrest⟩ := h.pushed u ok back hu'
      · exact ⟨x, hx, .inl ⟨hok, hb, r, hkeep r _ hr⟩⟩
      · exact ⟨x, hx, .inr hrest⟩
  · intro r v hr
    obtain ⟨hi, ho⟩ := h.got r v (hold r v hr)
    exact ⟨hi, hkeep _ _ ho⟩

/-- **One step keeps the invariant.** -/
theorem Step.valid (h : Step l l') (hv : Valid l) : Valid l' := by
  cases h with
  | give t x hi ho =>
    refine ⟨?_, ?_, hv.once⟩
    · intro u ok back hu
      have hut : u ≠ t := by
        rintro rfl
        exact absurd (hu.symm.trans ho) (by simp)
      show ∃ y, update l.input t (some x) u = some y ∧ _
      rw [update_of_ne hut]
      exact hv.pushed u ok back hu
    · intro r v hr
      obtain ⟨hin, hout⟩ := hv.got r v hr
      refine ⟨?_, hout⟩
      have hvt : v.call ≠ t := by
        intro he
        rw [he, ho] at hout
        cases hout
      show update l.input t (some x) v.call = _
      rw [update_of_ne hvt, hin]
  | refuse t x hi ho =>
    refine hv.of_out ho ?_ (by simp)
    intro ok back he
    obtain ⟨rfl, rfl⟩ := Answer.pushed.inj he
    exact ⟨x, hi, rfl, rfl⟩
  | miss r ho => exact hv.of_out ho (by simp) (by simp)
  | exchange t r x hi ht hr htr =>
    set out' := update (update l.out t (some (.pushed true none))) r (some (.got (some ⟨t, x⟩))) with hout'
    have hat : out' t = some (.pushed true none) := by rw [hout', update_of_ne htr, update_self]
    have har : out' r = some (.got (some ⟨t, x⟩)) := by rw [hout', update_self]
    have hof : ∀ u, u ≠ t → u ≠ r → out' u = l.out u := fun u h1 h2 => by
      rw [hout', update_of_ne h2, update_of_ne h1]
    have hkeep : ∀ u b, l.out u = some b → out' u = some b := by
      intro u b hu
      have h1 : u ≠ t := by
        rintro rfl
        rw [ht] at hu
        cases hu
      have h2 : u ≠ r := by
        rintro rfl
        rw [hr] at hu
        cases hu
      rw [hof u h1 h2, hu]
    -- whoever has a value had it before, or is the receiver of this step
    have hcase : ∀ u v, out' u = some (.got (some v)) → u = r ∧ v = ⟨t, x⟩ ∨ l.out u = some (.got (some v)) := by
      intro u v hu
      by_cases h2 : u = r
      · rw [h2, har] at hu
        exact .inl ⟨h2, by simpa using hu.symm⟩
      · refine .inr ?_
        have h1 : u ≠ t := by
          rintro rfl
          rw [hat] at hu
          cases hu
        rwa [hof u h1 h2] at hu
    -- before the step no one had a value of the sender
    have hnew : ∀ u, l.out u ≠ some (.got (some ⟨t, x⟩)) := by
      intro u hu
      have := (hv.got u _ hu).2
      rw [ht] at this
      cases this
    refine ⟨?_, ?_, ?_⟩
    · intro u ok back hu
      by_cases h1 : u = t
      · subst h1
        rw [show ({ l with out := out' } : Ledger ι α).out u = out' u from rfl, hat] at hu
        obtain ⟨rfl, rfl⟩ := Answer.pushed.inj (Option.some.inj hu)
        exact ⟨x, hi, .inl ⟨rfl, rfl, r, har⟩⟩
      · have h2 : u ≠ r := by
          rintro rfl
          rw [show ({ l with out := out' } : Ledger ι α).out u = out' u from rfl, har] at hu
          cases hu
        obtain ⟨y, hy, ⟨hok, hb, r', hr'⟩ | hrest⟩ := hv.pushed u ok back ((hof u h1 h2).symm.trans hu)
        · exact ⟨y, hy, .inl ⟨hok, hb, r', hkeep r' _ hr'⟩⟩
        · exact ⟨y, hy, .inr hrest⟩
    · intro u v hu
      rcases hcase u v hu with ⟨rfl, rfl⟩ | hu
      · exact ⟨hi, hat⟩
      · obtain ⟨hin, hout⟩ := hv.got u v hu
        exact ⟨hin, hkeep _ _ hout⟩
    · intro u u' v hu hu'
      rcases hcase u v hu with ⟨h1, h2⟩ | hold
      · rcases hcase u' v hu' with ⟨h1', -⟩ | hold'
        · rw [h1, h1']
        · exact (hnew u' (h2 ▸ hold')).elim
      · rcases hcase u' v hu' with ⟨-, h2'⟩ | hold'
        · exact (hnew u (h2' ▸ hold)).elim
        · exact hv.once u u' v hold hold'

omit [DecidableEq ι] in
theorem Valid.sound (h : Valid l) : Sound l := by
  refine ⟨?_, ?_, fun r v hr => (h.got r v hr).1, h.once⟩
  · intro t x hx
    constructor
    · rintro ⟨back, ht⟩
      obtain ⟨y, hy, ⟨-, -, r, hr⟩ | ⟨hno, -⟩⟩ := h.pushed t true back ht
      · obtain rfl : x = y := Option.some.inj (hx.symm.trans hy)
        exact ⟨r, hr, fun r' hr' => h.once r' r _ hr' hr⟩
      · cases hno
    · rintro ⟨r, hr, -⟩
      exact ⟨none, (h.got r _ hr).2⟩
  · intro t x back hx ht
    obtain ⟨y, hy, ⟨hno, -⟩ | ⟨-, hb⟩⟩ := h.pushed t false back ht
    · cases hno
    · obtain rfl : x = y := Option.some.inj (hx.symm.trans hy)
      refine ⟨hb, fun r hr => ?_⟩
      have := (h.got r _ hr).2
      rw [show (Value.mk t x).call = t from rfl, ht] at this
      cases this

end Ledger

end Libtarp.Unbuffered
