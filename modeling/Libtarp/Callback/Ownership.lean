import Libtarp.Callback.Callback

/-!
# Callbacks are values, and own their boxes

`State.owner` is the box an object has to delete. It is unchanged by all that does not bind a callable,
copy, move or destroy, and what these do to it the rules of `Owned` say.

* `Inv`: the boxes belong to the objects, one each, and the two pointers of an object fit together.
* `empty_spec`, `bind_spec`, `point_spec`, `transfer_spec`: what the members do to the values.
* `callbacks_hold_values`: whatever is done to any number of callbacks, they answer as values do.
-/

namespace Libtarp.Callbacks

open Function Lib

variable {ι γ φ μ κ ω α ρ : Type} [DecidableEq ι]

/-! ## What an object stands for -/

/-- The box that the object has to delete. -/
def Callback.owns (c : Callback φ μ κ) : Option ℕ :=
  match c.function, c.context with
  | some .invokeErased, .box a => some a
  | _, _ => none

/-- What it is bound to. -/
def Callback.bound (c : Callback φ μ κ) (boxed : Option γ) : Option (Bound γ φ μ κ) :=
  match c.function with
  | none => none
  | some .invokeErased => boxed.map .callable
  | some (.function func) => some (.function c.context.toUser func)
  | some (.method m) => some (.method c.context.toUser m)

/-- The pointers fit together. -/
def Callback.Fits (c : Callback φ μ κ) : Prop := c.function = some .invokeErased → ∃ a, c.context = .box a

def State.owner (s : State ι γ φ μ κ ω) (i : ι) : Option ℕ := (s.objs i).bind Callback.owns

def State.values (s : State ι γ φ μ κ ω) : Values ι γ φ μ κ ω where
  bound := fun i => (s.objs i).map fun c => c.bound (held s.heap s.owner i)
  world := s.world

structure Inv (s : State ι γ φ μ κ ω) : Prop where
  owned : Owned s.heap s.owner
  fits : ∀ i c, s.objs i = some c → c.Fits

variable {s : State ι γ φ μ κ ω} {i j : ι} {c c' : Callback φ μ κ} {h : Store γ}

omit [DecidableEq ι] in
theorem inv_start (w : ω) : Inv (start w : State ι γ φ μ κ ω) := ⟨owned_empty, fun i c hc => by cases hc⟩

/-- The object `i` becomes `c`, or there is none any more. -/
def State.put (s : State ι γ φ μ κ ω) (h : Store γ) (i : ι) (c : Option (Callback φ μ κ)) : State ι γ φ μ κ ω :=
  { s with heap := h, objs := update s.objs i c }

theorem owner_put (c : Option (Callback φ μ κ)) :
    (s.put h i c).owner = update s.owner i (c.bind Callback.owns) := by
  funext k
  by_cases hk : k = i
  · subst hk
    simp [State.owner, State.put]
  · simp [State.owner, State.put, hk]

/-- The other objects stand for what they did where their boxes hold what they held. -/
theorem values_put {o : Option (Callback φ μ κ)} {b : Option γ}
    (hheld : held h (update s.owner i (o.bind Callback.owns)) = update (held s.heap s.owner) i b) :
    (s.put h i o).values = s.values.set i (o.map fun c => c.bound b) := by
  refine congrArg₂ Values.mk (funext fun k => ?_) rfl
  show (update s.objs i o k).map (fun c => c.bound (held h (s.put h i o).owner k)) = _
  rw [owner_put, hheld]
  by_cases hk : k = i
  · subst hk
    simp
  · simp [hk, State.values]

theorem fits_put (hinv : Inv s) {o : Option (Callback φ μ κ)} (ho : ∀ d, o = some d → d.Fits) :
    ∀ k d, (s.put h i o).objs k = some d → d.Fits := by
  intro k d hd
  change update s.objs i o k = some d at hd
  by_cases hk : k = i
  · subst hk
    rw [update_self] at hd
    exact ho d hd
  · rw [update_of_ne hk] at hd
    exact hinv.fits k d hd

omit [DecidableEq ι] in
theorem Callback.fits_of_ne (hc : c.function ≠ some .invokeErased) : c.Fits := fun h => absurd h hc

omit [DecidableEq ι] in
theorem Callback.owns_of_ne (hc : c.function ≠ some .invokeErased) : c.owns = none := by
  unfold Callback.owns
  split
  · exact absurd ‹_› hc
  · rfl

theorem put_put (s : State ι γ φ μ κ ω) (h h' : Store γ) (i : ι) (o o' : Option (Callback φ μ κ)) :
    (s.put h i o).put h' i o' = s.put h' i o' := by
  unfold State.put
  rw [update_idem]

/-! ## The members -/

/-- An object without a box becomes another one, or comes, or goes. -/
theorem point_spec (hinv : Inv s) (hi : s.owner i = none) {o : Option (Callback φ μ κ)}
    (ho : ∀ d, o = some d → d.function ≠ some .invokeErased) :
    Inv (s.put s.heap i o) ∧ (s.put s.heap i o).values = s.values.set i (o.map fun c => c.bound (none : Option γ)) := by
  have hnone : o.bind Callback.owns = s.owner i := by
    rw [hi]
    cases o with
    | none => rfl
    | some d => exact Callback.owns_of_ne (ho d rfl)
  have hheld : held s.heap s.owner i = none := by
    unfold held
    rw [hi]
    rfl
  refine ⟨⟨?_, fits_put hinv fun d hd => Callback.fits_of_ne (ho d hd)⟩, values_put ?_⟩
  · rw [owner_put, hnone, update_eq_self]
    exact hinv.owned
  · rw [hnone, update_eq_self, ← hheld, update_eq_self]

/-- A callable is put in a new box. -/
theorem bind_spec (hinv : Inv s) (hi : s.owner i = none) (g : γ) :
    Inv (s.put (s.heap.alloc g) i (some ⟨.box s.heap.next, some .invokeErased⟩)) ∧
      (s.put (s.heap.alloc g) i (some ⟨.box s.heap.next, some .invokeErased⟩)).values =
        s.values.set i (some (some (.callable g))) := by
  obtain ⟨howned, hheld⟩ := hinv.owned.alloc hi g
  refine ⟨⟨?_, fits_put hinv ?_⟩, values_put (b := some g) hheld⟩
  · rw [owner_put]
    exact howned
  · intro d hd
    obtain rfl := Option.some.inj hd
    exact fun _ => ⟨_, rfl⟩

/-- **`reset`** deletes the box that is the object's own, if it has one. -/
theorem reset_spec (hinv : Inv s) (hc : s.objs i = some c) :
    ∃ h, reset s.heap c = .ok (h, .empty) ∧ Inv (s.put h i (some .empty)) ∧
      (s.put h i (some .empty)).owner i = none ∧ (s.put h i (some .empty)).values = s.values.set i (some none) := by
  have hown : s.owner i = c.owns := by
    unfold State.owner
    rw [hc]
    rfl
  have hempty : ∀ h, (s.put h i (some .empty)).owner i = none := fun h => by
    rw [owner_put, update_self]
    rfl
  by_cases hf : c.function = some .invokeErased
  · obtain ⟨a, ha⟩ := hinv.fits i c hc hf
    have hi : s.owner i = some a := by
      rw [hown]
      unfold Callback.owns
      rw [hf, ha]
    obtain ⟨h, hr, howned, hheld⟩ := hinv.owned.release hi
    refine ⟨h, ?_, ⟨?_, fits_put hinv ?_⟩, hempty h, values_put hheld⟩
    · unfold reset
      simp only [hf, ha, hr]
    · rw [owner_put]
      exact howned
    · intro d hd
      obtain rfl := Option.some.inj hd
      exact Callback.fits_of_ne (by simp [Callback.empty])
  · have hne : ∀ d : Callback φ μ κ, some Callback.empty = some d → d.function ≠ some .invokeErased := by
      intro d hd
      obtain rfl := Option.some.inj hd
      simp [Callback.empty]
    obtain ⟨hinv', hval⟩ := point_spec hinv (hown.trans (Callback.owns_of_ne hf)) hne
    refine ⟨s.heap, ?_, hinv', hempty _, hval⟩
    unfold reset
    split
    · exact absurd ‹_› hf
    · rfl

omit [DecidableEq ι] in
/-- What is assigned from, and how it is read, is as it was. -/
theorem values_bound (hj : s.objs j = some c) :
    s.values.bound j = some (c.bound (held s.heap s.owner j)) := by
  show (s.objs j).map _ = _
  rw [hj]
  rfl

omit [DecidableEq ι] in
theorem held_of_box {a : ℕ} (hj : s.objs j = some c) (hf : c.function = some .invokeErased) (ha : c.context = .box a) :
    held s.heap s.owner j = s.heap.read a := by
  have hown : s.owner j = some a := by
    unfold State.owner Callback.owns
    rw [hj]
    simp only [Option.bind_some, hf, ha]
  unfold held
  rw [hown]
  rfl

/-- **Copy assignment** from another object. -/
theorem copyAssign_spec (hne : i ≠ j) {this : Callback φ μ κ} (hj : s.objs j = some c)
    {h₀ : Store γ} (hreset : reset h this = .ok (h₀, .empty)) (hinv₀ : Inv (s.put h₀ i (some .empty)))
    (hfree : (s.put h₀ i (some .empty)).owner i = none)
    (hval : (s.put h₀ i (some .empty)).values = s.values.set i (some none)) :
    ∃ h' d, copyAssign h this c = .ok (h', d) ∧ Inv (s.put h' i (some d)) ∧
      (s.put h' i (some d)).values = s.values.set i (s.values.bound j) := by
  set s₀ := s.put h₀ i (some .empty) with hs₀
  have hj₀ : s₀.objs j = some c := (update_of_ne hne.symm _ _).trans hj
  have hsame : s₀.values.bound j = s.values.bound j := by
    rw [hval]
    exact update_of_ne hne.symm _ _
  have hset : ∀ b, s₀.values.set i b = s.values.set i b := fun b => by
    rw [hval]
    unfold Values.set
    rw [update_idem]
  rw [← hsame, values_bound hj₀]
  by_cases hf : c.function = some .invokeErased
  · obtain ⟨a, ha⟩ := hinv₀.fits j c hj₀ hf
    have hheld := held_of_box hj₀ hf ha
    have howner : s₀.owner j = some a := by
      unfold State.owner Callback.owns
      rw [hj₀]
      simp only [Option.bind_some, hf, ha]
    obtain ⟨g, hg⟩ := hinv₀.owned.read howner
    obtain ⟨hi', hv'⟩ := bind_spec hinv₀ hfree g
    have hbound : c.bound (held s₀.heap s₀.owner j) = some (.callable g) := by
      unfold Callback.bound
      rw [hf, hheld, hg]
      rfl
    rw [hs₀, put_put] at hi' hv'
    refine ⟨_, _, ?_, hi', ?_⟩
    · unfold copyAssign
      have hg' : h₀.read a = some g := hg
      simp only [hreset, hf, ha, hg']
      rfl
    · rw [hbound, ← hset]
      exact hv'
  · obtain ⟨hi', hv'⟩ := point_spec hinv₀ hfree (o := some c) fun d hd => Option.some.inj hd ▸ hf
    have hbound : c.bound (held s₀.heap s₀.owner j) = c.bound (none : Option γ) := by
      unfold Callback.bound
      split
      · rfl
      · exact absurd ‹_› hf
      · rfl
      · rfl
    rw [hs₀, put_put] at hi' hv'
    refine ⟨_, _, ?_, hi', ?_⟩
    · unfold copyAssign
      simp only [hreset]
      rfl
    · rw [hbound, ← hset]
      exact hv'

/-- What is moved from is left unbound. -/
theorem transfer_spec (hinv : Inv s) (hne : i ≠ j) (hi : s.owner i = none) (hj : s.objs j = some c) :
    Inv ((s.put s.heap i (some c)).put s.heap j (some .empty)) ∧
      ((s.put s.heap i (some c)).put s.heap j (some .empty)).values =
        (s.values.set i (s.values.bound j)).set j (some none) := by
  have hown : c.owns = s.owner j := by
    unfold State.owner
    rw [hj]
    rfl
  refine ⟨⟨?_, ?_⟩, ?_⟩
  · rw [owner_put, owner_put, show (some c).bind Callback.owns = s.owner j from hown]
    exact hinv.owned.move hne hi
  · intro k d hd
    change update (update s.objs i (some c)) j (some .empty) k = some d at hd
    by_cases hkj : k = j
    · rw [hkj, update_self] at hd
      obtain rfl := Option.some.inj hd
      exact Callback.fits_of_ne (by simp [Callback.empty])
    · rw [update_of_ne hkj] at hd
      by_cases hki : k = i
      · rw [hki, update_self] at hd
        exact hinv.fits j d (hj.trans hd)
      · rw [update_of_ne hki] at hd
        exact hinv.fits k d hd
  · have hheld : ((some c).bind Callback.owns).bind s.heap.read = held s.heap s.owner j := by
      rw [show (some c).bind Callback.owns = s.owner j from hown]
      rfl
    refine (values_put (s := s.put s.heap i (some c)) (held_update _ _ _ _)).trans ?_
    rw [values_put (held_update _ _ _ _), values_bound hj, hheld]
    rfl

omit [DecidableEq ι] in
/-- **A call** runs what is bound. -/
theorem invoke_spec (code : Code γ φ μ κ ω α ρ) (hinv : Inv s) (hi : s.objs i = some c) (args : α) (w : ω) :
    invoke code s.heap c args w = match c.bound (held s.heap s.owner i) with
      | none => .error .nullCall
      | some b => .ok (b.run code args w) := by
  obtain ⟨context, function⟩ := c
  match function with
  | none => rfl
  | some (.function func) => rfl
  | some (.method m) => rfl
  | some .invokeErased =>
    obtain ⟨a, rfl⟩ := hinv.fits i _ hi rfl
    have howner : s.owner i = some a := by
      unfold State.owner Callback.owns
      rw [hi]
      rfl
    obtain ⟨g, hg⟩ := hinv.owned.read howner
    rw [held_of_box hi rfl rfl, hg]
    simp only [invoke, hg]
    rfl

/-! ## Any calls -/

/-- The two machines do the same, or fault the same way. -/
def Agree (x : Except Fault (State ι γ φ μ κ ω × Answer ρ)) (y : Except Fault (Values ι γ φ μ κ ω × Answer ρ)) : Prop :=
  (∃ e, x = .error e ∧ y = .error e) ∨ ∃ s t r, x = .ok (s, r) ∧ y = .ok (t, r) ∧ Inv s ∧ s.values = t

omit [DecidableEq ι] in
theorem values_none (hi : s.objs i = none) : s.values.bound i = none := by
  show (s.objs i).map _ = none
  rw [hi]
  rfl

omit [DecidableEq ι] in
theorem owner_none (hi : s.objs i = none) : s.owner i = none := by
  unfold State.owner
  rw [hi]
  rfl

/-- A member that binds, or unbinds, one object. -/
theorem on_spec {f : Callback φ μ κ → Except Fault (Store γ × Callback φ μ κ)} {b : Option (Bound γ φ μ κ)}
    (hf : ∀ c, s.objs i = some c → ∃ h d, f c = .ok (h, d) ∧ Inv (s.put h i (some d)) ∧
      (s.put h i (some d)).values = s.values.set i (some b)) :
    Agree (ρ := ρ) (s.on i f)
      (if (s.values.bound i).isNone then .error .noObject else .ok (s.values.set i (some b), .done)) := by
  cases hi : s.objs i with
  | none =>
    rw [values_none hi]
    exact .inl ⟨.noObject, by simp only [State.on, hi], rfl⟩
  | some c =>
    obtain ⟨h, d, hd, hinv, hval⟩ := hf c hi
    rw [values_bound hi]
    exact .inr ⟨_, _, .done, by simp only [State.on, hi, hd]; rfl, rfl, hinv, hval⟩

omit [DecidableEq ι] in
theorem agree_fault {x : Except Fault (State ι γ φ μ κ ω × Answer ρ)} {y : Except Fault (Values ι γ φ μ κ ω × Answer ρ)}
    (e : Fault) (hx : x = .error e) (hy : y = .error e) : Agree x y := .inl ⟨e, hx, hy⟩

theorem set_set (t : Values ι γ φ μ κ ω) (i : ι) (b b' : Option (Option (Bound γ φ μ κ))) :
    (t.set i b).set i b' = t.set i b' := by
  unfold Values.set
  rw [update_idem]

omit [DecidableEq ι] in
theorem empty_plain {d : Callback φ μ κ} (hd : some Callback.empty = some d) : d.function ≠ some .invokeErased := by
  obtain rfl := Option.some.inj hd
  simp [Callback.empty]

/-- After a `reset` the object is pointed elsewhere. -/
theorem clear_spec (hinv : Inv s) (hc : s.objs i = some c) (o : Option (Callback φ μ κ))
    (ho : ∀ d, o = some d → d.function ≠ some .invokeErased) : ∃ h, reset s.heap c = .ok (h, .empty) ∧
      Inv (s.put h i o) ∧ (s.put h i o).values = s.values.set i (o.map fun c => c.bound (none : Option γ)) := by
  obtain ⟨h, hr, hi', hown, hv⟩ := reset_spec hinv hc
  obtain ⟨hi₁, hv₁⟩ := point_spec hi' hown ho
  rw [put_put] at hi₁ hv₁
  exact ⟨h, hr, hi₁, hv₁.trans (by rw [hv, set_set])⟩

variable (code : Code γ φ μ κ ω α ρ)

theorem construct_agrees (hinv : Inv s) (i : ι) : Agree (exec code (.construct i) s) (spec code (.construct i) s.values) := by
  cases hi : s.objs i with
  | some c => exact agree_fault .noObject (by simp only [exec, hi]) (by simp only [spec, values_bound hi])
  | none =>
    obtain ⟨hi₁, hv₁⟩ := point_spec hinv (owner_none hi) (o := some .empty) fun d hd => empty_plain hd
    exact .inr ⟨_, _, .done, exec_construct code hi, spec_construct code (values_none hi), hi₁, hv₁⟩

theorem copyConstruct_agrees (hinv : Inv s) (i j : ι) :
    Agree (exec code (.copyConstruct i j) s) (spec code (.copyConstruct i j) s.values) := by
  cases hi : s.objs i with
  | some c => exact agree_fault .noObject (by simp only [exec, hi]) (by simp only [spec, values_bound hi])
  | none =>
    cases hj : s.objs j with
    | none =>
      exact agree_fault .noObject (by simp only [exec, hi, hj]) (by simp only [spec, values_none hi, values_none hj])
    | some c =>
      have hne : i ≠ j := by
        rintro rfl
        cases hi.symm.trans hj
      -- the new object is empty, and then assigned to
      obtain ⟨hi₁, hv₁⟩ := point_spec hinv (owner_none hi) (o := some .empty) fun d hd => empty_plain hd
      have hreset : reset s.heap (.empty : Callback φ μ κ) = .ok (s.heap, .empty) := rfl
      obtain ⟨h', d, hd, hi₂, hv₂⟩ := copyAssign_spec hne hj hreset hi₁ (by rw [owner_put, update_self]; rfl) hv₁
      refine .inr ⟨_, _, .done, by simp only [exec, hi, hj, hd]; rfl, ?_, hi₂, hv₂⟩
      simp only [spec, values_none hi, values_bound hj]

theorem moveConstruct_agrees (hinv : Inv s) (i j : ι) :
    Agree (exec code (.moveConstruct i j) s) (spec code (.moveConstruct i j) s.values) := by
  cases hi : s.objs i with
  | some c => exact agree_fault .noObject (by simp only [exec, hi]) (by simp only [spec, values_bound hi])
  | none =>
    cases hj : s.objs j with
    | none =>
      exact agree_fault .noObject (by simp only [exec, hi, hj]) (by simp only [spec, values_none hi, values_none hj])
    | some c =>
      have hne : i ≠ j := by
        rintro rfl
        cases hi.symm.trans hj
      obtain ⟨hi₁, hv₁⟩ := transfer_spec hinv hne (owner_none hi) hj
      refine .inr ⟨_, _, .done, by simp only [exec, hi, hj]; rfl, ?_, hi₁, hv₁⟩
      simp only [spec, values_none hi, values_bound hj]

theorem copyAssign_agrees (hinv : Inv s) (i j : ι) :
    Agree (exec code (.copyAssign i j) s) (spec code (.copyAssign i j) s.values) := by
  cases hi : s.objs i with
  | none => exact agree_fault .noObject (by simp only [exec, hi]) (by simp only [spec, values_none hi])
  | some this =>
    cases hj : s.objs j with
    | none =>
      exact agree_fault .noObject (by simp only [exec, hi, hj]) (by simp only [spec, values_bound hi, values_none hj])
    | some c =>
      have hspec : spec code (.copyAssign i j) s.values = .ok (s.values.set i (s.values.bound j), .done) := by
        simp only [spec, values_bound hi, values_bound hj]
      by_cases hij : i = j
      · subst hij
        refine .inr ⟨s, _, .done, by simp [exec, hi], hspec, hinv, ?_⟩
        unfold Values.set
        rw [update_eq_self]
      · obtain ⟨h, hr, hi', ho, hv⟩ := reset_spec hinv hi
        obtain ⟨h', d, hd, hi₂, hv₂⟩ := copyAssign_spec hij hj hr hi' ho hv
        exact .inr ⟨_, _, .done, by simp only [exec, hi, hj, if_neg hij, hd]; rfl, hspec, hi₂, hv₂⟩

theorem moveAssign_agrees (hinv : Inv s) (i j : ι) :
    Agree (exec code (.moveAssign i j) s) (spec code (.moveAssign i j) s.values) := by
  cases hi : s.objs i with
  | none => exact agree_fault .noObject (by simp only [exec, hi]) (by simp only [spec, values_none hi])
  | some this =>
    cases hj : s.objs j with
    | none =>
      exact agree_fault .noObject (by simp only [exec, hi, hj]) (by simp only [spec, values_bound hi, values_none hj])
    | some c =>
      by_cases hij : i = j
      · subst hij
        exact .inr ⟨s, _, .done, by simp [exec, hi], by simp only [spec, values_bound hi, ↓reduceIte], hinv, rfl⟩
      · obtain ⟨h, hr, hi', ho, hv⟩ := reset_spec hinv hi
        obtain ⟨hi₁, hv₁⟩ := transfer_spec hi' hij ho (j := j) (c := c) ((update_of_ne (Ne.symm hij) _ _).trans hj)
        refine .inr ⟨_, (s.values.set i (s.values.bound j)).set j (some none), .done,
          by simp only [exec, hi, hj, if_neg hij, moveAssign, hr]; rfl,
          by simp only [spec, values_bound hi, values_bound hj, if_neg hij], ?_, ?_⟩
        · rw [put_put] at hi₁
          exact hi₁
        · rw [put_put] at hv₁
          refine hv₁.trans ?_
          rw [hv, set_set]
          exact congrArg (fun b => (s.values.set i b).set j (some none)) (update_of_ne (Ne.symm hij) _ _)

omit [DecidableEq ι] in
/-- `operator bool` looks at the function pointer alone. -/
theorem isSome_bound (hinv : Inv s) (hi : s.objs i = some c) :
    (c.bound (held s.heap s.owner i)).isSome = c.function.isSome := by
  obtain ⟨context, function⟩ := c
  match function with
  | none => rfl
  | some (.function func) => rfl
  | some (.method m) => rfl
  | some .invokeErased =>
    obtain ⟨a, rfl⟩ := hinv.fits i _ hi rfl
    obtain ⟨g, hg⟩ := hinv.owned.read (i := i) (a := a) (by unfold State.owner; rw [hi]; rfl)
    rw [held_of_box hi rfl rfl, hg]
    rfl

theorem call_agrees (hinv : Inv s) (i : ι) (args : α) :
    Agree (exec code (.call i args) s) (spec code (.call i args) s.values) := by
  cases hi : s.objs i with
  | none => exact agree_fault .noObject (by simp only [exec, hi]) (by simp only [spec, values_none hi])
  | some c =>
    have hinvoke := invoke_spec code hinv hi args s.world
    cases hb : c.bound (held s.heap s.owner i) with
    | none =>
      rw [hb] at hinvoke
      exact agree_fault .nullCall (by simp only [exec, hi, hinvoke]) (by simp only [spec, values_bound hi, hb])
    | some b =>
      rw [hb] at hinvoke
      exact .inr ⟨{ s with world := (b.run code args s.world).1 }, _, .returned (b.run code args s.world).2,
        by simp only [exec, hi, hinvoke], by simp only [spec, values_bound hi, hb]; rfl, ⟨hinv.owned, hinv.fits⟩, rfl⟩

/-- **One call** does to the values what it is there for. -/
theorem exec_agrees (call : Call ι γ φ μ κ α) (hinv : Inv s) : Agree (exec code call s) (spec code call s.values) := by
  cases call with
  | construct i => exact construct_agrees code hinv i
  | copyConstruct i j => exact copyConstruct_agrees code hinv i j
  | moveConstruct i j => exact moveConstruct_agrees code hinv i j
  | bindCallable i g =>
    refine on_spec fun c hc => ?_
    obtain ⟨h, hr, hi', ho, hv⟩ := reset_spec hinv hc
    obtain ⟨hi₁, hv₁⟩ := bind_spec hi' ho g
    rw [put_put] at hi₁ hv₁
    exact ⟨_, _, by simp only [bindCallable, hr]; rfl, hi₁, hv₁.trans (by rw [hv, set_set])⟩
  | bindFunction i obj func =>
    refine on_spec fun c hc => ?_
    obtain ⟨h, hr, hi₁, hv₁⟩ := clear_spec hinv hc (some ⟨.user obj, some (.function func)⟩)
      fun e he => by obtain rfl := Option.some.inj he; simp
    refine ⟨_, _, by simp only [bindFunction, hr], hi₁, hv₁.trans ?_⟩
    cases obj <;> rfl
  | bindMethod i obj m =>
    refine on_spec fun c hc => ?_
    obtain ⟨h, hr, hi₁, hv₁⟩ := clear_spec hinv hc (some ⟨.user obj, some (.method m)⟩)
      fun e he => by obtain rfl := Option.some.inj he; simp
    refine ⟨_, _, by simp only [bindMethod, hr], hi₁, hv₁.trans ?_⟩
    cases obj <;> rfl
  | reset i =>
    refine on_spec fun c hc => ?_
    obtain ⟨h, hr, hi', -, hv⟩ := reset_spec hinv hc
    exact ⟨h, .empty, hr, hi', hv⟩
  | copyAssign i j => exact copyAssign_agrees code hinv i j
  | moveAssign i j => exact moveAssign_agrees code hinv i j
  | destroy i =>
    cases hi : s.objs i with
    | none => exact agree_fault .noObject (by simp only [exec, hi]) (by simp only [spec, values_none hi]; rfl)
    | some c =>
      obtain ⟨h, hr, hi₁, hv₁⟩ := clear_spec hinv hi none fun e he => by cases he
      exact .inr ⟨_, _, .done, by simp only [exec, hi, hr]; rfl, by simp only [spec, values_bound hi]; rfl, hi₁, hv₁⟩
  | toBool i =>
    cases hi : s.objs i with
    | none => exact agree_fault .noObject (by simp only [exec, hi]) (by simp only [spec, values_none hi])
    | some c =>
      exact .inr ⟨s, _, .bool c.function.isSome, by simp only [exec, hi],
        by simp only [spec, values_bound hi, isSome_bound hinv hi], hinv, rfl⟩
  | call i args => exact call_agrees code hinv i args

/-- The boxes of the heap belong to the objects, one each. -/
def NoLeak (s : State ι γ φ μ κ ω) : Prop := ∀ a, (∃ g, s.heap.cells a = .live g) ↔ ∃! i, s.owner i = some a

omit [DecidableEq ι] in
theorem Inv.noLeak (hinv : Inv s) : NoLeak s := by
  intro a
  constructor
  · rintro ⟨g, hg⟩
    obtain ⟨i, hi⟩ := hinv.owned.covered a g hg
    exact ⟨i, hi, fun j hj => hinv.owned.uniq j i a hj hi⟩
  · rintro ⟨i, hi, -⟩
    exact hinv.owned.live i a hi

theorem spec_ne_badBox (call : Call ι γ φ μ κ α) (t : Values ι γ φ μ κ ω) : spec code call t ≠ .error .badBox := by
  cases call <;> simp only [spec] <;> split <;> simp

/-- **Whatever is done to any number of callbacks**, they answer as values do, no box is deleted twice or used
after it was deleted, and the boxes on the heap are those of the objects that there are. -/
theorem callbacks_hold_values (cs : List (Call ι γ φ μ κ α)) (w : ω) :
    replies (exec code) cs (start w) = replies (spec code) cs (start w : State ι γ φ μ κ ω).values ∧
      .error .badBox ∉ replies (exec code) cs (start w) ∧
      ∀ s rs, runCalls (exec code) cs (start w) = .ok (s, rs) →
        NoLeak s ∧ runCalls (spec code) cs (start w : State ι γ φ μ κ ω).values = .ok (s.values, rs) := by
  have hstep : ∀ c (s : State ι γ φ μ κ ω) t, (Inv s ∧ s.values = t) →
      (∃ e, exec code c s = .error e ∧ spec code c t = .error e) ∨
        ∃ s' t' r, exec code c s = .ok (s', r) ∧ spec code c t = .ok (t', r) ∧ Inv s' ∧ s'.values = t' := by
    rintro c s t ⟨hinv, rfl⟩
    exact exec_agrees code c hinv
  obtain ⟨hrep, hruns⟩ := lockstep_of_step hstep ⟨inv_start w, rfl⟩ cs
  refine ⟨hrep, fun hbad => ?_, fun s rs hr => ?_⟩
  · rw [hrep] at hbad
    obtain ⟨c, t, ht⟩ := error_of_mem_replies hbad
    exact spec_ne_badBox code c t ht
  · obtain ⟨t, ht, hinv, rfl⟩ := hruns s rs hr
    exact ⟨hinv.noLeak, ht⟩

end Libtarp.Callbacks
