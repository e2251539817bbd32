import Libtarp.Signal.Deliver
import Mathlib.Data.List.Induction

/-!
# Counting the callbacks of a signal

`count` is the number of observers in the vector, also of those whose connection is gone, which the next `emit` erases.
The calls are made one after the other here.

* `Performs`: a call that is made from its start to its end.
* `World.Kept.sweep`: an `emit` calls the observers that are connected, and leaves no others in the vector.
* `Does.count_right_iff`: what is counted is what the next `emit` calls if every connection that was given up was given
  up before an `emit`.
-/

namespace Libtarp.Signal

open Function Lib

variable {ρ A R O : Type} {r : Reducer ρ R O} {moved : A → A}

/-- `count`. -/
def World.callbackCount (s : World ρ A R O) : ℕ := s.observers.length

/-- `empty`. -/
def World.empty (s : World ρ A R O) : Bool := s.callbackCount == 0

/-- The calls; a connection is named by its number. -/
inductive Action (A : Type)
  | connect
  | connectDetached
  | disconnect (number : ℕ)
  | emit (params : A)

/-- The call is made, and returns. -/
def Performs (r : Reducer ρ R O) (moved : A → A) (a : Action A) (s s' : World ρ A R O) : Prop :=
  match a with
  | .connect => World.step r moved (.connect false) s = some s'
  | .connectDetached => World.step r moved (.connect true) s = some s'
  | .disconnect number =>
    if s.linked number then
      runEvents (World.step r moved) [.copy number, .invalidate number, .reset number, .finish number] s = some s'
    else World.step r moved (.copy number) s = some s'
  | .emit params => ∃ results : List R,
      runEvents (World.step r moved) (.emit params :: results.map .emitStep) s = some s' ∧ s'.emission = none

/-- The calls that a new signal was given, and what it came to. -/
inductive Does (r : Reducer ρ R O) (moved : A → A) : List (Action A) → World ρ A R O → Prop
  | start : Does r moved [] World.new
  | next {h : List (Action A)} {a : Action A} {s s' : World ρ A R O} (past : Does r moved h s)
      (performs : Performs r moved a s s') : Does r moved (h ++ [a]) s'

/-- What is counted is what the next `emit` calls, whatever it is given. -/
def World.CountRight (r : Reducer ρ R O) (moved : A → A) (s : World ρ A R O) : Prop :=
  ∀ p s', Performs r moved (.emit p) s s' →
    s.callbackCount = s'.received.length ∧ (s.empty = true ↔ s'.received.length = 0)

/-- The connection was given up before an `emit`. -/
def SweptAway (h : List (Action A)) (number : ℕ) : Prop :=
  ∃ pre p post, h = pre ++ .emit p :: post ∧ .disconnect number ∈ pre

/-- Every connection that was given up was given up before an `emit`. -/
def Swept (h : List (Action A)) : Prop := ∀ number, .disconnect number ∈ h → SweptAway h number

variable {start s s' t : World ρ A R O} {e : Emission ρ A R} {h : List (Action A)}

/-! ## A whole `emit` -/

/-- Where no `disconnect` goes on, an observer that needs a token is connected while its connection has the token. -/
theorem connected_eq (hkept : s.Kept r) (hpending : s.pending = []) (it : Observer) :
    s.connected it = (it.detached || s.linked it.number) := by
  have halive : s.alive it.number = s.linked it.number := by
    unfold World.alive
    rw [hpending, List.any_nil, Bool.or_false]
  unfold World.connected
  cases hlinked : s.linked it.number with
  | false => rw [halive, hlinked, Bool.false_and]
  | true => rw [hkept.tokens.valid_of_alive hpending (halive.trans hlinked), halive, hlinked, Bool.and_true]

/-- How far an `emit` has come that nothing else interferes with. -/
structure World.Sweeping (start t : World ρ A R O) : Prop where
  linked : t.linked = start.linked
  pending : t.pending = start.pending
  connections : t.connections = start.connections
  going : ∀ e, t.emission = some e →
    t.observers.take e.it ++ (t.observers.drop e.it).filter start.connected = start.live ∧
    ∀ it args, e.phase = .holding it ∨ e.phase = .calling it args → start.connected it = true
  returned : t.emission = none → t.observers = start.live ∧
    ∃ f, t.returned.getLast? = some f ∧ f.calls.length = start.live.length

theorem World.Sweeping.next {e : Emission ρ A R} {t' : World ρ A R O} (hsweep : start.Sweeping t)
    (hsame : t'.linked = t.linked ∧ t'.pending = t.pending ∧ t'.connections = t.connections)
    (he : t'.emission = some e)
    (hgoing : t'.observers.take e.it ++ (t'.observers.drop e.it).filter start.connected = start.live)
    (hphase : ∀ it args, e.phase = .holding it ∨ e.phase = .calling it args → start.connected it = true) :
    start.Sweeping t' where
  linked := hsame.1.trans hsweep.linked
  pending := hsame.2.1.trans hsweep.pending
  connections := hsame.2.2.trans hsweep.connections
  going e' he' := by
    obtain rfl := Option.some.inj (he.symm.trans he')
    exact ⟨hgoing, hphase⟩
  returned hnone := by
    rw [he] at hnone
    cases hnone

/-- A step of the loop calls an observer that is connected, or erases one that is not. -/
theorem World.Sweeping.emitStep (hstart : start.Kept r) (hpending : start.pending = []) (hkept : t.Kept r)
    (hsweep : start.Sweeping t) (he : t.emission = some e) (result : R) :
    start.Sweeping (t.emitStep r moved result e) := by
  obtain ⟨hgoing, hphases⟩ := hsweep.going e he
  have hrunning := hkept.emission e he
  have hthere : ∀ it : Observer, (it.detached || t.alive it.number) = start.connected it := by
    intro it
    rw [connected_eq hstart hpending]
    unfold World.alive
    rw [hsweep.pending, hpending, List.any_nil, Bool.or_false, hsweep.linked]
  have hloop := looped r moved result e t
  generalize t.emitStep r moved result e = t' at hloop ⊢
  cases hloop with
  | returns top last =>
    have hover : t.observers.length ≤ e.it := List.getElem?_eq_none_iff.mp last
    rw [List.drop_of_length_le hover, List.filter_nil, List.append_nil, List.take_of_length_le hover] at hgoing
    have hcalls := congrArg List.length hrunning.called
    rw [List.length_map, List.length_map, List.take_of_length_le hover, hgoing] at hcalls
    exact ⟨hsweep.linked, hsweep.pending, hsweep.connections, nofun,
      fun _ => ⟨hgoing, _, List.getLast?_concat .., hcalls.symm⟩⟩
  | holds top found there =>
    refine hsweep.next ⟨rfl, rfl, rfl⟩ rfl hgoing ?_
    rintro _ _ (hholding | hcalling)
    · obtain rfl := Phase.holding.inj hholding
      exact (hthere _).symm.trans there
    · cases hcalling
  | erases top found gone =>
    obtain ⟨hlt, hget⟩ := List.getElem?_eq_some_iff.mp found
    refine hsweep.next ⟨rfl, rfl, rfl⟩ he ?_ hphases
    -- the one taken out was not among those that go on
    rw [List.drop_eq_getElem_cons hlt, hget, List.filter_cons, ← hthere, gone, if_neg Bool.false_ne_true] at hgoing
    dsimp only
    rw [List.take_eraseIdx_eq_take_of_le _ _ _ le_rfl, drop_eraseIdx hlt, hgoing]
  | calls holding valid =>
    refine hsweep.next ⟨rfl, rfl, rfl⟩ rfl hgoing ?_
    rintro _ _ (hholding | hcalling)
    · cases hholding
    · obtain ⟨rfl, -⟩ := Phase.calling.inj hcalling
      exact hphases _ e.params (Or.inl holding)
  | skips holding =>
    refine hsweep.next ⟨rfl, rfl, rfl⟩ rfl hgoing ?_
    rintro _ _ (hholding | hcalling)
    · cases hholding
    · cases hcalling
  | called calling =>
    obtain ⟨hit, -⟩ := hrunning.calling _ _ calling
    obtain ⟨hlt, hget⟩ := List.getElem?_eq_some_iff.mp hit
    refine hsweep.next ⟨rfl, rfl, rfl⟩ rfl ?_ ?_
    · rw [List.drop_eq_getElem_cons hlt, hget, List.filter_cons, if_pos (hphases _ _ (Or.inr calling))] at hgoing
      dsimp only
      rw [List.take_add_one, hit, Option.toList_some, List.append_assoc, List.singleton_append, hgoing]
    · rintro _ _ (hholding | hcalling)
      · cases hholding
      · cases hcalling

/-- An `emit` that is made from its start to its end. -/
theorem World.Kept.sweep {params : A} (hkept : s.Kept r) (hpending : s.pending = [])
    (hemit : Performs r moved (.emit params) s s') : s'.Kept r ∧ s'.emission = none ∧ s.Sweeping s' := by
  obtain ⟨results, hrun, hreturned⟩ := hemit
  obtain ⟨s₁, hs₁, hrest⟩ := Option.bind_eq_some_iff.1 hrun
  have hsweep₁ : s.Sweeping s₁ := by
    obtain ⟨-, hs₁⟩ := Option.ite_none_right_eq_some.1 hs₁
    obtain rfl := Option.some.inj hs₁
    exact ⟨rfl, rfl, rfl, by rintro _ ⟨rfl⟩; exact ⟨rfl, nofun⟩, nofun⟩
  have hend : s'.Kept r ∧ s.Sweeping s' := by
    refine run_invariant (I := fun t => t.Kept r ∧ s.Sweeping t) ?_ hrest ⟨hkept.step hs₁, hsweep₁⟩
    intro event hevent t t' ht hstep
    obtain ⟨result, -, rfl⟩ := List.mem_map.mp hevent
    have hkept' := ht.1.step hstep
    obtain ⟨e, he, -, rfl⟩ := emitStep_iff.1 hstep
    exact ⟨hkept', ht.2.emitStep hkept hpending ht.1 he result⟩
  exact ⟨hend.1, hreturned, hend.2⟩

/-- An `emit` can be made from its start to its end. -/
theorem World.Kept.exists_emit [Inhabited R] (hkept : s.Kept r) (moved : A → A) (hidle : s.emission = none)
    (hpending : s.pending = []) (params : A) : ∃ s', Performs r moved (.emit params) s s' := by
  obtain ⟨s₁, hs₁, hpending₁, hnests₁⟩ : ∃ s₁, World.step r moved (.emit params) s = some s₁ ∧ s₁.pending = [] ∧
      s₁.nests = false := by
    unfold World.step
    dsimp only
    rw [hidle]
    exact ⟨_, rfl, hpending, rfl⟩
  have hends : s₁.Ends r moved := (hkept.step hs₁).ends hpending₁ hnests₁
  obtain ⟨n, s', hrun, hnone⟩ := hends fun _ => default
  refine ⟨s', (List.range n).map fun _ => default, Option.bind_eq_some_iff.2 ⟨s₁, hs₁, ?_⟩, hnone⟩
  rw [List.map_map]
  exact hrun

theorem World.Sweeping.received (hsweep : s.Sweeping s') (hreturned : s'.emission = none) :
    s'.received.length = s.live.length := by
  obtain ⟨-, f, hlast, hlength⟩ := hsweep.returned hreturned
  unfold World.received
  rw [hreturned]
  dsimp only
  rw [hlast]
  dsimp only [Option.map_some, Option.getD_some]
  rw [List.length_map, hlength]

/-- Where no call goes on, what is counted is called if every observer is connected. -/
theorem count_right_iff [Inhabited A] [Inhabited R] (hkept : s.Kept r) (hidle : s.emission = none)
    (hpending : s.pending = []) : s.CountRight r moved ↔ ∀ it ∈ s.observers, s.connected it = true := by
  have hlive : s.live.length = s.callbackCount ↔ ∀ it ∈ s.observers, s.connected it = true :=
    List.length_filter_eq_length_iff
  rw [← hlive]
  constructor
  · intro hright
    obtain ⟨s', hemit⟩ := hkept.exists_emit moved hidle hpending default
    obtain ⟨-, hreturned, hsweep⟩ := hkept.sweep hpending hemit
    rw [← hsweep.received hreturned]
    exact (hright default s' hemit).1.symm
  · intro hall p s' hemit
    obtain ⟨-, hreturned, hsweep⟩ := hkept.sweep hpending hemit
    rw [hsweep.received hreturned, hall]
    exact ⟨rfl, beq_iff_eq⟩

/-! ## Histories -/

/-- What is known after the calls `h`: where their connections have come to. -/
structure Tidy (r : Reducer ρ R O) (h : List (Action A)) (s : World ρ A R O) : Prop where
  kept : s.Kept r
  idle : s.emission = none
  pending : s.pending = []
  linked : ∀ n ∈ s.connections, s.linked n = true ↔ .disconnect n ∉ h
  given : ∀ n, .disconnect n ∈ h → n ∈ s.connections
  attached : ∀ it ∈ s.observers, it.detached = false → it.number ∈ s.connections
  listed : ∀ n ∈ s.connections, n ∈ s.observers.map Observer.number ↔ ¬ SweptAway h n

theorem SweptAway.mem {n : ℕ} (hswept : SweptAway h n) : .disconnect n ∈ h := by
  obtain ⟨pre, p, post, rfl, hmem⟩ := hswept
  exact List.mem_append_left _ hmem

/-- An `emit` sweeps away what was given up before it; the other calls sweep nothing away. -/
theorem sweptAway_concat {a : Action A} {n : ℕ} :
    SweptAway (h ++ [a]) n ↔ SweptAway h n ∨ (∃ p, a = .emit p) ∧ .disconnect n ∈ h := by
  constructor
  · rintro ⟨pre, p, post, heq, hmem⟩
    -- the `emit` is the last call if nothing comes behind it, and one of `h` otherwise
    induction post using List.reverseRecOn with
    | nil =>
      obtain ⟨rfl, hlast⟩ := List.append_inj' heq rfl
      exact Or.inr ⟨⟨p, List.singleton_inj.mp hlast⟩, hmem⟩
    | append_singleton post b ih =>
      rw [← List.cons_append, ← List.append_assoc] at heq
      obtain ⟨rfl, -⟩ := List.append_inj' heq rfl
      exact Or.inl ⟨pre, p, post, rfl, hmem⟩
  · rintro (⟨pre, p, post, rfl, hmem⟩ | ⟨⟨p, rfl⟩, hmem⟩)
    · exact ⟨pre, p, post ++ [a], by rw [List.append_assoc, List.cons_append], hmem⟩
    · exact ⟨h, p, [], rfl, hmem⟩

/-- A call that is no `emit` sweeps nothing away. -/
theorem sweptAway_of_silent {a : Action A} {n : ℕ} (ha : ∀ p, a ≠ .emit p) : SweptAway (h ++ [a]) n ↔ SweptAway h n := by
  rw [sweptAway_concat]
  exact or_iff_left fun hemit => hemit.1.elim ha

theorem mem_of_silent {a b : Action A} (ha : a ≠ b) : b ∈ h ++ [a] ↔ b ∈ h :=
  List.mem_append.trans (or_iff_left fun hlast => ha (List.mem_singleton.mp hlast).symm)

theorem Tidy.connected (htidy : Tidy r h s) {it : Observer} (hit : it ∈ s.observers) :
    s.connected it = true ↔ .disconnect it.number ∉ h := by
  rw [connected_eq htidy.kept htidy.pending]
  cases hdetached : it.detached with
  | false =>
    rw [Bool.false_or]
    exact htidy.linked _ (htidy.attached it hit hdetached)
  | true =>
    -- nobody holds the connection of a detached observer, so nobody gives it up
    rw [Bool.true_or, eq_self, true_iff]
    exact fun hmem => htidy.kept.listed.detached it hit hdetached (htidy.given _ hmem)

/-- A whole `disconnect`. -/
theorem performs_disconnect {n : ℕ} (hpending : s.pending = []) (hidle : s.emission = none)
    (hdisconnect : Performs r moved (.disconnect n) s s') : n ∈ s.connections ∧ s'.observers = s.observers ∧
      s'.connections = s.connections ∧ s'.emission = none ∧ s'.pending = [] ∧ s'.linked = update s.linked n false := by
  unfold Performs at hdisconnect
  dsimp only at hdisconnect
  split_ifs at hdisconnect with hlinked
  · -- the four steps of a `disconnect`, each of which can be made
    obtain ⟨s₁, hcopy, hrest⟩ := Option.bind_eq_some_iff.1 hdisconnect
    obtain ⟨s₂, hinvalidate, hrest⟩ := Option.bind_eq_some_iff.1 hrest
    obtain ⟨s₃, hreset, hrest⟩ := Option.bind_eq_some_iff.1 hrest
    obtain ⟨s₄, hfinish, hlast⟩ := Option.bind_eq_some_iff.1 hrest
    obtain rfl := Option.some.inj hlast
    obtain ⟨hmem, hcopy⟩ := Option.ite_none_right_eq_some.1 hcopy
    dsimp only at hcopy
    rw [if_pos hlinked] at hcopy
    obtain rfl := Option.some.inj hcopy
    obtain ⟨-, hinvalidate⟩ := Option.ite_none_right_eq_some.1 hinvalidate
    obtain rfl := Option.some.inj hinvalidate
    obtain ⟨-, hreset⟩ := Option.ite_none_right_eq_some.1 hreset
    obtain rfl := Option.some.inj hreset
    obtain ⟨-, hfinish⟩ := Option.ite_none_right_eq_some.1 hfinish
    obtain rfl := Option.some.inj hfinish
    refine ⟨hmem, rfl, rfl, hidle, ?_, rfl⟩
    unfold World.advance
    dsimp only
    rw [List.erase_cons_head, List.erase_cons_head, List.erase_cons_head, hpending]
  · -- a connection that was given up before does nothing
    obtain ⟨hmem, hcopy⟩ := Option.ite_none_right_eq_some.1 hdisconnect
    dsimp only at hcopy
    rw [if_neg hlinked] at hcopy
    obtain rfl := Option.some.inj hcopy
    refine ⟨hmem, rfl, rfl, hidle, hpending, ?_⟩
    rw [← Bool.eq_false_iff.mpr hlinked, update_eq_self]

theorem World.Kept.performs {a : Action A} (hkept : s.Kept r) (h : Performs r moved a s s') : s'.Kept r := by
  have hrun : ∀ es : List (Event A R), runEvents (World.step r moved) es s = some s' → s'.Kept r := by
    intro es hes
    exact run_invariant (I := World.Kept r) (fun _ _ _ _ ht hstep => ht.step hstep) hes hkept
  cases a with
  | connect => exact hkept.step h
  | connectDetached => exact hkept.step h
  | disconnect n =>
    unfold Performs at h
    dsimp only at h
    split_ifs at h
    · exact hrun _ h
    · exact hkept.step h
  | emit params =>
    obtain ⟨results, h, -⟩ := h
    exact hrun _ h

theorem Tidy.new : Tidy r [] (World.new : World ρ A R O) where
  kept := @kept_of_reaches _ _ _ _ r id _ .start
  idle := rfl
  pending := rfl
  linked _ hn := absurd hn List.not_mem_nil
  given _ hn := absurd hn List.not_mem_nil
  attached _ hit := absurd hit List.not_mem_nil
  listed _ hn := absurd hn List.not_mem_nil

theorem Tidy.connect {a : Action A} {detached : Bool} (htidy : Tidy r h s) (hdisconnect : ∀ n, a ≠ .disconnect n)
    (hemit : ∀ p, a ≠ .emit p) (hconnect : World.step r moved (.connect detached) s = some s') :
    Tidy r (h ++ [a]) s' := by
  have hkept' := htidy.kept.step hconnect
  obtain ⟨-, hconnect⟩ := Option.ite_none_right_eq_some.1 hconnect
  obtain rfl := Option.some.inj hconnect
  -- the number of the new connection was never used, so it was never given up either
  have hnew : ∀ n ∈ s.connections, n ≠ s.count := fun n hn => (htidy.kept.tokens.connections n hn).ne
  have hfresh : .disconnect s.count ∉ h := fun hin => hnew _ (htidy.given _ hin) rfl
  have hconnections : ∀ n, n ∈ (s.connect detached).connections ↔ n ∈ s.connections ∨ n = s.count ∧ detached = false := by
    intro n
    unfold World.connect
    cases detached with
    | true => exact (or_iff_left fun hlast => Bool.noConfusion hlast.2).symm
    | false => exact List.mem_cons.trans (or_comm.trans (or_congr_right (and_iff_left rfl).symm))
  have hgone : ∀ n, .disconnect n ∈ h ++ [a] ↔ .disconnect n ∈ h := fun n => mem_of_silent (hdisconnect n)
  refine ⟨hkept', htidy.idle, htidy.pending, ?_, ?_, ?_, ?_⟩
  · intro n hn
    rw [hgone]
    unfold World.connect
    dsimp only
    rcases (hconnections n).mp hn with hold | ⟨rfl, rfl⟩
    · rw [update_of_ne (hnew n hold)]
      exact htidy.linked n hold
    · rw [update_self]
      exact iff_of_true rfl hfresh
  · intro n hn
    exact (hconnections n).mpr (Or.inl (htidy.given n ((hgone n).mp hn)))
  · intro it hit hattached
    rw [hconnections]
    rcases List.mem_append.mp hit with hold | hlast
    · exact Or.inl (htidy.attached it hold hattached)
    · obtain rfl := List.mem_singleton.mp hlast
      exact Or.inr ⟨rfl, hattached⟩
  · intro n hn
    rw [sweptAway_of_silent hemit]
    unfold World.connect
    dsimp only
    rw [List.map_append, List.map_singleton, List.mem_append, List.mem_singleton]
    rcases (hconnections n).mp hn with hold | ⟨rfl, -⟩
    · rw [or_iff_left (hnew n hold)]
      exact htidy.listed n hold
    · exact iff_of_true (Or.inr rfl) fun haway => hfresh haway.mem

theorem Tidy.disconnect {n : ℕ} (htidy : Tidy r h s) (hdisconnect : Performs r moved (.disconnect n) s s') :
    Tidy r (h ++ [.disconnect n]) s' := by
  have hkept' := htidy.kept.performs hdisconnect
  obtain ⟨hn, hobservers, hconnections, hidle, hpending, hlinked⟩ :=
    performs_disconnect htidy.pending htidy.idle hdisconnect
  refine ⟨hkept', hidle, hpending, ?_, ?_, ?_, ?_⟩
  · rw [hconnections, hlinked]
    intro m hm
    by_cases heq : m = n
    · rw [heq, update_self]
      exact iff_of_false Bool.false_ne_true (not_not_intro List.mem_concat_self)
    · rw [update_of_ne heq, mem_of_silent fun hsame => heq (Action.disconnect.inj hsame).symm]
      exact htidy.linked m hm
  · rw [hconnections]
    intro m hm
    rcases List.mem_append.mp hm with hold | hlast
    · exact htidy.given m hold
    · rwa [Action.disconnect.inj (List.mem_singleton.mp hlast)]
  · rw [hobservers, hconnections]
    exact htidy.attached
  · rw [hobservers, hconnections]
    intro m hm
    rw [sweptAway_of_silent nofun]
    exact htidy.listed m hm

/-- The observers that an `emit` leaves are those it called. -/
theorem Tidy.emit {p : A} (htidy : Tidy r h s) (hemit : Performs r moved (.emit p) s s') :
    Tidy r (h ++ [.emit p]) s' := by
  obtain ⟨hkept', hreturned, hsweep⟩ := htidy.kept.sweep htidy.pending hemit
  obtain ⟨hobservers, -⟩ := hsweep.returned hreturned
  have hgone : ∀ n, .disconnect n ∈ h ++ [Action.emit p] ↔ .disconnect n ∈ h := fun n => mem_of_silent nofun
  refine ⟨hkept', hreturned, hsweep.pending.trans htidy.pending, ?_, ?_, ?_, ?_⟩
  · rw [hsweep.connections, hsweep.linked]
    intro n hn
    rw [hgone]
    exact htidy.linked n hn
  · rw [hsweep.connections]
    intro n hn
    exact htidy.given n ((hgone n).mp hn)
  · rw [hsweep.connections, hobservers]
    exact fun it hit => htidy.attached it (List.mem_filter.mp hit).1
  · rw [hsweep.connections, hobservers]
    intro n hn
    rw [sweptAway_concat, not_or, ← htidy.listed n hn, not_and]
    constructor
    · intro hlisted
      obtain ⟨it, hlive, rfl⟩ := List.mem_map.mp hlisted
      obtain ⟨hit, hconnected⟩ := List.mem_filter.mp hlive
      exact ⟨List.mem_map_of_mem hit, fun _ => (htidy.connected hit).mp hconnected⟩
    · rintro ⟨hlisted, hthere⟩
      obtain ⟨it, hit, rfl⟩ := List.mem_map.mp hlisted
      exact List.mem_map_of_mem (List.mem_filter.mpr ⟨hit, (htidy.connected hit).mpr (hthere ⟨p, rfl⟩)⟩)

theorem Does.tidy (hdoes : Does r moved h s) : Tidy r h s := by
  induction hdoes with
  | start => exact .new
  | @next _ a _ _ _ performs htidy =>
    cases a with
    | connect => exact htidy.connect nofun nofun performs
    | connectDetached => exact htidy.connect nofun nofun performs
    | disconnect n => exact htidy.disconnect performs
    | emit p => exact htidy.emit performs

/-- **What is counted is what the next `emit` calls** after the calls `h` if each connection that was given up was given up
before an `emit`; and then only. -/
theorem Does.count_right_iff [Inhabited A] [Inhabited R] (hdoes : Does r moved h s) : s.CountRight r moved ↔ Swept h := by
  have htidy := hdoes.tidy
  rw [Signal.count_right_iff htidy.kept htidy.idle htidy.pending]
  constructor
  · intro hall n hn
    have hgiven := htidy.given n hn
    by_contra haway
    obtain ⟨it, hit, rfl⟩ := List.mem_map.mp ((htidy.listed n hgiven).mpr haway)
    exact (htidy.connected hit).mp (hall it hit) hn
  · intro hswept it hit
    rw [htidy.connected hit]
    intro hn
    exact (htidy.listed _ (htidy.given _ hn)).mp (List.mem_map_of_mem hit) (hswept _ hn)

end Libtarp.Signal
