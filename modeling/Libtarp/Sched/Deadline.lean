import Libtarp.Common
import Mathlib.Order.Lattice
import Libtarp.Lib.Run
import Libtarp.Lib.StableSort

/-!
# The deadline scheduler (`SchedulerDeadline` in `sched.hxx`)

The queue is sorted whenever an item is put into it, by a sort that is stable, and an item is taken from the front
if it has expired. `std::list::sort` is `List.mergeSort`.

* `Call.does`: the calls, with the scheduler at work on items that carry the number of their insertion.
* `Right`: what a call is to do, by the items that are pending.
* `Ledger.Inv.call`: a call does so, and the queue stays sorted by time and number.
* `deadline_right`: every call of a run.
* `does_untag`, `run_untag`: the numbers change nothing.
-/

namespace Libtarp.Sched

open Lib

variable {α τ : Type} [LinearOrder τ]

/-- `deadline_qitif`: what the scheduler asks its items for. An item is expired at or past its time. -/
structure DeadlineItem (α τ : Type) [LinearOrder τ] where
  expirationTime : α → τ
  expired : τ → α → Bool
  expired_iff : ∀ now item, expired now item = true ↔ expirationTime item ≤ now

variable (I : DeadlineItem α τ)

/-- `do_enqueue`. -/
def doEnqueue (item : α) (q : List α) : List α :=
  (q ++ [item]).mergeSort fun a b => !decide (I.expirationTime b < I.expirationTime a)

/-- `do_dequeue`. -/
def doDequeue (now : τ) (q : List α) : List α × Option α :=
  match q with
  | [] => (q, none)
  | front :: rest => if I.expired now front then (rest, some front) else (q, none)

theorem doDequeue_cons (now : τ) (front : α) (rest : List α) :
    doDequeue I now (front :: rest) = if I.expired now front then (rest, some front) else (front :: rest, none) := rfl

/-- The calls; one reads the clock. A null pointer can be enqueued too. -/
inductive Call (α τ : Type)
  | enqueue (item : Option α)
  | dequeue (now : τ)
  | clear

inductive Answer (α : Type)
  | done
  /-- `std::invalid_argument`. -/
  | invalidArgument
  | item (item : Option α)

/-- A call of the scheduler, with its answer. -/
def call (c : Call α τ) (q : List α) : List α × Answer α :=
  match c with
  | .enqueue none => (q, .invalidArgument)
  | .enqueue (some item) => (doEnqueue I item q, .done)
  | .dequeue now => ((doDequeue I now q).1, .item (doDequeue I now q).2)
  | .clear => ([], .done)

/-! ## Numbered items -/

/-- The same items, with numbers. -/
def DeadlineItem.numbered : DeadlineItem (α × ℕ) τ where
  expirationTime item := I.expirationTime item.1
  expired now item := I.expired now item.1
  expired_iff now item := I.expired_iff now item.1

/-- The queue of a scheduler, the items that were ever enqueued, and those that are not in it any more. -/
structure Ledger (α : Type) where
  q : List (α × ℕ)
  enqueued : List α
  returned : List (α × ℕ)
  cleared : List (α × ℕ)

def Ledger.new : Ledger α := ⟨[], [], [], []⟩

/-- The scheduler at work, where an item is numbered when it is enqueued. -/
def Call.does (c : Call α τ) (s : Ledger α) : Except Empty (Ledger α × Answer (α × ℕ)) :=
  match c with
  | .enqueue none => .ok (s, (call I.numbered (.enqueue none) s.q).2)
  | .enqueue (some item) =>
    let (q, r) := call I.numbered (.enqueue (some (item, s.enqueued.length))) s.q
    .ok ({ s with q := q, enqueued := s.enqueued ++ [item] }, r)
  | .dequeue now =>
    let (q, r) := call I.numbered (.dequeue now) s.q
    .ok ({ s with
      q := q
      returned := match r with
        | .item (some item) => s.returned ++ [item]
        | _ => s.returned }, r)
  | .clear =>
    let (q, r) := call I.numbered .clear s.q
    .ok ({ s with q := q, cleared := s.cleared ++ s.q }, r)

/-- The item expires before the other one, or at the same time and was enqueued before it. -/
def Before (a b : α × ℕ) : Prop :=
  I.expirationTime a.1 < I.expirationTime b.1 ∨ I.expirationTime a.1 = I.expirationTime b.1 ∧ a.2 < b.2

/-- What was enqueued is in the queue, or was returned, or cleared, once. -/
def Ledger.Books (s : Ledger α) : Prop := (s.q ++ s.returned ++ s.cleared).Perm s.enqueued.zipIdx

/-- What a call is to do with the items that are pending, in whatever order. -/
def Right (c : Call α τ) (s : Ledger α) (r : Answer (α × ℕ)) (s' : Ledger α) : Prop :=
  s'.Books ∧
    match c with
    | .enqueue none => r = .invalidArgument ∧ s' = s
    | .enqueue (some item) => r = .done ∧ s'.q.Perm ((item, s.enqueued.length) :: s.q)
    | .clear => r = .done ∧ s'.q = []
    | .dequeue now =>
      (∃ item, r = .item (some item) ∧ s.q.Perm (item :: s'.q) ∧ I.expirationTime item.1 ≤ now ∧
        ∀ item' ∈ s'.q, Before I item item') ∨
      r = .item none ∧ s' = s ∧ ∀ item ∈ s.q, now < I.expirationTime item.1

/-! ## One call -/

variable {I}

/-- The invariant. -/
structure Ledger.Inv (I : DeadlineItem α τ) (s : Ledger α) : Prop where
  books : s.Books
  sorted : s.q.Pairwise (Before I)

theorem Ledger.Books.number_lt {s : Ledger α} (h : s.Books) {item : α × ℕ} (hmem : item ∈ s.q) :
    item.2 < s.enqueued.length := by
  have hall : item ∈ s.enqueued.zipIdx := by
    apply h.subset
    exact List.mem_append_left _ (List.mem_append_left _ hmem)
  have h := List.snd_lt_of_mem_zipIdx hall
  omega

/-- **The sort keeps the queue in order**, by time and number. -/
theorem doEnqueue_sorted {q : List (α × ℕ)} (h : q.Pairwise (Before I)) {item : α × ℕ}
    (hnew : ∀ item' ∈ q, item'.2 < item.2) : (doEnqueue I.numbered item q).Pairwise (Before I) := by
  -- of the items that the sort does not tell apart the earlier ones have the lower numbers
  have htrans : ∀ a b c : α × ℕ, (!decide (I.expirationTime b.1 < I.expirationTime a.1)) = true →
      (!decide (I.expirationTime c.1 < I.expirationTime b.1)) = true →
      (!decide (I.expirationTime c.1 < I.expirationTime a.1)) = true := by
    intro a b c hab hbc
    simp only [Bool.not_eq_true', decide_eq_false_iff_not, not_lt] at hab hbc ⊢
    exact hab.trans hbc
  have htotal : ∀ a b : α × ℕ, (!decide (I.expirationTime b.1 < I.expirationTime a.1) ||
      !decide (I.expirationTime a.1 < I.expirationTime b.1)) = true := by
    intro a b
    simp only [Bool.or_eq_true, Bool.not_eq_true', decide_eq_false_iff_not, not_lt]
    exact le_total ..
  have hirrefl : ∀ a : α × ℕ, ¬(I.expirationTime a.1 < I.expirationTime a.1 ∨ a.2 < a.2) := by
    rintro a (hlt | hlt)
    · exact lt_irrefl _ hlt
    · exact lt_irrefl _ hlt
  have hordered : (q ++ [item]).Pairwise fun a b => I.expirationTime a.1 < I.expirationTime b.1 ∨ a.2 < b.2 := by
    rw [List.pairwise_append]
    refine ⟨h.imp ?_, List.pairwise_singleton .., ?_⟩
    · rintro a b (hlt | ⟨-, hlt⟩)
      · exact .inl hlt
      · exact .inr hlt
    · intro a ha b hb
      rw [List.mem_singleton.1 hb]
      exact .inr (hnew a ha)
  have hstable := mergeSort_stable htrans htotal hirrefl hordered
  apply hstable.imp
  rintro a b ⟨hle, hties⟩
  simp only [Bool.not_eq_true', decide_eq_false_iff_not, not_lt] at hle hties
  rcases hle.lt_or_eq with hlt | heq
  · exact .inl hlt
  · refine .inr ⟨heq, ?_⟩
    exact (hties heq.ge).resolve_left heq.not_lt

theorem doEnqueue_perm (item : α) (q : List α) : (doEnqueue I item q).Perm (item :: q) :=
  (List.mergeSort_perm ..).trans (List.perm_append_singleton ..)

/-- **Only the front is looked at**, and no expired item is behind one that has not expired. -/
theorem doDequeue_spec {q : List (α × ℕ)} (h : q.Pairwise (Before I)) (now : τ) :
    (∃ item rest, q = item :: rest ∧ doDequeue I.numbered now q = (rest, some item) ∧
        I.expirationTime item.1 ≤ now ∧ ∀ item' ∈ rest, Before I item item') ∨
      doDequeue I.numbered now q = (q, none) ∧ ∀ item ∈ q, now < I.expirationTime item.1 := by
  cases q with
  | nil => exact .inr ⟨rfl, List.forall_mem_nil _⟩
  | cons item rest =>
    obtain ⟨hfirst, -⟩ := List.pairwise_cons.1 h
    have hiff := I.expired_iff now item.1
    cases hexpired : I.expired now item.1 with
    | true =>
      refine .inl ⟨item, rest, rfl, ?_, hiff.1 hexpired, hfirst⟩
      exact if_pos hexpired
    | false =>
      have hwait : now < I.expirationTime item.1 := by
        rw [← not_le, ← hiff, hexpired]
        exact Bool.false_ne_true
      refine .inr ⟨if_neg (hexpired ▸ Bool.false_ne_true), ?_⟩
      intro item' hmem
      rcases List.mem_cons.1 hmem with rfl | hrest
      · exact hwait
      · rcases hfirst item' hrest with hlt | ⟨heq, -⟩
        · exact hwait.trans hlt
        · exact heq ▸ hwait

/-- **One call.** -/
theorem Ledger.Inv.call {s : Ledger α} (h : s.Inv I) (c : Call α τ) :
    ∃ s' r, c.does I s = .ok (s', r) ∧ s'.Inv I ∧ Right I c s r s' := by
  cases c with
  | clear =>
    have hbooks : Ledger.Books { s with q := [], cleared := s.cleared ++ s.q } := by
      refine List.Perm.trans ?_ h.books
      dsimp only
      rw [List.nil_append, ← List.append_assoc]
      exact List.perm_append_comm.trans (List.append_assoc .. ▸ List.Perm.refl _)
    exact ⟨_, _, rfl, ⟨hbooks, List.Pairwise.nil⟩, hbooks, rfl, rfl⟩
  | enqueue item =>
    cases item with
    | none => exact ⟨s, _, rfl, h, h.books, rfl, rfl⟩
    | some item =>
      -- items are told apart by the number they are enqueued with
      have hperm := doEnqueue_perm (I := I.numbered) (item, s.enqueued.length) s.q
      have hbooks : Ledger.Books { s with
          q := doEnqueue I.numbered (item, s.enqueued.length) s.q, enqueued := s.enqueued ++ [item] } := by
        unfold Ledger.Books
        dsimp only
        rw [List.zipIdx_append, List.append_assoc]
        refine (hperm.append_right _).trans ?_
        rw [List.cons_append, ← List.append_assoc]
        refine (h.books.cons _).trans ?_
        rw [Nat.zero_add]
        exact (List.perm_append_singleton ..).symm
      refine ⟨_, _, rfl, ⟨hbooks, ?_⟩, hbooks, rfl, hperm⟩
      apply doEnqueue_sorted h.sorted
      intro item' hmem
      exact h.books.number_lt hmem
  | dequeue now =>
    rcases doDequeue_spec h.sorted now with ⟨item, rest, hq, hdoes, hexpired, hfirst⟩ | ⟨hdoes, hwait⟩
    · have hbooks : Ledger.Books { s with q := rest, returned := s.returned ++ [item] } := by
        refine List.Perm.trans ?_ h.books
        have hlast : rest ++ (s.returned ++ [item]) ++ s.cleared = rest ++ s.returned ++ item :: s.cleared := by
          simp only [List.append_assoc, List.cons_append, List.nil_append]
        dsimp only
        rw [hq, hlast]
        exact List.perm_middle
      refine ⟨{ s with q := rest, returned := s.returned ++ [item] }, .item (some item), ?_, ⟨hbooks, ?_⟩, hbooks, ?_⟩
      · dsimp only [Call.does, Sched.call]
        rw [hdoes]
      · have hsorted := h.sorted
        rw [hq] at hsorted
        exact hsorted.of_cons
      · exact .inl ⟨item, rfl, hq ▸ List.Perm.refl _, hexpired, hfirst⟩
    · refine ⟨s, .item none, ?_, h, h.books, .inr ⟨rfl, rfl, hwait⟩⟩
      dsimp only [Call.does, Sched.call]
      rw [hdoes]

/-! ## Runs -/

variable (I)

/-- **Every call of a run** does what it is to do: an item is returned when its time has come and not before, the one
that expires first, and of those the one that was enqueued first; each comes out of the queue once. -/
theorem deadline_right (calls : List (Call α τ)) : Each (Call.does I) (Right I) calls Ledger.new := by
  have hm : Meets (Call.does I) (fun _ _ => True) calls Ledger.new := meets_free calls Ledger.new
  refine each_of_step (fun _ s => s.Inv I) ?_ ?_ hm
  · intro n c s _ h _
    exact h.call c
  · exact ⟨List.Perm.refl _, List.Pairwise.nil⟩

def Answer.untag : Answer (α × ℕ) → Answer α
  | .done => .done
  | .invalidArgument => .invalidArgument
  | .item front => .item (front.map Prod.fst)

/-- **The numbers change nothing**: the scheduler does with the bare items what it does with the numbered ones. -/
theorem does_untag (c : Call α τ) {s s' : Ledger α} {r : Answer (α × ℕ)} (h : c.does I s = .ok (s', r)) :
    call I c (s.q.map Prod.fst) = (s'.q.map Prod.fst, r.untag) := by
  cases c with
  | clear =>
    obtain ⟨rfl, rfl⟩ := Prod.mk.inj (Except.ok.inj h)
    rfl
  | enqueue item =>
    cases item with
    | none =>
      obtain ⟨rfl, rfl⟩ := Prod.mk.inj (Except.ok.inj h)
      rfl
    | some item =>
      obtain ⟨rfl, rfl⟩ := Prod.mk.inj (Except.ok.inj h)
      -- the sort compares expiration times, which the numbers leave as they are
      have hmap : (doEnqueue I.numbered (item, s.enqueued.length) s.q).map Prod.fst =
          doEnqueue I item (s.q.map Prod.fst) := by
        unfold doEnqueue
        rw [List.map_mergeSort (s := fun a b => !decide (I.expirationTime b < I.expirationTime a)),
          List.map_append, List.map_singleton]
        intro a _ b _
        rfl
      exact Prod.ext hmap.symm rfl
  | dequeue now =>
    obtain ⟨rfl, rfl⟩ := Prod.mk.inj (Except.ok.inj h)
    have hmap : doDequeue I now (s.q.map Prod.fst) =
        ((doDequeue I.numbered now s.q).1.map Prod.fst, (doDequeue I.numbered now s.q).2.map Prod.fst) := by
      cases s.q with
      | nil => rfl
      | cons front rest =>
        have hexpired : I.numbered.expired now front = I.expired now front.1 := rfl
        rw [List.map_cons, doDequeue_cons, doDequeue_cons, hexpired]
        split_ifs
        · rfl
        · rfl
    have hcall : call I (.dequeue now) (s.q.map Prod.fst) =
        ((doDequeue I now (s.q.map Prod.fst)).1, .item (doDequeue I now (s.q.map Prod.fst)).2) := rfl
    rw [hcall, hmap]
    rfl

/-- The calls of a run, on the bare items. -/
theorem run_untag (calls : List (Call α τ)) {s s' : Ledger α} {rs : List (Answer (α × ℕ))}
    (h : runCalls (Call.does I) calls s = .ok (s', rs)) :
    runCalls (φ := Empty) (fun c q => .ok (call I c q)) calls (s.q.map Prod.fst) =
      .ok (s'.q.map Prod.fst, rs.map Answer.untag) := by
  induction calls generalizing s rs with
  | nil =>
    obtain ⟨rfl, rfl⟩ := Prod.mk.inj (Except.ok.inj h)
    rfl
  | cons c calls ih =>
    unfold runCalls at h
    split at h
    · cases h
    · next s₁ r hdoes =>
      split at h
      · cases h
      · next s₂ rs₂ hrun =>
        obtain ⟨rfl, rfl⟩ := Prod.mk.inj (Except.ok.inj h)
        exact runCalls_cons (congrArg Except.ok (does_untag I c hdoes)) (ih hrun)

end Libtarp.Sched
