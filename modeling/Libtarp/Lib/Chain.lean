import Mathlib.Data.List.Basic
import Mathlib.Data.List.Nodup
import Mathlib.Logic.Function.Basic
import Mathlib.Tactic.Common

/-!
# Chains of nodes linked by pointers

* `Chain next p l`: from the pointer `p` on, following `next`, one meets the nodes of `l` and then the end.
* `Seg next p l q`: one meets the nodes of `l` and then the pointer `q`. A chain is a segment up to the end
  (`chain_iff_seg`).
* `Chain.congr`, `Seg.congr`: what happens to the links of other nodes does not matter to either.
* `Seg.relink`, `Seg.exchange`: a segment that ends elsewhere, and two segments exchanged.
* `walk`: a loop along a chain whose body may change the chain. `walk_spec`: it meets the nodes that were there first if
  the body keeps those to come.
-/

namespace Libtarp.Lib

open Function

variable {α : Type*} {next next' : α → Option α} {p q : Option α} {l l₁ l₂ : List α} {a b : α}

def Chain (next : α → Option α) : Option α → List α → Prop
  | p, [] => p = none
  | p, a :: l => p = some a ∧ Chain next (next a) l

@[simp] theorem chain_nil : Chain next p [] ↔ p = none := Iff.rfl

@[simp] theorem chain_cons : Chain next p (a :: l) ↔ p = some a ∧ Chain next (next a) l := Iff.rfl

theorem Chain.unique (h₁ : Chain next p l₁) (h₂ : Chain next p l₂) : l₁ = l₂ := by
  induction l₁ generalizing p l₂ with
  | nil =>
    cases l₂ with
    | nil => rfl
    | cons b l₂ => rw [chain_nil.1 h₁] at h₂; cases h₂.1
  | cons a l₁ ih =>
    cases l₂ with
    | nil => rw [chain_nil.1 h₂] at h₁; cases h₁.1
    | cons b l₂ =>
      obtain rfl : a = b := Option.some.inj (h₁.1.symm.trans h₂.1)
      rw [ih h₁.2 h₂.2]

/-- The chain from a node on. -/
theorem Chain.drop (h : Chain next p (l₁ ++ a :: l₂)) : Chain next (next a) l₂ := by
  induction l₁ generalizing p with
  | nil => exact h.2
  | cons b l₁ ih => exact ih h.2

/-- A chain with an end comes to no node twice. -/
theorem Chain.nodup (h : Chain next p l) : l.Nodup := by
  induction l generalizing p with
  | nil => exact List.nodup_nil
  | cons a l ih =>
    refine List.nodup_cons.2 ⟨fun hm => ?_, ih h.2⟩
    obtain ⟨l₁, l₂, rfl⟩ := List.append_of_mem hm
    have heq := congrArg List.length (h.2.unique h.2.drop)
    simp only [List.length_append, List.length_cons] at heq
    omega

/-! ## Segments -/

def Seg (next : α → Option α) : Option α → List α → Option α → Prop
  | p, [], q => p = q
  | p, a :: l, q => p = some a ∧ Seg next (next a) l q

@[simp] theorem seg_nil : Seg next p [] q ↔ p = q := Iff.rfl

@[simp] theorem seg_cons : Seg next p (a :: l) q ↔ p = some a ∧ Seg next (next a) l q := Iff.rfl

theorem chain_iff_seg : Chain next p l ↔ Seg next p l none := by
  induction l generalizing p with
  | nil => rfl
  | cons a l ih => rw [chain_cons, seg_cons, ih]

theorem seg_append : Seg next p (l₁ ++ l₂) q ↔ ∃ r, Seg next p l₁ r ∧ Seg next r l₂ q := by
  induction l₁ generalizing p with
  | nil => simp
  | cons a l₁ ih =>
    simp only [List.cons_append, seg_cons, ih]
    constructor
    · rintro ⟨hp, r, h₁, h₂⟩
      exact ⟨r, ⟨hp, h₁⟩, h₂⟩
    · rintro ⟨r, ⟨hp, h₁⟩, h₂⟩
      exact ⟨hp, r, h₁, h₂⟩

/-- A segment around one of its nodes. -/
theorem seg_append_cons : Seg next p (l₁ ++ a :: l₂) q ↔ Seg next p l₁ (some a) ∧ Seg next (next a) l₂ q := by
  rw [seg_append]
  constructor
  · rintro ⟨r, h₁, rfl, h₂⟩
    exact ⟨h₁, h₂⟩
  · rintro ⟨h₁, h₂⟩
    exact ⟨some a, h₁, rfl, h₂⟩

theorem Seg.congr (h : Seg next p l q) (hn : ∀ a ∈ l, next' a = next a) :
    Seg next' p l q := by
  induction l generalizing p with
  | nil => exact h
  | cons a l ih =>
    refine ⟨h.1, ?_⟩
    rw [hn a (List.mem_cons_self ..)]
    exact ih h.2 fun b hb => hn b (List.mem_cons_of_mem _ hb)

theorem Chain.congr (h : Chain next p l) (hn : ∀ a ∈ l, next' a = next a) : Chain next' p l :=
  chain_iff_seg.2 ((chain_iff_seg.1 h).congr hn)

theorem Seg.start (h : Seg next p l q) : p = l.head?.or q := by
  cases l with
  | nil => exact h
  | cons a l => exact h.1

variable [DecidableEq α]

theorem Chain.update (h : Chain next p l) (ha : a ∉ l) : Chain (update next a q) p l :=
  h.congr fun b hb => update_of_ne (fun he : b = a => ha (he ▸ hb)) _ _

/-- A node put in front of a chain. -/
theorem Chain.push (h : Chain next p l) (ha : a ∉ l) : Chain (Function.update next a p) (some a) (a :: l) :=
  ⟨rfl, by rw [update_self]; exact h.update ha⟩

/-- A node taken out of a chain, behind the node `b`. -/
theorem Chain.unlink (h : Chain next p (l₁ ++ b :: a :: l₂)) (hn : (l₁ ++ b :: a :: l₂).Nodup) :
    Chain (Function.update next b (next a)) p (l₁ ++ b :: l₂) := by
  induction l₁ generalizing p with
  | nil =>
    simp only [List.nil_append] at h hn ⊢
    have hb : b ∉ l₂ := fun hb => (List.nodup_cons.1 hn).1 (List.mem_cons_of_mem _ hb)
    refine ⟨h.1, ?_⟩
    rw [update_self]
    exact h.2.2.update hb
  | cons c l₁ ih =>
    simp only [List.cons_append] at h hn ⊢
    have hcb : c ≠ b := fun he => (List.nodup_cons.1 hn).1 (by simp [he])
    refine ⟨h.1, ?_⟩
    rw [update_of_ne hcb]
    exact ih h.2 (List.nodup_cons.1 hn).2

theorem seg_update {r : Option α} (ha : a ∉ l) :
    Seg (update next a r) p l q ↔ Seg next p l q := by
  have hne : ∀ b ∈ l, update next a r b = next b := fun b hb => update_of_ne (fun he : b = a => ha (he ▸ hb)) _ _
  exact ⟨fun h => h.congr fun b hb => (hne b hb).symm, fun h => h.congr hne⟩

/-- A segment that ends elsewhere. -/
theorem Seg.relink (h : Seg next p (l ++ [b]) q) (hb : b ∉ l) (r : Option α) : Seg (update next b r) p (l ++ [b]) r := by
  rw [seg_append_cons] at h ⊢
  exact ⟨(seg_update hb).2 h.1, by rw [update_self]; rfl⟩

/-- Two segments exchanged. -/
theorem Seg.exchange (h : Seg next p (l₁ ++ [a] ++ (l₂ ++ [b])) q) (hn : (l₁ ++ [a] ++ (l₂ ++ [b])).Nodup) :
    Seg (update (update next b p) a none) (next a) (l₂ ++ [b] ++ (l₁ ++ [a])) none := by
  obtain ⟨r, h₁, h₂⟩ := seg_append.1 h
  obtain rfl : next a = r := (seg_append_cons.1 h₁).2
  simp only [List.nodup_append, List.mem_append, List.mem_singleton] at hn
  obtain ⟨⟨-, -, ha⟩, ⟨-, -, hb⟩, hdis⟩ := hn
  have ha₂ : a ∉ l₂ ++ [b] := fun hm => hdis a (.inr rfl) a (by simpa using hm) rfl
  have hb₁ : b ∉ l₁ ++ [a] := fun hm => hdis b (by simpa using hm) b (.inr rfl) rfl
  refine seg_append.2 ⟨p, ?_, ?_⟩
  · rw [seg_update ha₂]
    exact h₂.relink (fun hm => hb b hm b rfl rfl) p
  · exact ((seg_update hb₁).2 h₁).relink (fun hm => ha a hm a rfl rfl) none

/-! ## Walking along a chain that changes -/

section Walk

variable {σ φ : Type*} {walkNext : σ → α → Option α} {body : α → σ → Except φ σ}

/-- Every node met is given to `body` after the pointer to the next one was read. -/
def walk (walkNext : σ → α → Option α) (body : α → σ → Except φ σ) (exhausted : φ) : ℕ → Option α → σ → Except φ σ
  | _, none, s => .ok s
  | 0, some _, _ => .error exhausted
  | rounds + 1, some a, s => body a s >>= walk walkNext body exhausted rounds (walkNext s a)

omit [DecidableEq α] in
/-- **The walk**, where `P l s` says that the nodes of `l` are still to come in the state `s`. -/
theorem walk_spec {P : List α → σ → Prop} (exhausted : φ) (next_eq : ∀ a l s, P (a :: l) s → walkNext s a = l.head?)
    (body_ok : ∀ a l s, P (a :: l) s → ∃ s', body a s = .ok s' ∧ P l s') {s : σ} {rounds : ℕ} (h : P l s)
    (hr : l.length ≤ rounds) : ∃ s', walk walkNext body exhausted rounds l.head? s = .ok s' ∧ P [] s' := by
  induction l generalizing s rounds with
  | nil => exact ⟨s, by cases rounds <;> rfl, h⟩
  | cons a l ih =>
    obtain ⟨s₁, hbody, h₁⟩ := body_ok a l s h
    obtain ⟨rounds, rfl⟩ : ∃ k, rounds = k + 1 := ⟨rounds - 1, by rw [List.length_cons] at hr; omega⟩
    obtain ⟨s', hrest, h'⟩ := ih h₁ (Nat.le_of_succ_le_succ hr)
    refine ⟨s', ?_, h'⟩
    rw [List.head?_cons, walk, hbody, next_eq a l s h]
    exact hrest

end Walk

end Libtarp.Lib
