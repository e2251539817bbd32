import Libtarp.Lib.Chain

/-!
# Lists linked both ways

* `TwoWay`: from the front, following `next`, one meets the nodes of `l`, and from the back,
  following `prev`, the same nodes in opposite order.
* `TwoWay.mirror`: front and back, and `next` and `prev`, exchanged.
* `TwoWay.pushFront`, `TwoWay.popFront`, `TwoWay.remove`, `TwoWay.insert`, `TwoWay.replace`,
  `TwoWay.rotate`, `TwoWay.split`, `TwoWay.join`: what the links have to become.
-/

namespace Libtarp.Lib

open Function

variable {α : Type*} {next prev : α → Option α} {p q front back : Option α} {l l₁ l₂ : List α} {a b c : α}

/-! ## Both ways -/

/-- `l` are the nodes from `front` to `back`. -/
structure TwoWay (next prev : α → Option α) (front back : Option α) (l : List α) : Prop where
  nodup : l.Nodup
  forward : Chain next front l
  backward : Chain prev back l.reverse

theorem twoWay_iff : TwoWay next prev front back l ↔
    l.Nodup ∧ Seg next front l none ∧ Seg prev back l.reverse none := by
  rw [← chain_iff_seg, ← chain_iff_seg]
  exact ⟨fun h => ⟨h.nodup, h.forward, h.backward⟩, fun h => ⟨h.1, h.2.1, h.2.2⟩⟩

theorem TwoWay.mirror (h : TwoWay next prev front back l) : TwoWay prev next back front l.reverse :=
  ⟨List.nodup_reverse.2 h.nodup, h.backward, by rw [List.reverse_reverse]; exact h.forward⟩

theorem twoWay_nil : TwoWay next prev none none [] := ⟨List.nodup_nil, rfl, rfl⟩

theorem TwoWay.front_eq (h : TwoWay next prev front back l) : front = l.head? := by
  have := (twoWay_iff.1 h).2.1.start
  rwa [Option.or_none] at this

theorem TwoWay.back_eq (h : TwoWay next prev front back l) : back = l.getLast? := by
  rw [h.mirror.front_eq, List.head?_reverse]

/-- The neighbours of a node. -/
theorem TwoWay.next_eq (h : TwoWay next prev front back (l₁ ++ a :: l₂)) : next a = l₂.head? := by
  have := (seg_append_cons.1 (twoWay_iff.1 h).2.1).2.start
  rwa [Option.or_none] at this

theorem TwoWay.next_first (h : TwoWay next prev front back (a :: l)) : next a = l.head? :=
  TwoWay.next_eq (show TwoWay next prev front back ([] ++ a :: l) from h)

theorem TwoWay.prev_eq (h : TwoWay next prev front back (l₁ ++ a :: l₂)) : prev a = l₁.getLast? := by
  have hm : TwoWay prev next back front (l₂.reverse ++ a :: l₁.reverse) := by simpa using h.mirror
  rw [hm.next_eq, List.head?_reverse]

theorem TwoWay.prev_first (h : TwoWay next prev front back (a :: l)) : prev a = none :=
  TwoWay.prev_eq (show TwoWay next prev front back ([] ++ a :: l) from h)

variable [DecidableEq α]

theorem twoWay_singleton : TwoWay (update next a none) (update prev a none) (some a) (some a) [a] := by
  simp [twoWay_iff]

/-- A node put in front of the node `b`. -/
theorem TwoWay.pushFront (h : TwoWay next prev front back (b :: l)) (ha : a ∉ b :: l) :
    TwoWay (update next a front) (update (update prev a none) b (some a)) (some a) back (a :: b :: l) := by
  rw [twoWay_iff] at h ⊢
  obtain ⟨hn, hf, hb⟩ := h
  simp only [List.reverse_cons, List.append_assoc, seg_append_cons, List.cons_append, List.nil_append, seg_nil] at hb ⊢
  have hab : a ≠ b := fun he => ha (by simp [he])
  have hal : a ∉ l := fun he => ha (by simp [he])
  have hbl : b ∉ l := (List.nodup_cons.1 hn).1
  refine ⟨List.nodup_cons.2 ⟨ha, hn⟩, ?_, ?_, ?_, ?_⟩
  · rw [seg_cons, update_self, seg_update ha]
    exact ⟨rfl, hf⟩
  · rw [seg_update (by simpa using hbl), seg_update (by simpa using hal)]
    exact hb.1
  · rw [update_self]
  · rw [update_of_ne hab, update_self]
    rfl

/-- The first of two nodes or more taken away. -/
theorem TwoWay.popFront (h : TwoWay next prev front back (a :: b :: l)) :
    TwoWay next (update prev b none) (some b) back (b :: l) := by
  rw [twoWay_iff] at h ⊢
  obtain ⟨hn, hf, hb⟩ := h
  simp only [List.reverse_cons, List.append_assoc, seg_append_cons, List.cons_append, List.nil_append, seg_nil] at hb ⊢
  have hn' := (List.nodup_cons.1 hn).2
  have hbl : b ∉ l := (List.nodup_cons.1 hn').1
  refine ⟨hn', ⟨rfl, hf.2.2⟩, ?_, ?_⟩
  · rw [seg_update (by simpa using hbl)]
    exact hb.1
  · rw [update_self]

/-- A node between two others taken out. -/
theorem TwoWay.remove (h : TwoWay next prev front back (l₁ ++ b :: a :: c :: l₂)) :
    TwoWay (update next b (some c)) (update prev c (some b)) front back (l₁ ++ b :: c :: l₂) := by
  rw [twoWay_iff] at h ⊢
  obtain ⟨hn, hf, hb⟩ := h
  simp only [List.reverse_append, List.reverse_cons, List.append_assoc, seg_append_cons, seg_cons, List.cons_append,
    List.nil_append] at hf hb ⊢
  have hn' : (l₁ ++ b :: c :: l₂).Nodup :=
    hn.sublist (List.Sublist.append_left ((List.sublist_cons_self a _).cons_cons b) _)
  simp only [List.nodup_append, List.nodup_cons, List.mem_cons] at hn'
  obtain ⟨-, ⟨hb', hc', -⟩, hdis⟩ := hn'
  refine ⟨hn.sublist (List.Sublist.append_left ((List.sublist_cons_self a _).cons_cons b) _), ⟨?_, ?_, ?_⟩, ?_, ?_, ?_⟩
  · rw [seg_update fun hm => hdis b hm b (.inl rfl) rfl]
    exact hf.1
  · rw [update_self]
  · rw [update_of_ne (fun he : c = b => hb' (.inl he.symm)), seg_update fun hm => hb' (.inr hm)]
    exact hf.2.2.2
  · rw [seg_update (by simpa using hc')]
    exact hb.1
  · rw [update_self]
  · rw [update_of_ne (fun he : b = c => hb' (.inl he)), seg_update (by
      simpa using fun hm => hdis c hm c (.inr (.inl rfl)) rfl)]
    exact hb.2.2.2

/-- A node put between the nodes `a` and `c`. -/
theorem TwoWay.insert (h : TwoWay next prev front back (l₁ ++ a :: c :: l₂)) (hb : b ∉ l₁ ++ a :: c :: l₂) :
    TwoWay (update (update next b (some c)) a (some b)) (update (update prev c (some b)) b (some a)) front back
      (l₁ ++ a :: b :: c :: l₂) := by
  rw [twoWay_iff] at h ⊢
  obtain ⟨hn, hf, hr⟩ := h
  have hperm : (l₁ ++ a :: b :: c :: l₂).Perm (b :: (l₁ ++ a :: c :: l₂)) := by
    have hmid : (l₁ ++ [a] ++ b :: c :: l₂).Perm (b :: (l₁ ++ [a] ++ c :: l₂)) := List.perm_middle
    simpa using hmid
  refine ⟨hperm.nodup_iff.2 (List.nodup_cons.2 ⟨hb, hn⟩), ?_⟩
  simp only [List.reverse_append, List.reverse_cons, List.append_assoc, seg_append_cons, seg_cons, List.cons_append,
    List.nil_append] at hf hr ⊢
  simp only [List.mem_append, List.mem_cons, not_or] at hb
  simp only [List.nodup_append, List.nodup_cons, List.mem_cons] at hn
  obtain ⟨hb₁, hba, hbc, hb₂⟩ := hb
  obtain ⟨-, ⟨ha, hc, -⟩, hdis⟩ := hn
  have hac : a ≠ c := fun he => ha (.inl he)
  have ha₁ : a ∉ l₁ := fun hm => hdis a hm a (.inl rfl) rfl
  have hc₁ : c ∉ l₁ := fun hm => hdis c hm c (.inr (.inl rfl)) rfl
  have ha₂ : a ∉ l₂ := fun hm => ha (.inr hm)
  refine ⟨⟨?_, ?_, ?_, ?_⟩, ?_, ?_, ?_, ?_⟩
  · rw [seg_update ha₁, seg_update hb₁]
    exact hf.1
  · rw [update_self]
  · rw [update_of_ne hba, update_self]
  · rw [update_of_ne hac.symm, update_of_ne (Ne.symm hbc), seg_update ha₂, seg_update hb₂]
    exact hf.2.2
  · rw [seg_update (by simpa using hb₂), seg_update (by simpa using hc)]
    exact hr.1
  · rw [update_of_ne (Ne.symm hbc), update_self]
  · rw [update_self]
  · rw [update_of_ne (Ne.symm hba), update_of_ne hac, seg_update (by simpa using hb₁), seg_update (by simpa using hc₁)]
    exact hr.2.2

/-- The nodes up to `a` taken away from the nodes from `c` on. -/
theorem TwoWay.split (h : TwoWay next prev front back (l₁ ++ a :: c :: l₂)) :
    TwoWay (update next a none) (update prev c none) front (some a) (l₁ ++ [a]) ∧
      TwoWay (update next a none) (update prev c none) (some c) back (c :: l₂) := by
  rw [twoWay_iff] at h
  obtain ⟨hn, hf, hb⟩ := h
  simp only [List.reverse_append, List.reverse_cons, List.append_assoc, seg_append_cons, seg_cons, List.cons_append,
    List.nil_append] at hf hb
  simp only [List.nodup_append, List.nodup_cons, List.mem_cons] at hn
  obtain ⟨hn₁, ⟨ha, hc, hn₂⟩, hdis⟩ := hn
  have ha₁ : a ∉ l₁ := fun hm => hdis a hm a (.inl rfl) rfl
  have hc₁ : c ∉ l₁ := fun hm => hdis c hm c (.inr (.inl rfl)) rfl
  have ha₂ : a ∉ l₂ := fun hm => ha (.inr hm)
  have hac : a ≠ c := fun he => ha (.inl he)
  constructor
  · refine twoWay_iff.2 ⟨?_, ?_, ?_⟩
    · rw [List.nodup_append]
      refine ⟨hn₁, List.nodup_singleton a, fun x hx y hy => ?_⟩
      rw [List.mem_singleton.1 hy]
      exact hdis x hx a (.inl rfl)
    · rw [seg_append_cons, update_self, seg_update ha₁]
      exact ⟨hf.1, rfl⟩
    · rw [List.reverse_append, List.reverse_singleton, List.singleton_append, seg_cons, update_of_ne hac,
        seg_update (by simpa using hc₁)]
      exact ⟨rfl, hb.2.2⟩
  · refine twoWay_iff.2 ⟨List.nodup_cons.2 ⟨hc, hn₂⟩, ?_, ?_⟩
    · rw [seg_cons, update_of_ne hac.symm, seg_update ha₂]
      exact ⟨rfl, hf.2.2⟩
    · rw [List.reverse_cons, seg_append_cons, update_self, seg_update (by simpa using hc)]
      exact ⟨hb.1, rfl⟩

/-- Two lists put together. -/
theorem TwoWay.join (h₁ : TwoWay next prev front p (l₁ ++ [a])) (h₂ : TwoWay next prev q back (c :: l₂))
    (hd : (l₁ ++ [a]).Disjoint (c :: l₂)) :
    TwoWay (update next a (some c)) (update prev c (some a)) front back (l₁ ++ a :: c :: l₂) := by
  have hsplit : l₁ ++ a :: c :: l₂ = l₁ ++ [a] ++ c :: l₂ := by rw [List.append_assoc, List.singleton_append]
  have ha : a ∉ c :: l₂ := hd (List.mem_append_right _ (List.mem_singleton_self a))
  have hc : c ∉ l₁ ++ [a] := fun hm => hd hm List.mem_cons_self
  rw [twoWay_iff] at h₁ h₂ ⊢
  obtain ⟨hn₁, hf₁, hb₁⟩ := h₁
  obtain ⟨hn₂, hf₂, hb₂⟩ := h₂
  have ha₁ : a ∉ l₁ := fun hm => (List.nodup_append.1 hn₁).2.2 a hm a (List.mem_singleton_self a) rfl
  have hc₂ : c ∉ l₂.reverse := fun hm => (List.nodup_cons.1 hn₂).1 (List.mem_reverse.1 hm)
  have hq : q = some c := hf₂.1
  have hp : p = some a := by
    rw [List.reverse_append, List.reverse_singleton, List.singleton_append] at hb₁
    exact hb₁.1
  rw [hsplit]
  refine ⟨List.nodup_append.2 ⟨hn₁, hn₂, fun x hx y hy he => hd hx (he ▸ hy)⟩, ?_, ?_⟩
  · refine seg_append.2 ⟨some c, hf₁.relink ha₁ _, ?_⟩
    rw [seg_update ha, ← hq]
    exact hf₂
  · rw [List.reverse_append]
    refine seg_append.2 ⟨some a, ?_, ?_⟩
    · rw [List.reverse_cons] at hb₂ ⊢
      exact hb₂.relink hc₂ _
    · rw [seg_update (by rwa [List.mem_reverse]), ← hp]
      exact hb₁

/-- The nodes before `a` moved behind the last node. -/
theorem TwoWay.rotate {x y z : α} {s t u v : List α} (h : TwoWay next prev (some x) (some y) (l₁ ++ l₂))
    (h₁ : l₁ = x :: s) (h₁' : l₁ = u ++ [z]) (h₂ : l₂ = a :: t) (h₂' : l₂ = v ++ [y]) :
    TwoWay (update (update next y (some x)) z none) (update (update prev x (some y)) a none) (some a) (some z)
      (l₂ ++ l₁) := by
  have hz : next z = some a := by
    have := h
    rw [h₁', h₂, List.append_assoc] at this
    exact this.next_eq
  have ha : prev a = some z := by
    have := h
    rw [h₂] at this
    rw [this.prev_eq, h₁', List.getLast?_concat]
  rw [twoWay_iff] at h ⊢
  obtain ⟨hn, hf, hb⟩ := h
  refine ⟨(List.perm_append_comm.nodup_iff).1 hn, ?_, ?_⟩
  · rw [h₁', h₂'] at hf hn ⊢
    exact hz ▸ hf.exchange hn
  · rw [List.reverse_append] at hb ⊢
    have hn' : (l₂.reverse ++ l₁.reverse).Nodup := by
      rw [← List.reverse_append]
      exact List.nodup_reverse.2 hn
    rw [h₁, h₂, List.reverse_cons, List.reverse_cons] at hb hn' ⊢
    exact ha ▸ hb.exchange hn'

/-! ## Writing through a pointer that may be null -/

/-- A write to the node a pointer leads to, if there is one. -/
def writeAt (f : α → Option α) (p v : Option α) : α → Option α :=
  match p with
  | some a => update f a v
  | none => f

theorem writeAt_of_ne {f : α → Option α} {v : Option α} (h : p ≠ some a) : writeAt f p v a = f a := by
  cases p with
  | none => rfl
  | some b => exact update_of_ne (fun he : a = b => h (he ▸ rfl)) _ _

theorem seg_writeAt {v : Option α} (h : ∀ b, q = some b → b ∉ l) :
    Seg (writeAt next q v) p l front ↔ Seg next p l front := by
  cases q with
  | none => rfl
  | some b => exact seg_update (h b rfl)

/-- A segment whose end is made to lead to another node, written through the pointer to its last node. -/
theorem Seg.writeAt_last (h : Seg next p l q) (hn : l.Nodup) (r : Option α) :
    Seg (writeAt next l.getLast? r) (if l = [] then r else p) l r := by
  rcases List.eq_nil_or_concat l with rfl | ⟨l, b, rfl⟩
  · exact rfl
  · rw [List.concat_eq_append] at h hn ⊢
    rw [if_neg (by simp), List.getLast?_concat]
    exact h.relink (fun hm => (List.nodup_append.1 hn).2.2 b hm b (List.mem_singleton_self b) rfl) r

/-- One half of an exchange of the node `a` for `b`. -/
theorem Seg.replace (h : Seg next p (l₁ ++ a :: l₂) none) (hn : (l₁ ++ a :: l₂).Nodup) (hb : b ∉ l₁ ++ a :: l₂) :
    Seg (writeAt (update next b (next a)) l₁.getLast? (some b)) (if l₁ = [] then some b else p) (l₁ ++ b :: l₂)
      none := by
  rw [seg_append_cons] at h
  simp only [List.mem_append, List.mem_cons, not_or] at hb
  rw [List.nodup_append] at hn
  obtain ⟨hn₁, -, hdis⟩ := hn
  rw [seg_append_cons]
  refine ⟨((seg_update hb.1).2 h.1).writeAt_last hn₁ (some b), ?_⟩
  have hlast : l₁.getLast? ≠ some b := fun he => hb.1 (List.mem_of_mem_getLast? he)
  rw [writeAt_of_ne hlast, update_self, seg_writeAt, seg_update hb.2.2]
  · exact h.2
  · intro c hc hm
    exact hdis c (List.mem_of_mem_getLast? hc) c (List.mem_cons_of_mem _ hm) rfl

/-- The node `b` put in the place of `a`. -/
theorem TwoWay.replace (h : TwoWay next prev front back (l₁ ++ a :: l₂)) (hb : b ∉ l₁ ++ a :: l₂) :
    TwoWay (writeAt (update next b (next a)) (prev a) (some b)) (writeAt (update prev b (prev a)) (next a) (some b))
      (if l₁ = [] then some b else front) (if l₂ = [] then some b else back) (l₁ ++ b :: l₂) := by
  have hnext := h.next_eq
  have hprev := h.prev_eq
  rw [twoWay_iff] at h ⊢
  obtain ⟨hn, hf, hr⟩ := h
  refine ⟨?_, ?_, ?_⟩
  · have hperm : (l₁ ++ b :: l₂).Perm (b :: (l₁ ++ l₂)) := List.perm_middle
    have hsub : List.Sublist (l₁ ++ l₂) (l₁ ++ a :: l₂) := List.Sublist.append_left (List.sublist_cons_self a l₂) l₁
    exact hperm.nodup_iff.2 (List.nodup_cons.2 ⟨fun hm => hb (hsub.subset hm), hn.sublist hsub⟩)
  · rw [hprev]
    exact hf.replace hn hb
  · have hrev : ∀ c, (l₁ ++ c :: l₂).reverse = l₂.reverse ++ c :: l₁.reverse := by simp
    rw [hrev] at hr ⊢
    have hfirst : next a = l₂.reverse.getLast? := by rw [hnext, List.getLast?_reverse]
    have hempty : (if l₂ = [] then some b else back) = if l₂.reverse = [] then some b else back := by simp
    rw [hfirst, hempty]
    apply hr.replace
    · rw [← hrev]
      exact List.nodup_reverse.2 hn
    · rw [← hrev, List.mem_reverse]
      exact hb

end Libtarp.Lib
