import Libtarp.Lib.SearchTree
import Mathlib.Data.Set.Card
import Mathlib.Logic.Relation

/-!
# Trees of linked nodes

Nodes are addresses, and `ch` gives the left and the right child pointer of each. A
pointer to a tree of nodes determines the tree, so the tree serves as the description of
what the memory holds.

* `Linked`: the tree found from a pointer on.
* `linked_plug`: a linked tree seen from a hole in it: the frames above, and what the
  pointer of the hole (`holePtr`) leads to.
* `Linked.congr`, `CtxLinked.congr`, `CtxLinked.set_hole`: what a write leaves alone.
* `Linked.reachable_iff`: the nodes of the tree are those reachable from the pointer.
* `Linked.postorder_later`: in the postorder no node stands before one that can be reached from it.
* `destroyTree_spec`: a recursion that destroys a tree whose memory it may not read afterwards.
-/

namespace Libtarp.Lib

open BinaryTree

variable {α : Type*} {ch ch' : α → Side → Option α} {root root' p : Option α}

/-- `t` is the tree of nodes found from the pointer `p` on. -/
def Linked (ch : α → Side → Option α) : Option α → BinaryTree α → Prop
  | p, .nil => p = none
  | p, .node a l r => p = some a ∧ Linked ch (ch a .left) l ∧ Linked ch (ch a .right) r

/-- The pointer a hole below the frames `c` is filled through. -/
def holePtr (ch : α → Side → Option α) (root : Option α) : List (Frame α) → Option α
  | [] => root
  | f :: _ => ch f.node f.side

/-- What `Linked` says of the frames above a hole. -/
def CtxLinked (ch : α → Side → Option α) (root : Option α) : List (Frame α) → Prop
  | [] => True
  | f :: c => Linked ch (ch f.node f.side.other) f.sibling ∧ holePtr ch root c = some f.node ∧
      CtxLinked ch root c

@[simp] theorem linked_nil : Linked ch p .nil ↔ p = none := Iff.rfl

@[simp] theorem linked_node {a : α} {l r : BinaryTree α} : Linked ch p (.node a l r) ↔
    p = some a ∧ Linked ch (ch a .left) l ∧ Linked ch (ch a .right) r := Iff.rfl

theorem linked_none {t : BinaryTree α} : Linked ch none t ↔ t = .nil := by
  cases t <;> simp

theorem linked_some {a : α} {t : BinaryTree α} : Linked ch (some a) t ↔
    ∃ l r, t = .node a l r ∧ Linked ch (ch a .left) l ∧ Linked ch (ch a .right) r := by
  cases t with
  | nil => simp
  | node b l r =>
    simp only [linked_node, Option.some.injEq, node.injEq]
    constructor
    · rintro ⟨rfl, hl, hr⟩; exact ⟨l, r, ⟨rfl, rfl, rfl⟩, hl, hr⟩
    · rintro ⟨l', r', ⟨rfl, rfl, rfl⟩, hl, hr⟩; exact ⟨rfl, hl, hr⟩

theorem linked_fill {f : Frame α} {t : BinaryTree α} : Linked ch p (f.fill t) ↔
    p = some f.node ∧ Linked ch (ch f.node f.side) t ∧ Linked ch (ch f.node f.side.other) f.sibling := by
  obtain ⟨side, a, s⟩ := f
  cases side with
  | left => simp only [Frame.fill, linked_node, Side.other]
  | right => simp only [Frame.fill, linked_node, Side.other]; tauto

theorem linked_plug {c : List (Frame α)} {t : BinaryTree α} :
    Linked ch root (plug c t) ↔ CtxLinked ch root c ∧ Linked ch (holePtr ch root c) t := by
  induction c generalizing t with
  | nil => simp [CtxLinked, holePtr]
  | cons f c ih =>
    rw [plug_cons, ih, linked_fill, CtxLinked, holePtr]
    tauto

/-- A pointer leads to one tree only. -/
theorem Linked.unique {t t' : BinaryTree α} (h : Linked ch p t) (h' : Linked ch p t') : t = t' := by
  induction t generalizing p t' with
  | nil => rw [linked_nil] at h; subst h; exact (linked_none.1 h').symm
  | node a l r ihl ihr =>
    obtain ⟨rfl, hl, hr⟩ := h
    obtain ⟨l', r', rfl, hl', hr'⟩ := linked_some.1 h'
    rw [ihl hl hl', ihr hr hr']

theorem Linked.congr {t : BinaryTree α} (h : Linked ch p t) (heq : ∀ a ∈ inorder t, ch' a = ch a) :
    Linked ch' p t := by
  induction t generalizing p with
  | nil => exact h
  | node a l r ihl ihr =>
    obtain ⟨rfl, hl, hr⟩ := h
    have ha : ch' a = ch a := heq a (by simp)
    refine ⟨rfl, ?_, ?_⟩
    · rw [ha]; exact ihl hl fun x hx => heq x (by simp [hx])
    · rw [ha]; exact ihr hr fun x hx => heq x (by simp [hx])

theorem CtxLinked.congr {c : List (Frame α)} (h : CtxLinked ch root c)
    (heq : ∀ a ∈ ctxValues c, ch' a = ch a) : CtxLinked ch' root c := by
  induction c with
  | nil => trivial
  | cons f c ih =>
    obtain ⟨hs, hp, hc⟩ := h
    have hf : ch' f.node = ch f.node := heq _ (mem_ctxValues_cons.2 (.inl rfl))
    refine ⟨?_, ?_, ih hc fun a ha => heq a (mem_ctxValues_cons.2 (.inr (.inr ha)))⟩
    · rw [hf]; exact hs.congr fun a ha => heq a (mem_ctxValues_cons.2 (.inr (.inl ha)))
    · cases c with
      | nil => exact hp
      | cons g c =>
        rw [holePtr, heq g.node (mem_ctxValues_cons.2 (.inr (.inr (mem_ctxValues_cons.2 (.inl rfl)))))]
        exact hp

/-- Writing the pointer of the hole leaves the frames linked as they were. -/
theorem CtxLinked.set_hole {c : List (Frame α)} (h : CtxLinked ch root c)
    (hn : (ctxValues c).Nodup) (hroot : c ≠ [] → root' = root)
    (hhole : ∀ f ∈ c.head?, ch' f.node f.side.other = ch f.node f.side.other)
    (heq : ∀ a ∈ ctxValues c, (∀ f ∈ c.head?, a ≠ f.node) → ch' a = ch a) :
    CtxLinked ch' root' c := by
  cases c with
  | nil => trivial
  | cons f c =>
    obtain ⟨hs, hp, hc⟩ := h
    obtain rfl := hroot (by simp)
    have hne : ∀ a, a ∈ inorder f.sibling ∨ a ∈ ctxValues c → a ≠ f.node := by
      rintro a ha rfl
      obtain ⟨side, b, s⟩ := f
      cases side <;> simp [ctxValues, before, after, List.nodup_append, List.nodup_cons] at hn ha <;> grind
    have hrest : ∀ a, a ∈ inorder f.sibling ∨ a ∈ ctxValues c → ch' a = ch a := fun a ha =>
      heq a (mem_ctxValues_cons.2 (.inr ha)) (by simpa using hne a ha)
    refine ⟨?_, ?_, hc.congr fun a ha => hrest a (.inr ha)⟩
    · rw [hhole f (by simp)]; exact hs.congr fun a ha => hrest a (.inl ha)
    · cases c with
      | nil => exact hp
      | cons g c => rw [holePtr, hrest g.node (.inr (mem_ctxValues_cons.2 (.inl rfl)))]; exact hp

/-- The node `a` can be reached from the pointer `p`. -/
def Reachable (ch : α → Side → Option α) (p : Option α) (a : α) : Prop :=
  ∃ b, p = some b ∧ Relation.ReflTransGen (fun x y => ∃ s, ch x s = some y) b a

theorem Linked.reachable_iff {t : BinaryTree α} (h : Linked ch p t) {a : α} :
    Reachable ch p a ↔ a ∈ inorder t := by
  constructor
  · rintro ⟨b, rfl, hr⟩
    -- a node of a linked tree has its children in the tree
    have key : ∀ (u : BinaryTree α) (q : Option α), Linked ch q u → ∀ x ∈ inorder u, ∀ s y,
        ch x s = some y → y ∈ inorder u := by
      intro u
      induction u with
      | nil => intro q _ x hx; simp at hx
      | node b l r ihl ihr =>
        rintro q ⟨-, hl, hr⟩ x hx s y hxy
        simp only [inorder_node, List.mem_append, List.mem_cons] at hx ⊢
        rcases hx with hx | rfl | hx
        · exact .inl (ihl _ hl x hx s y hxy)
        · cases s with
          | left =>
            rw [hxy, linked_some] at hl
            obtain ⟨l₁, l₂, rfl, -⟩ := hl
            exact .inl (by simp)
          | right =>
            rw [hxy, linked_some] at hr
            obtain ⟨r₁, r₂, rfl, -⟩ := hr
            exact .inr (.inr (by simp))
        · exact .inr (.inr (ihr _ hr x hx s y hxy))
    induction hr with
    | refl =>
      obtain ⟨l, r, rfl, -⟩ := linked_some.1 h
      simp
    | tail _ hs ih => obtain ⟨s, hs⟩ := hs; exact key t _ h _ ih s _ hs
  · intro ha
    induction t generalizing p with
    | nil => simp at ha
    | node b l r ihl ihr =>
      obtain ⟨rfl, hl, hr⟩ := h
      have down : ∀ s, Reachable ch (ch b s) a → Reachable ch (some b) a := by
        rintro s ⟨d, hd, hda⟩
        exact ⟨b, rfl, Relation.ReflTransGen.head ⟨s, hd⟩ hda⟩
      simp only [inorder_node, List.mem_append, List.mem_cons] at ha
      rcases ha with ha | rfl | ha
      · exact down .left (ihl hl ha)
      · exact ⟨a, rfl, Relation.ReflTransGen.refl⟩
      · exact down .right (ihr hr ha)

/-- A tree without repetitions has as many nodes as can be reached. -/
theorem Linked.ncard_reachable {t : BinaryTree α} (h : Linked ch p t) (hn : (inorder t).Nodup) :
    {a | Reachable ch p a}.ncard = t.numNodes := by
  have hset : {a | Reachable ch p a} = {a | a ∈ inorder t} := Set.ext fun a => h.reachable_iff
  classical
  rw [hset, ← length_inorder, ← List.toFinset_card_of_nodup hn, ← Set.ncard_coe_finset]
  congr 1; ext a; simp

theorem Reachable.trans {a b : α} (h : Reachable ch p a) (h' : Reachable ch (some a) b) : Reachable ch p b := by
  obtain ⟨c, rfl, hca⟩ := h
  obtain ⟨d, hd, hdb⟩ := h'
  obtain rfl := Option.some.inj hd
  exact ⟨c, rfl, hca.trans hdb⟩

/-- What can be reached from a node of a subtree is in the subtree. -/
theorem Linked.mem_of_reachable {t : BinaryTree α} (h : Linked ch p t) {a b : α} (ha : a ∈ inorder t)
    (hb : Reachable ch (some a) b) : b ∈ inorder t :=
  h.reachable_iff.1 ((h.reachable_iff.2 ha).trans hb)

/-- **No node stands before one below it** in the postorder, nor does it stand there twice. -/
theorem Linked.postorder_later {t : BinaryTree α} (h : Linked ch p t) (hn : (inorder t).Nodup) :
    (postorder t).Pairwise fun a b => ¬Reachable ch (some a) b := by
  induction t generalizing p with
  | nil => exact List.Pairwise.nil
  | node a l r ihl ihr =>
    obtain ⟨rfl, hl, hr⟩ := h
    rw [inorder_node, List.nodup_append', List.nodup_cons, List.disjoint_cons_right] at hn
    obtain ⟨hnl, ⟨har, hnr⟩, hal, hdis⟩ := hn
    rw [postorder, List.pairwise_append, List.pairwise_append]
    refine ⟨⟨ihl hl hnl, ihr hr hnr, ?_⟩, List.pairwise_singleton .., ?_⟩
    · intro x hx y hy hxy
      exact hdis (hl.mem_of_reachable (mem_postorder.1 hx) hxy) (mem_postorder.1 hy)
    · intro x hx y hy hxy
      obtain rfl := List.mem_singleton.1 hy
      rcases List.mem_append.1 hx with hx | hx
      · exact hal (hl.mem_of_reachable (mem_postorder.1 hx) hxy)
      · exact har (hr.mem_of_reachable (mem_postorder.1 hx) hxy)

/-! ## Destroying a tree -/

section Destroy

variable {σ φ : Type*} (child : σ → α → Side → Option α) (scrap : σ → α → σ) (fault : φ)

/-- Both subtrees of a node are destroyed, and then the node is, which leaves anything in its memory. The list has those
destroyed so far. -/
def destroyTree : ℕ → Option α → σ × List α → Except φ (σ × List α)
  | _, none, s => .ok s
  | 0, some _, _ => .error fault
  | rounds + 1, some a, s => do
    let s ← destroyTree rounds (child s.1 a .left) s
    let s ← destroyTree rounds (child s.1 a .right) s
    pure (scrap s.1 a, s.2 ++ [a])

variable {child scrap}

/-- **What is destroyed**: the nodes of the tree in postorder. The pointers of no other node are written. -/
theorem destroyTree_spec (hscrap : ∀ m a b, b ≠ a → child (scrap m a) b = child m b) {m : σ} {t : BinaryTree α}
    (hl : Linked (child m) p t) (hn : (inorder t).Nodup) {rounds : ℕ} (hr : t.height ≤ rounds) (destroyed : List α) :
    ∃ m', destroyTree child scrap fault rounds p (m, destroyed) = .ok (m', destroyed ++ postorder t) ∧
      ∀ a, a ∉ inorder t → child m' a = child m a := by
  induction t generalizing p rounds m destroyed with
  | nil =>
    obtain rfl : p = none := hl
    refine ⟨m, ?_, fun _ _ => rfl⟩
    rw [postorder, List.append_nil]
    cases rounds <;> rfl
  | node a l r ihl ihr =>
    obtain ⟨rfl, hll, hlr⟩ := hl
    rw [inorder_node, List.nodup_append', List.nodup_cons, List.disjoint_cons_right] at hn
    obtain ⟨hnl, ⟨har, hnr⟩, hal, hdis⟩ := hn
    obtain ⟨rounds, rfl⟩ : ∃ k, rounds = k + 1 := ⟨rounds - 1, by simp only [height] at hr; omega⟩
    simp only [height] at hr
    obtain ⟨m₁, h₁, hkeep₁⟩ := ihl hll hnl (show l.height ≤ rounds by omega) destroyed
    -- the right child is read when the left subtree is gone
    have hlr₁ : Linked (child m₁) (child m₁ a .right) r := by
      rw [hkeep₁ a hal]
      exact hlr.congr fun b hb => hkeep₁ b fun hbl => hdis hbl hb
    obtain ⟨m₂, h₂, hkeep₂⟩ := ihr hlr₁ hnr (show r.height ≤ rounds by omega) (destroyed ++ postorder l)
    refine ⟨scrap m₂ a, ?_, ?_⟩
    · simp only [destroyTree, h₁, h₂, bind, Except.bind, pure, Except.pure, postorder, List.append_assoc]
    · intro b hb
      simp only [inorder_node, List.mem_append, List.mem_cons, not_or] at hb
      rw [hscrap _ _ _ hb.2.1, hkeep₂ b hb.2.2, hkeep₁ b hb.1]

end Destroy

end Libtarp.Lib
