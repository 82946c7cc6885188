import RecordTree.Proofs.Augmentation
import RecordTree.Tree.Rotate

/-!
# `RecordTree.Proofs.Tree.Rotate`: what a repair does with one step

A repair colours nodes and rotates. `HasShape.paint` and `HasShape.rotated` say what either
does to the shape of the tree. Both are a `Reshaped` step: the nodes from left to right stay
the same, and no record outside the tree is touched.

`Mending` is the state of a repair under way: where it has come to from the tree it started
with, by how many rotations, and that the augmentation is content. `Mending.paint` and
`Mending.rotate` are its steps, and every repair is a sequence of them.
-/

set_option autoImplicit false

namespace RecordTree

variable {ρ σ : Type} [Linked ρ]

/-- Painting is lost with the colours. -/
@[simp] theorem Shape.plain_paint (c : Color) (t : Shape) : (t.paint c).plain = t.plain := by
  cases t <;> rfl

/-- `old`, seen through the handle `t` in `s`, became `new`, seen through `t'` in `s'`, by moves
that keep the order of the nodes and touch no other record. -/
structure Reshaped (s : Store ρ) (old : Shape) (t' : Tree) (s' : Store ρ) (new : Shape) : Prop where
  hasShape : t'.HasShape s' new
  inorder : new.inorder = old.inorder
  size : s'.size = s.size
  frame : ∀ j, j ∉ old.inorder → s'.node j = s.node j

namespace Reshaped

variable {s s₁ s₂ : Store ρ} {t t₁ t₂ : Tree} {a b c : Shape}

/-- Nothing was moved. -/
theorem refl (h : t.HasShape s a) : Reshaped s a t s a :=
  ⟨h, rfl, rfl, fun _ _ => rfl⟩

/-- Moves one after the other are moves. -/
theorem trans (h₁ : Reshaped s a t₁ s₁ b) (h₂ : Reshaped s₁ b t₂ s₂ c) :
    Reshaped s a t₂ s₂ c where
  hasShape := h₂.hasShape
  inorder := h₂.inorder.trans h₁.inorder
  size := h₂.size.trans h₁.size
  frame j hj := (h₂.frame j (h₁.inorder ▸ hj)).trans (h₁.frame j hj)

/-- Other changes than those of links do not matter. -/
theorem congr (h : Reshaped s a t s₁ b) (hs : s₂.node = s₁.node) : Reshaped s a t s₂ b where
  hasShape := h.hasShape.congr fun j _ => congrFun hs j
  inorder := h.inorder
  size := (Store.size_eq_of_node hs).trans h.size
  frame j hj := (congrFun hs j).trans (h.frame j hj)

end Reshaped

variable [LawfulLinked ρ]

/-- Colouring the top of the tree in a position. -/
theorem Tree.HasShape.paint {t : Tree} {s : Store ρ} {C : Context} {u : Shape}
    (h : t.HasShape s (C.fill u)) (c : Color) :
    Reshaped s (C.fill u) t (s.paint? u.root? c) (C.fill (u.paint c)) := by
  cases u with
  | leaf => exact .refl h
  | node d l id r =>
    obtain ⟨hsur, hsp⟩ := represents_fill.mp h.represents
    rw [← Shape.join_left] at hsur hsp h ⊢
    obtain ⟨hid, hl, hr⟩ := spells_join.mp hsp
    obtain ⟨hjoin, -, hdisj⟩ := Context.nodup_fill.mp h.nodup
    obtain ⟨hidl, hidr, -, -, -⟩ := Shape.nodup_join.mp hjoin
    have hidC : id ∉ C.ids := hdisj (by simp)
    -- Painting is seen at the top only.
    have hother : ∀ j, j ≠ id →
        (s.paint? (Shape.join .left d l id r).root? c).node j = s.node j := by
      intro j hj
      simp [Store.node_paint?, Ne.symm hj]
    have hinorder : (C.fill (.join .left c l id r)).inorder =
        (C.fill (.join .left d l id r)).inorder := by
      simp [Context.inorder_fill, Shape.join, Shape.inorder]
    refine ⟨⟨represents_fill.mpr ⟨?_, ?_⟩, ?_⟩, ?_, Store.size_paint? .., fun j hj =>
      hother j ?_⟩
    · exact hsur.congr fun j hj => hother j (ne_of_mem_of_not_mem hj hidC)
    · rw [Shape.paint_join]
      refine spells_join.mpr ⟨?_, hl.congr fun j hj => hother j (ne_of_mem_of_not_mem hj hidl),
        hr.congr fun j hj => hother j (ne_of_mem_of_not_mem hj hidr)⟩
      rw [Store.node_paint?, if_pos (Shape.root?_join ..), hid, except_functor_map_ok,
        Node.withColor_placed]
    · rw [Shape.paint_join, hinorder]
      exact h.nodup
    · rw [Shape.paint_join, hinorder]
    · rintro rfl
      exact hj (by simp)

/-! ### Rotations -/

/-- The store after `up`, with `inner` as its child at `side`, rose above `id` under `parent`. -/
def Store.rotated (s : Store ρ) (id up : RecordId) (side : Side) (inner parent : Option RecordId) :
    Store ρ :=
  (((((s.modifyNode id (·.setChild side.flip inner)).setParent inner (some id)).modifyNode up
    (·.setChild side (some id))).setParent (some up) parent).setParent (some id)
    (some up)).changeChild id (some up) parent

section Rotated

variable {s : Store ρ} {id up j : RecordId} {side : Side} {inner parent : Option RecordId}
  {n : Node}

/-- The node that sinks takes the inner child of the one that rises, and has it as its parent. -/
theorem Store.node_rotated_down (hn : s.node id = .ok n) (hup : up ≠ id)
    (hinner : inner ≠ some id) (hparent : parent ≠ some id) :
    (s.rotated id up side inner parent).node id =
      .ok ((n.setChild side.flip inner).withParent (some up)) := by
  simp [rotated, node_modifyNode, node_setParent, node_changeChild, hn, hup, hinner, hparent]

/-- The node that rises has the other one as its child, and takes its parent. -/
theorem Store.node_rotated_up (hn : s.node up = .ok n) (hid : id ≠ up)
    (hinner : inner ≠ some up) (hparent : parent ≠ some up) :
    (s.rotated id up side inner parent).node up =
      .ok ((n.setChild side (some id)).withParent parent) := by
  simp [rotated, node_modifyNode, node_setParent, node_changeChild, hn, hid, hinner, hparent]

/-- The inner child is under the node that sinks. -/
theorem Store.node_rotated_inner (hn : s.node j = .ok n) (hid : id ≠ j) (hup : up ≠ j)
    (hinner : inner = some j) (hparent : parent ≠ some j) :
    (s.rotated id up side inner parent).node j = .ok (n.withParent (some id)) := by
  simp [rotated, node_modifyNode, node_setParent, node_changeChild, hn, hid, hup, hinner, hparent]

/-- The parent has the node that rises in the place of the one that sinks. -/
theorem Store.node_rotated_parent (hn : s.node j = .ok n) (hid : id ≠ j) (hup : up ≠ j)
    (hinner : inner ≠ some j) (hparent : parent = some j) :
    (s.rotated id up side inner parent).node j = .ok (n.swapChild id (some up)) := by
  simp [rotated, node_modifyNode, node_setParent, node_changeChild, hn, hid, hup, hinner, hparent]

/-- No other record changes. -/
theorem Store.node_rotated_of_ne (hid : j ≠ id) (hup : j ≠ up) (hinner : inner ≠ some j)
    (hparent : parent ≠ some j) : (s.rotated id up side inner parent).node j = s.node j := by
  simp [rotated, node_modifyNode, node_setParent, node_changeChild, hid.symm, hup.symm, hinner,
    hparent]

end Rotated

/-- A rotation in its position. -/
theorem Spells.rotated {s : Store ρ} {parent : Option RecordId} {side : Side} {c d : Color}
    {a b e : Shape} {id up : RecordId}
    (h : Spells s parent (.join side c a id (.join side d b up e)))
    (hnodup : (Shape.join side c a id (.join side d b up e)).inorder.Nodup)
    (hout : ∀ j ∈ (Shape.join side c a id (.join side d b up e)).inorder, parent ≠ some j) :
    Spells (s.rotated id up side b.root? parent) parent
      (.join side d (.join side c a id b) up e) := by
  obtain ⟨hid, ha, hinner⟩ := spells_join.mp h
  obtain ⟨hup, hb, he⟩ := spells_join.mp hinner
  obtain ⟨hida, hidup, -, hupnodup, hadisj⟩ := Shape.nodup_join.mp hnodup
  obtain ⟨hupb, hupe, hbnodup, -, hbe⟩ := Shape.nodup_join.mp hupnodup
  simp only [Shape.mem_join, not_or] at hidup
  obtain ⟨hne, hidb, hide⟩ := hidup
  -- The records that a rotation touches are different ones.
  have hqid : b.root? ≠ some id := fun hq => hidb (Shape.mem_of_root? hq)
  have hqup : b.root? ≠ some up := fun hq => hupb (Shape.mem_of_root? hq)
  refine spells_join.mpr ⟨?_, spells_join.mpr ⟨?_, ?_, ?_⟩, ?_⟩
  · show (s.rotated id up side b.root? parent).node up = _
    rw [Store.node_rotated_up hup hne hqup (hout up (by simp)), Shape.root?_join]
    simp
  · show (s.rotated id up side b.root? parent).node id = _
    rw [Store.node_rotated_down hid (Ne.symm hne) hqid (hout id (by simp))]
    simp
  · show Spells _ (some id) a
    refine ha.congr ?_
    intro j hj
    have hup : up ∉ a.inorder := fun hin => hadisj hin (by simp)
    refine Store.node_rotated_of_ne (ne_of_mem_of_not_mem hj hida) (ne_of_mem_of_not_mem hj hup) ?_
      (hout j (by simp [hj]))
    intro hq
    exact hadisj hj (by simp [Shape.mem_of_root? hq])
  · show Spells _ (some id) b
    refine hb.move hbnodup ?_ ?_
    · intro j hj hq
      exact Store.node_rotated_of_ne (ne_of_mem_of_not_mem hj hidb) (ne_of_mem_of_not_mem hj hupb)
        hq (hout j (by simp [hj]))
    · intro j n hq hn
      have hj := Shape.mem_of_root? hq
      exact Store.node_rotated_inner hn (ne_of_mem_of_not_mem hj hidb).symm
        (ne_of_mem_of_not_mem hj hupb).symm hq (hout j (by simp [hj]))
  · show Spells _ (some up) e
    refine he.congr ?_
    intro j hj
    refine Store.node_rotated_of_ne (ne_of_mem_of_not_mem hj hide) (ne_of_mem_of_not_mem hj hupe) ?_
      (hout j (by simp [hj]))
    intro hq
    exact hbe (Shape.mem_of_root? hq) hj

/-- A rotation lets `up` rise above `id`, and keeps the nodes in their order. -/
theorem Tree.HasShape.rotated {t : Tree} {s : Store ρ} {C : Context} {side : Side} {c d : Color}
    {a b e : Shape} {id up : RecordId}
    (h : t.HasShape s (C.fill (.join side c a id (.join side d b up e)))) :
    Reshaped s (C.fill (.join side c a id (.join side d b up e)))
      (t.withChild (some up) C.parent) (s.rotated id up side b.root? C.parent)
      (C.fill (.join side d (.join side c a id b) up e)) := by
  obtain ⟨-, hsp⟩ := represents_fill.mp h.represents
  obtain ⟨hnodup, -, hdisj⟩ := Context.nodup_fill.mp h.nodup
  have hinorder := C.inorder_rotate side c d a b e id up
  -- Below the parent the rotation concerns nothing but the position itself.
  have hspells := hsp.rotated hnodup fun j hj hp => hdisj hj (Context.mem_ids_of_parent hp)
  -- The three records in the position are none of those around it.
  have hctx_ne : ∀ j ∈ C.ids, j ≠ id ∧ j ≠ up ∧ b.root? ≠ some j := by
    intro j hj
    have hid : id ∉ C.ids := hdisj (by simp)
    have hup : up ∉ C.ids := hdisj (by simp)
    refine ⟨ne_of_mem_of_not_mem hj hid, ne_of_mem_of_not_mem hj hup, fun hq => ?_⟩
    exact hdisj (by simp [Shape.mem_of_root? hq]) hj
  have hshape := h.refill (b := .join side d (.join side c a id b) up e)
    (hinorder ▸ h.nodup) hspells (fun j hj hp => ?_) fun j n hp hn => ?_
  · rw [Shape.root?_join] at hshape
    refine ⟨hshape, hinorder, by simp [Store.rotated], fun j hj => ?_⟩
    simp only [Context.mem_fill, Shape.mem_join, not_or] at hj
    obtain ⟨⟨hjid, -, hjup, hjb, -⟩, hjctx⟩ := hj
    exact Store.node_rotated_of_ne hjid hjup (fun hq => hjb (Shape.mem_of_root? hq))
      fun hp => hjctx (Context.mem_ids_of_parent hp)
  · obtain ⟨hjid, hjup, hjb⟩ := hctx_ne j hj
    exact Store.node_rotated_of_ne hjid hjup hjb hp
  · obtain ⟨hjid, hjup, hjb⟩ := hctx_ne j (Context.mem_ids_of_parent hp)
    rw [Store.node_rotated_parent hn hjid.symm hjup.symm hjb hp,
      h.swapChild_eq (Shape.root?_join ..) hp hn, Shape.root?_join]

/-- A rotation changes nodes only. -/
theorem Store.payload_rotated (s : Store ρ) (id up : RecordId) (side : Side)
    (inner parent : Option RecordId) :
    (s.rotated id up side inner parent).payload = s.payload := by
  simp [rotated]

/-! ### Steps of a repair -/

/-- A repair of `old`, begun in `s₀`, has come to `shape` by `k` rotations, and what the
augmentation keeps is right. -/
structure Mending (Right : Nat → Payloads ρ → σ → Shape → Prop) (k : Nat) (s₀ : Store ρ)
    (old : Shape) (t : Tree) (s : Store ρ) (x : σ) (shape : Shape) : Prop where
  reshaped : Reshaped s₀ old t s shape
  right : Right k s.payload x shape

namespace Mending

variable {aug : Augmentation ρ σ} {Right : Nat → Payloads ρ → σ → Shape → Prop} {k : Nat}
  {s₀ s : Store ρ} {old : Shape} {t : Tree} {x : σ} {C : Context} {side : Side} {c d : Color}
  {a b e u : Shape} {id up : RecordId}

omit [LawfulLinked ρ] in
/-- In the middle of a repair the tree has the shape that it has come to. -/
theorem hasShape {shape : Shape} (m : Mending Right k s₀ old t s x shape) : t.HasShape s shape :=
  m.reshaped.hasShape

omit [LawfulLinked ρ] in
/-- A repair can be seen from the far child of the position. -/
theorem far (m : Mending Right k s₀ old t s x (C.fill (.join side c a id b))) :
    Mending Right k s₀ old t s x ((Context.under side.flip c id a C).fill b) := by
  rwa [Context.fill, Shape.join_flip]

omit [LawfulLinked ρ] in
/-- A repair that is seen from the far child can be seen from its parent again. -/
theorem unfar (m : Mending Right k s₀ old t s x ((Context.under side.flip c id a C).fill b)) :
    Mending Right k s₀ old t s x (C.fill (.join side c a id b)) := by
  rwa [Context.fill, Shape.join_flip] at m

/-- Colouring the top of the tree in a position. -/
theorem paint (turns : aug.Turns Right) (m : Mending Right k s₀ old t s x (C.fill u))
    (c : Color) : Mending Right k s₀ old t (s.paint? u.root? c) x (C.fill (u.paint c)) where
  reshaped := m.reshaped.trans (m.hasShape.paint c)
  right := by
    rw [Store.payload_paint?]
    exact turns.recolor (Context.plain_fill_congr (Shape.plain_paint c u).symm) m.right

/-- Colouring a node. -/
theorem paint_top (turns : aug.Turns Right)
    (m : Mending Right k s₀ old t s x (C.fill (.join side c a id b))) (d : Color) :
    Mending Right k s₀ old t (s.paint? (some id) d) x (C.fill (.join side d a id b)) := by
  have m' := m.paint turns d
  rwa [Shape.root?_join, Shape.paint_join] at m'

/-- Colouring the near child of a node. -/
theorem paint_near (turns : aug.Turns Right)
    (m : Mending Right k s₀ old t s x (C.fill (.join side c u id b))) (d : Color) :
    Mending Right k s₀ old t (s.paint? u.root? d) x (C.fill (.join side c (u.paint d) id b)) :=
  m.paint turns d (C := .under side c id b C)

/-- Colouring the far child of a node. -/
theorem paint_far (turns : aug.Turns Right)
    (m : Mending Right k s₀ old t s x (C.fill (.join side c a id u))) (d : Color) :
    Mending Right k s₀ old t (s.paint? u.root? d) x (C.fill (.join side c a id (u.paint d))) :=
  (m.far.paint turns d).unfar

/-- A rotation lets `up` rise above `id`. -/
theorem rotate (turns : aug.Turns Right)
    (m : Mending Right k s₀ old t s x (C.fill (.join side c a id (.join side d b up e)))) :
    (t.rotate aug id side).Returns s x fun t' s' x' =>
      Mending Right (k + 1) s₀ old t' s' x' (C.fill (.join side d (.join side c a id b) up e)) := by
  have h := m.hasShape
  have hid := h.node_top
  have hup := h.far.node_top
  have hparent : ∀ j, C.parent = some j → j < s.size := fun j hj =>
    h.lt_size (Context.mem_fill.mpr (.inr (Context.mem_ids_of_parent hj)))
  have hb : ∀ j, b.root? = some j → j < s.size := fun j hj =>
    h.lt_size (by simp [Shape.mem_of_root? hj])
  -- The call comes after the last change of links, when the new shape stands.
  have hcall := turns.rotate (k := k) (x := x) h.rotated.hasShape
    (by rw [Store.payload_rotated]; exact m.right)
  simp only [Tree.rotate, Update.returns_bind, Update.returns_node]
  refine ⟨_, hid, ?_⟩
  simp only [Node.child_flip_placed, Shape.root?_join, Update.returns_bind, Update.returns_node]
  refine ⟨_, hup, ?_⟩
  simp only [Node.child_placed, Node.parent_placed, Update.returns_modifyNode,
    Update.returns_setParent, returns_changeChild, Update.returns_pure, Store.size_modifyNode,
    Store.size_setParent, Option.some.injEq, forall_eq']
  refine ⟨Store.lt_of_node hid, hb, Store.lt_of_node hup, Store.lt_of_node hup,
    Store.lt_of_node hid, hparent, hcall.mono fun _ s' x' hs => ?_⟩
  exact ⟨m.reshaped.trans (h.rotated.congr hs.1), hs.2⟩

end Mending

end RecordTree
