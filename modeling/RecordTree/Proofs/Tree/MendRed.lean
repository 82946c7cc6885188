import RecordTree.Proofs.Tree.Rotate
import RecordTree.Tree.Insert

/-!
# `RecordTree.Proofs.Tree.MendRed`: mending red under red

The invariant of the repair after an insertion: the tree at `id` is balanced with a red top,
and the context around it fits (`Context.Fits`), so the only rule that can be broken is that
`id` and its parent are both red, or that `id` is a red root. Each turn of the loop either ends
with a red-black tree or moves the position two levels up, where the same holds again.

* `Tree.returns_mendRedFrom`: from any such state the repair ends in a red-black tree with the
  same nodes in the same order, after at most two rotations.
* `Tree.returns_mendRedElse`: the same for `Tree.mendRedElse`, the repair with anything at all put
  in the place of what it does where a red parent has no parent. So it never comes to that.
-/

set_option autoImplicit false

namespace RecordTree

variable {ρ σ : Type} [Linked ρ] [LawfulLinked ρ] {aug : Augmentation ρ σ}
  {Right : Nat → Payloads ρ → σ → Shape → Prop}

/-- With a black uncle and the red node on the outer side, one rotation ends the matter. -/
theorem Mending.raise (turns : aug.Turns Right) {k h total : Nat} {s₀ s : Store ρ} {old : Shape}
    {t : Tree} {x : σ} {above : Context} {side : Side} {up grand : RecordId}
    {outer inner uncle : Shape}
    (m : Mending Right k s₀ old t s x
      (above.fill (.join side .black (.join side .red outer up inner) grand uncle)))
    (houter : outer.Balanced h) (hinner : inner.Balanced h) (hinnerc : inner.color = .black)
    (huncle : uncle.Balanced h) (hunclec : uncle.color = .black)
    (habove : above.Fits total (h + 1)) :
    (t.rotate aug grand side.flip).Returns s x fun t' s' x' =>
      up < s'.size ∧ grand < s'.size ∧ ∃ shape, shape.RedBlack total ∧
        Mending Right (k + 1) s₀ old t' ((s'.paint? (some up) .black).paint? (some grand) .red)
          x' shape := by
  -- `Mending.rotate` lifts the far child, so the two sides change names.
  have hshape : above.fill (.join side .black (.join side .red outer up inner) grand uncle) =
      above.fill (.join side.flip .black uncle grand (.join side.flip .red inner up outer)) := by
    simp
  rw [hshape] at m
  refine (m.rotate turns).mono ?_
  intro t' s' x' m₁
  have m₂ := (m₁.paint_top turns .black).paint_near turns .red
  rw [Shape.root?_join, Shape.paint_join] at m₂
  refine ⟨m₁.hasShape.lt_size (by simp), m₁.hasShape.lt_size (by simp), _, ?_, m₂⟩
  refine Context.redBlack_fill.mpr ⟨h + 1, ?_, habove, .inl (Shape.color_join ..)⟩
  refine Shape.balanced_join_black.mpr ⟨?_, houter⟩
  exact Shape.balanced_join_red.mpr ⟨huncle, hinner, hunclec, hinnerc⟩

namespace Tree

/-- With a black uncle, one or two rotations end a red-under-red. -/
theorem returns_raiseParent (turns : aug.Turns Right) {k h total : Nat} {s₀ s : Store ρ}
    {old : Shape} {t : Tree} {x : σ} {above : Context} {side side' : Side}
    {id parent grand : RecordId} {new sibling uncle : Shape}
    (m : Mending Right k s₀ old t s x
      (above.fill (.join side .black (.join side' .red new parent sibling) grand uncle)))
    (hroot : new.root? = some id) (hred : new.color = .red) (hnew : new.Balanced h)
    (hsibling : sibling.Balanced h) (hsiblingc : sibling.color = .black)
    (huncle : uncle.Balanced h) (hunclec : uncle.color = .black)
    (habove : above.Fits total (h + 1)) :
    (t.raiseParent aug id parent grand side).Returns s x fun t' s' x' =>
      ∃ k' ≤ k + 2, ∃ shape, Mending Right k' s₀ old t' s' x' shape ∧ shape.RedBlack total := by
  have hparent : s.node parent = .ok (.placed (some grand) side' new.root? sibling.root? .red) :=
    m.hasShape.node_top (C := .under side .black grand uncle above)
  have hne : sibling.root? ≠ some id :=
    m.hasShape.child_ne (C := .under side .black grand uncle above) (Shape.mem_of_root? hroot)
  simp only [raiseParent, Update.returns_bind, Update.returns_node]
  refine ⟨_, hparent, ?_⟩
  -- The code finds out which child it is by comparing the links.
  obtain rfl | rfl : side' = side ∨ side' = side.flip := by
    cases side <;> cases side' <;> simp
  · -- The outer child: the parent rises at once.
    simp only [Node.child_flip_placed, hne, if_false, Update.returns_bind, Update.returns_pure,
      Update.returns_paint, Store.size_paint?]
    refine (m.raise turns hnew hsibling hsiblingc huncle hunclec habove).mono ?_
    rintro t' s' x' ⟨hup, hg, shape, hshape, m'⟩
    exact ⟨hup, hg, k + 1, by omega, shape, m', hshape⟩
  · -- The inner child: it is rotated outward first, and rises in the parent's stead.
    obtain ⟨a, b, hjoin⟩ := Shape.exists_join hroot side
    rw [hred] at hjoin
    subst hjoin
    obtain ⟨ha, hb, hac, hbc⟩ := Shape.balanced_join_red.mp hnew
    simp only [Node.child_placed, hroot, if_true, Update.returns_bind, Update.returns_pure,
      Update.returns_paint, Store.size_paint?]
    rw [Shape.join_flip] at m
    refine (m.rotate turns (C := .under side .black grand uncle above)).mono
      fun t₁ s₁ x₁ m₁ => ?_
    refine (Mending.raise turns m₁ (Shape.balanced_join_red.mpr ⟨hsibling, ha, hsiblingc, hac⟩)
      hb hbc huncle hunclec habove).mono ?_
    rintro t' s' x' ⟨hup, hg, shape, hshape, m'⟩
    exact ⟨hup, hg, k + 2, by omega, shape, m', hshape⟩

/-- The repair with `orphan` in the place of what it does where the red parent has no parent. -/
def mendRedElse (aug : Augmentation ρ σ) (orphan : Tree → RecordId → Update ρ σ Tree) :
    Nat → Tree → RecordId → Update ρ σ Tree
  | 0, _, _ => throw .endless
  | steps + 1, t, id => do
    match (← Update.node id).parent with
    | none => do
      Update.paint id .black
      pure t
    | some parent => do
      let p ← Update.node parent
      match p.color, p.parent with
      | .black, _ => pure t
      | .red, none => orphan t parent
      | .red, some grand => do
        let g ← Update.node grand
        let side := g.sideOf (some parent)
        let uncle := g.child side.flip
        match ← Update.colorOf uncle with
        | .red => do
          Update.paint parent .black
          Update.paint? uncle .black
          Update.paint grand .red
          mendRedElse aug orphan steps t grand
        | .black => t.raiseParent aug id parent grand side

omit [LawfulLinked ρ] in
/-- What the repair itself does there is to paint the parent black. -/
theorem mendRedElse_eq (steps : Nat) :
    mendRedElse aug (fun t parent => do
      Update.paint parent .black
      pure t) steps = mendRedFrom aug steps := by
  induction steps with
  | zero => rfl
  | succ steps ih =>
    funext t id
    rw [mendRedElse, ih]
    rfl

/-- The repair ends in a red-black tree, whatever `orphan` is. Its black height is the old one, or
one more if the root was reached and turned from red to black. -/
theorem returns_mendRedElse (orphan : Tree → RecordId → Update ρ σ Tree)
    (turns : aug.Turns Right) {k total : Nat} {s₀ : Store ρ} {old : Shape}
    {t : Tree} (steps : Nat) {s : Store ρ} {x : σ} {C : Context} {new : Shape} {id : RecordId}
    {h : Nat} (m : Mending Right k s₀ old t s x (C.fill new)) (hroot : new.root? = some id)
    (hred : new.color = .red) (hnew : new.Balanced h) (hctx : C.Fits total h)
    (hsteps : C.depth < steps) :
    (mendRedElse aug orphan steps t id).Returns s x fun t' s' x' =>
      ∃ k' ≤ k + 2, ∃ shape, Mending Right k' s₀ old t' s' x' shape ∧
        (shape.RedBlack total ∨ shape.RedBlack (total + 1)) := by
  -- The invariant: the tree at `id` is balanced with a red top, and the context fits it.
  induction steps generalizing s C new id h with
  | zero => omega
  | succ steps ih =>
    obtain ⟨a, b, hjoin⟩ := Shape.exists_join hroot .left
    rw [hred] at hjoin
    have hid : s.node id = .ok (.placed C.parent .left a.root? b.root? .red) := by
      rw [hjoin] at m
      exact m.hasShape.node_top
    simp only [mendRedElse, Update.returns_bind, Update.returns_node]
    refine ⟨_, hid, ?_⟩
    rw [Node.parent_placed]
    cases hctx with
    | top =>
      -- A red root turns black, which adds one black to each path.
      have hpaint := m.paint turns .black (C := .top)
      simp only [Context.parent, Update.returns_bind, Update.returns_paint, Update.returns_pure]
      rw [hroot] at hpaint
      refine ⟨Store.lt_of_node hid, k, by omega, _, hpaint, .inr ⟨?_, ?_⟩⟩
      · rw [hjoin, Shape.paint_join, Context.fill, Shape.color_join]
      · rw [hjoin, Shape.balanced_join_red] at hnew
        rw [hjoin, Shape.paint_join, Context.fill, Shape.balanced_join_black]
        exact ⟨hnew.1, hnew.2.1⟩
    | @black h side p sibling above hsibling habove =>
      -- Under a black parent nothing is broken.
      have hp : s.node p = .ok (.placed above.parent side new.root? sibling.root? .black) :=
        m.hasShape.node_top
      simp only [Context.parent, Update.returns_bind, Update.returns_node]
      refine ⟨_, hp, ?_⟩
      simp only [Node.color_placed, Node.parent_placed, Update.returns_pure]
      exact ⟨k, by omega, _, m, .inl (Context.redBlack_fill.mpr
        ⟨h, hnew, .black hsibling habove, .inr rfl⟩)⟩
    | @red h side p sibling above hsibling hsiblingc habovec habove =>
      have hp : s.node p = .ok (.placed above.parent side new.root? sibling.root? .red) :=
        m.hasShape.node_top
      simp only [Context.parent, Update.returns_bind, Update.returns_node]
      refine ⟨_, hp, ?_⟩
      -- A red parent is not the root, so there is a grandparent, and it is black.
      cases habove with
      | top => cases habovec
      | red => cases habovec
      | @black h side' grand uncle above huncle habove =>
        have hgrand : s.node grand =
            .ok (.placed above.parent side' (some p) uncle.root? .black) := by
          have h := m.hasShape.node_top (C := above) (a := .join side .red new p sibling)
          rwa [Shape.root?_join] at h
        have hne : uncle.root? ≠ some p := m.hasShape.child_ne (C := above) (by simp)
        simp only [Node.color_placed, Node.parent_placed, Context.parent, Update.returns_bind,
          Update.returns_node]
        refine ⟨_, hgrand, ?_⟩
        rw [Node.sideOf_placed hne.symm, Node.child_flip_placed]
        have mfar := m.hasShape.far (C := above)
        rw [mfar.returns_colorOf]
        cases hunclec : uncle.color with
        | black =>
          refine (returns_raiseParent turns m hroot hred hnew hsibling hsiblingc huncle hunclec
            habove).mono ?_
          rintro t' s' x' ⟨k', hk, shape, m', hshape⟩
          exact ⟨k', hk, shape, m', .inl hshape⟩
        | red =>
          -- Recoloured, the grandparent is the red top of a balanced tree two levels up.
          have m₁ := (m.paint_top turns .black (C := .under side' .black grand uncle above)
            |>.paint_far turns .black (C := above) |>.paint_top turns .red (C := above))
          have hdepth : above.depth < steps := by
            simp only [Context.depth] at hsteps
            omega
          simp only [Update.returns_bind, Update.returns_paint, Update.returns_paint?,
            Store.size_paint?]
          refine ⟨Store.lt_of_node hp, fun j hj => ?_, Store.lt_of_node hgrand,
            ih m₁ (Shape.root?_join ..) (Shape.color_join ..) ?_ habove hdepth⟩
          · refine m.hasShape.lt_size ?_
            simp [Context.fill, Shape.mem_of_root? hj]
          · refine Shape.balanced_join_red.mpr ⟨Shape.balanced_join_black.mpr ⟨hnew, hsibling⟩,
              huncle.paint_black hunclec, Shape.color_join .., Shape.color_paint_black _⟩

/-- The repair ends in a red-black tree. Its black height is the old one, or one more if the
root was reached and turned from red to black. -/
theorem returns_mendRedFrom (turns : aug.Turns Right) {k total : Nat} {s₀ : Store ρ} {old : Shape}
    {t : Tree} (steps : Nat) {s : Store ρ} {x : σ} {C : Context} {new : Shape} {id : RecordId}
    {h : Nat} (m : Mending Right k s₀ old t s x (C.fill new)) (hroot : new.root? = some id)
    (hred : new.color = .red) (hnew : new.Balanced h) (hctx : C.Fits total h)
    (hsteps : C.depth < steps) :
    (t.mendRedFrom aug steps id).Returns s x fun t' s' x' =>
      ∃ k' ≤ k + 2, ∃ shape, Mending Right k' s₀ old t' s' x' shape ∧
        (shape.RedBlack total ∨ shape.RedBlack (total + 1)) := by
  rw [← mendRedElse_eq]
  exact returns_mendRedElse _ turns steps m hroot hred hnew hctx hsteps

end Tree

end RecordTree
