import RecordTree.Proofs.Tree.Rotate
import RecordTree.Tree.Erase

/-!
# `RecordTree.Proofs.Tree.MendBlack`: mending a shortage of one black

The invariant of the repair after a deletion: the context of the position fits one black more
than the tree in the position has. A red top of that tree makes up for it when it is painted
black, and may until then have red children (`Shape.Mendable`). Each turn of the loop either
ends with a red-black tree or moves the position one level up, where the same holds again. A
red sibling costs one rotation and leaves a red node above the position, so the loop cannot
go on for more than one turn after it.

* `Tree.returns_mendBlackFrom`: from any such state the repair ends in a red-black tree with
  the same nodes in the same order, after at most three rotations.
* `Tree.returns_mendBlackElse`: the same for `Tree.mendBlackElse`, the repair with anything at all
  put in the place of what it does where a sibling is missing. So it never comes to that.
-/

set_option autoImplicit false

namespace RecordTree

/-- A tree that is short of one black where `h + 1` are due. It has `h` blacks on each path, and
a red top may have red children. -/
def Shape.Mendable (h : Nat) (t : Shape) : Prop :=
  match t.color with
  | .red => (t.paint .black).Balanced (h + 1)
  | .black => t.Balanced h

/-- A balanced tree is mendable, with nothing short in it. -/
theorem Shape.Balanced.mendable {h : Nat} {t : Shape} (hb : t.Balanced h) : t.Mendable h := by
  unfold Mendable
  cases hc : t.color with
  | red => exact hb.paint_black hc
  | black => exact hb

variable {ρ σ : Type} [Linked ρ] [LawfulLinked ρ] {aug : Augmentation ρ σ}
  {Right : Nat → Payloads ρ → σ → Shape → Prop}

namespace Tree

/-- A sibling with a red outer child ends the shortage. -/
theorem returns_borrowBlack (turns : aug.Turns Right) {k h total : Nat} {s₀ s : Store ρ}
    {old : Shape} {t : Tree} {x : σ} {above : Context} {side : Side} {c : Color}
    {parent sibling : RecordId} {u near far beside : Shape}
    (m : Mending Right k s₀ old t s x
      (above.fill (.join side c u parent (.join side .black near sibling far))))
    (hu : u.Balanced h) (hnear : near.Balanced h) (hfar : far.Balanced h) (hred : far.color = .red)
    (hctx : (Context.under side c parent beside above).Fits total (h + 1)) :
    (t.borrowBlack aug parent sibling side).Returns s x fun t' s' x' =>
      ∃ shape, Mending Right (k + 1) s₀ old t' s' x' shape ∧ shape.RedBlack total := by
  have hparent := m.hasShape.node_top
  have hsibling := m.hasShape.far.node_top
  -- The colours change hands first, and then the sibling rises.
  have m₁ := (m.paint_far turns c).paint_top turns .black
  rw [Shape.root?_join, Shape.paint_join] at m₁
  have hsibling₁ := m₁.hasShape.far.node_top
  have m₂ := (m₁.far.paint_far turns .black).unfar
  simp only [borrowBlack, Update.returns_bind, Update.returns_node, Update.returns_paint,
    Update.returns_paint?, Store.size_paint?]
  refine ⟨_, hparent, Store.lt_of_node hsibling, Store.lt_of_node hparent, ?_⟩
  rw [Node.color_placed]
  refine ⟨_, hsibling₁, ?_⟩
  rw [Node.child_flip_placed]
  refine ⟨fun j hj => m.hasShape.lt_size (by simp [Shape.mem_of_root? hj]), ?_⟩
  refine (m₂.rotate turns).mono fun t' s' x' m' => ⟨_, m', ?_⟩
  exact hctx.redBlack_join (Shape.balanced_join_black.mpr ⟨hu, hnear⟩) (Shape.color_join ..)
    (hfar.paint_black hred) (Shape.color_paint_black _)

/-- The part of a turn that follows once the sibling is black. A shortage that moves up goes
to `again`. -/
def mendBeside (aug : Augmentation ρ σ)
    (again : Tree → Option RecordId → Option RecordId → Update ρ σ Tree) (t : Tree)
    (parent : RecordId) (side : Side) : Option RecordId → Update ρ σ Tree
  | none => do again t (some parent) (← Update.node parent).parent
  | some sibling => do
    let sib ← Update.node sibling
    let near := sib.child side
    let far := sib.child side.flip
    match ← Update.colorOf near with
    | .black => do
      match ← Update.colorOf far with
      | .black => do
        Update.paint sibling .red
        again t (some parent) (← Update.node parent).parent
      | .red => t.borrowBlack aug parent sibling side
    | .red => do
      match ← Update.colorOf far, near with
      | .black, some inner => do
        Update.paint inner .black
        Update.paint sibling .red
        let t ← t.rotate aug sibling side.flip
        t.borrowBlack aug parent inner side
      | _, _ => t.borrowBlack aug parent sibling side

/-- The part of a turn that comes before: a red sibling rises above the parent, and leaves its near
child, which is black, in its place. -/
def raiseBeside (aug : Augmentation ρ σ) (t : Tree) (parent : RecordId) (side : Side)
    (beside : Option RecordId) : Color → Update ρ σ (Tree × Option RecordId)
  | .black => pure (t, beside)
  | .red => do
    Update.paint? beside .black
    Update.paint parent .red
    let t ← t.rotate aug parent side
    pure (t, (← Update.node parent).child side.flip)

omit [LawfulLinked ρ] in
/-- A turn of the repair of a shortage: a red node is painted black, and a black one has its sibling
looked at. -/
theorem mendBlackFrom_succ (t : Tree) (steps : Nat) (id : Option RecordId) (parent : RecordId) :
    t.mendBlackFrom aug (steps + 1) id (some parent) = (do
      match ← Update.colorOf id with
      | .red => do
        Update.paint? id .black
        pure t
      | .black => do
        let p ← Update.node parent
        let side := p.sideOf id
        let beside := p.child side.flip
        let (t, beside) ← raiseBeside aug t parent side beside (← Update.colorOf beside)
        mendBeside aug (mendBlackFrom aug steps) t parent side beside) := by
  rw [mendBlackFrom]
  refine bind_congr ?_
  intro c
  cases c with
  | red => rfl
  | black =>
    refine bind_congr fun p => bind_congr ?_
    intro c
    cases c with
    | red =>
      simp only [raiseBeside, bind_assoc, pure_bind]
      rfl
    | black => rfl

/-- `mendBeside` with `lone` in the place of what it does where there is no sibling. -/
def mendBesideElse (aug : Augmentation ρ σ)
    (lone : (Tree → Option RecordId → Option RecordId → Update ρ σ Tree) →
      Tree → RecordId → Update ρ σ Tree)
    (again : Tree → Option RecordId → Option RecordId → Update ρ σ Tree) (t : Tree)
    (parent : RecordId) (side : Side) : Option RecordId → Update ρ σ Tree
  | none => lone again t parent
  | some sibling => mendBeside aug again t parent side (some sibling)

/-- The repair with `lone` in the place of what it does where there is no sibling. `lone` is given
the loop that would go on. -/
def mendBlackElse (aug : Augmentation ρ σ)
    (lone : (Tree → Option RecordId → Option RecordId → Update ρ σ Tree) →
      Tree → RecordId → Update ρ σ Tree) :
    Nat → Tree → Option RecordId → Option RecordId → Update ρ σ Tree
  | _, t, id, none => do
    Update.paint? id .black
    pure t
  | 0, _, _, some _ => throw .endless
  | steps + 1, t, id, some parent => do
    match ← Update.colorOf id with
    | .red => do
      Update.paint? id .black
      pure t
    | .black => do
      let p ← Update.node parent
      let side := p.sideOf id
      let beside := p.child side.flip
      let (t, beside) ← raiseBeside aug t parent side beside (← Update.colorOf beside)
      mendBesideElse aug lone (mendBlackElse aug lone steps) t parent side beside

omit [LawfulLinked ρ] in
/-- What the repair itself does there is to go on at the parent. -/
theorem mendBlackElse_eq (steps : Nat) :
    mendBlackElse aug (fun again t parent => do again t (some parent) (← Update.node parent).parent)
      steps = mendBlackFrom aug steps := by
  induction steps with
  | zero =>
    funext t id parent
    cases parent <;> rfl
  | succ steps ih =>
    funext t id parent
    cases parent with
    | none => rfl
    | some parent =>
      rw [mendBlackFrom_succ, mendBlackElse, ih]
      refine bind_congr fun c => ?_
      cases c with
      | red => rfl
      | black =>
        refine bind_congr fun p => bind_congr fun c => bind_congr fun out => ?_
        obtain ⟨t, beside⟩ := out
        cases beside <;> rfl

/-- What a red sibling leaves: it has one child more above the position, and the parent is red. -/
theorem returns_raiseBeside (turns : aug.Turns Right) {k : Nat} {s₀ s : Store ρ} {old : Shape}
    {t : Tree} {x : σ} {above : Context} {side : Side} {parent sibling : RecordId}
    {u near far : Shape}
    (m : Mending Right k s₀ old t s x
      (above.fill (.join side .black u parent (.join side .red near sibling far)))) :
    (raiseBeside aug t parent side (some sibling) .red).Returns s x fun (t', beside) s' x' =>
      beside = near.root? ∧ Mending Right (k + 1) s₀ old t' s' x'
        ((Context.under side .black sibling far above).fill (.join side .red u parent near)) := by
  have hparent := m.hasShape.node_top
  have m₁ := (m.paint_far turns .black).paint_top turns .red
  rw [Shape.root?_join, Shape.paint_join] at m₁
  simp only [raiseBeside, Update.returns_bind, Update.returns_paint, Update.returns_paint?,
    Update.returns_node, Update.returns_pure, Store.size_paint?]
  refine ⟨by simpa using m.hasShape.lt_size (by simp),
    Store.lt_of_node hparent, (m₁.rotate turns).mono fun t₂ s₂ x₂ m₂ => ?_⟩
  have hparent₂ : s₂.node parent = .ok (.placed (some sibling) side u.root? near.root? .red) :=
    m₂.hasShape.node_top (C := .under side .black sibling far above)
  exact ⟨_, hparent₂, Node.child_flip_placed, m₂⟩

section Else

variable (lone : (Tree → Option RecordId → Option RecordId → Update ρ σ Tree) →
  Tree → RecordId → Update ρ σ Tree)

/-- A black sibling ends the shortage if it has a red child. Else it is painted red, and the
shortage moves up. -/
theorem returns_mendBesideElse (turns : aug.Turns Right) {k h total : Nat} {s₀ s : Store ρ}
    {old : Shape} {t : Tree} {x : σ} {C : Context} {side : Side} {c : Color}
    {parent : RecordId} {u sib : Shape}
    {again : Tree → Option RecordId → Option RecordId → Update ρ σ Tree}
    {Q : Tree → Store ρ → σ → Prop}
    (m : Mending Right k s₀ old t s x (C.fill (.join side c u parent sib)))
    (hu : u.Balanced h) (hsibc : sib.color = .black)
    (hctx : (Context.under side c parent sib C).Fits total (h + 1))
    (hQ : ∀ k' ≤ k + 2, ∀ t' s' x' shape, Mending Right k' s₀ old t' s' x' shape →
      shape.RedBlack total → Q t' s' x')
    (hagain : ∀ s', Mending Right k s₀ old t s' x
        (C.fill (.join side c u parent (sib.paint .red))) → (sib.paint .red).Balanced h →
      (again t (some parent) C.parent).Returns s' x Q) :
    (mendBesideElse aug lone again t parent side sib.root?).Returns s x Q := by
  have hsib : sib.Balanced (h + 1) := by cases hctx <;> assumption
  obtain ⟨near, sibling, far, hjoin⟩ := Shape.exists_join_of_ne hsib.ne_leaf side
  rw [hsibc] at hjoin
  subst hjoin
  obtain ⟨hnear, hfar⟩ := Shape.balanced_join_black.mp hsib
  have hsibling := m.hasShape.far.node_top
  have mnear : t.HasShape s ((Context.under side .black sibling far
    (.under side.flip c parent u C)).fill near) := m.hasShape.far
  have mfar := m.hasShape.far.far
  rw [Shape.root?_join]
  simp only [mendBesideElse, mendBeside, Update.returns_bind, Update.returns_node]
  refine ⟨_, hsibling, ?_⟩
  rw [Node.child_placed, Node.child_flip_placed, mnear.returns_colorOf]
  cases hnearc : near.color with
  | black =>
    simp only [Update.returns_bind]
    rw [mfar.returns_colorOf]
    cases hfarc : far.color with
    | black =>
      have m₁ := m.paint_far turns .red
      have hparent := m₁.hasShape.node_top
      rw [Shape.root?_join] at m₁ hparent
      simp only [Update.returns_bind, Update.returns_paint, Update.returns_node]
      refine ⟨Store.lt_of_node hsibling, _, hparent, ?_⟩
      rw [Node.parent_placed]
      refine hagain _ m₁ ?_
      rw [Shape.paint_join]
      exact Shape.balanced_join_red.mpr ⟨hnear, hfar, hnearc, hfarc⟩
    | red =>
      refine (returns_borrowBlack turns m hu hnear hfar hfarc hctx).mono ?_
      rintro t' s' x' ⟨shape, m', hshape⟩
      exact hQ (k + 1) (by omega) t' s' x' shape m' hshape
  | red =>
    simp only [Update.returns_bind]
    rw [mfar.returns_colorOf]
    cases hfarc : far.color with
    | black =>
      -- The inner child is rotated outward first, and rises in the sibling's stead.
      obtain ⟨a, inner, b, hjoin⟩ := Shape.exists_join_of_ne (Shape.ne_leaf_of_red hnearc) side
      rw [hnearc] at hjoin
      subst hjoin
      obtain ⟨ha, hb, hac, hbc⟩ := Shape.balanced_join_red.mp hnear
      have hinner := mnear.node_top
      have m₁ := (m.far.paint_near turns .black).paint_top turns .red
      rw [Shape.root?_join, Shape.paint_join, ← Shape.join_flip side .red,
        ← Shape.join_flip side .black] at m₁
      simp only [Shape.root?_join, Update.returns_bind, Update.returns_paint, Store.size_paint?]
      refine ⟨Store.lt_of_node hinner, Store.lt_of_node hsibling, ?_⟩
      refine (m₁.rotate turns).mono ?_
      intro t₂ s₂ x₂ m₂
      rw [Shape.join_flip, Shape.join_flip] at m₂
      refine (returns_borrowBlack turns m₂.unfar hu ha
        (Shape.balanced_join_red.mpr ⟨hb, hfar, hbc, hfarc⟩) (Shape.color_join ..) hctx).mono ?_
      rintro t' s' x' ⟨shape, m', hshape⟩
      exact hQ (k + 2) (by omega) t' s' x' shape m' hshape
    | red =>
      refine (returns_borrowBlack turns m hu hnear hfar hfarc hctx).mono ?_
      rintro t' s' x' ⟨shape, m', hshape⟩
      exact hQ (k + 1) (by omega) t' s' x' shape m' hshape

omit [LawfulLinked ρ] in
/-- At the root the repair ends, since a shortage on all paths is none. -/
theorem mendBlackElse_none (t : Tree) (steps : Nat) (id : Option RecordId) :
    mendBlackElse aug lone steps t id none = (do
      Update.paint? id .black
      pure t) := by
  cases steps <;> rfl

/-- A red node in the position makes up for the shortage. -/
theorem returns_mendBlackElse_red (turns : aug.Turns Right) {k total steps : Nat} {s₀ : Store ρ}
    {old : Shape} {t : Tree} {s : Store ρ} {x : σ} {C : Context} {u : Shape} {h : Nat}
    (m : Mending Right k s₀ old t s x (C.fill u)) (hu : u.Mendable h) (huc : u.color = .red)
    (hctx : C.Fits total (h + 1)) (hsteps : 0 < steps) :
    (mendBlackElse aug lone steps t u.root? C.parent).Returns s x fun t' s' x' =>
      ∃ shape, Mending Right k s₀ old t' s' x' shape ∧ shape.RedBlack total := by
  obtain ⟨steps, rfl⟩ := Nat.exists_eq_add_one.mpr hsteps
  have hlt : ∀ j, u.root? = some j → j < s.size := fun j hj =>
    m.hasShape.lt_size (by simp [Shape.mem_of_root? hj])
  -- Black, the top makes up for the missing one, and its red children do no harm.
  have hdone : (C.fill (u.paint .black)).RedBlack total := by
    simp only [Shape.Mendable, huc] at hu
    exact Context.redBlack_fill.mpr ⟨h + 1, hu, hctx, .inl (Shape.color_paint_black u)⟩
  cases C with
  | top =>
    simp only [Context.parent, mendBlackElse_none, Update.returns_bind, Update.returns_paint?,
      Update.returns_pure]
    exact ⟨hlt, _, m.paint turns .black, hdone⟩
  | under side c p sib above =>
    rw [Context.parent, mendBlackElse, Update.returns_bind, m.hasShape.returns_colorOf, huc]
    simp only [Update.returns_bind, Update.returns_paint?, Update.returns_pure]
    exact ⟨hlt, _, m.paint turns .black, hdone⟩

/-- The repair ends in a red-black tree, whatever `lone` is. Its black height is the old one, or one
less if the shortage reached the root. -/
theorem returns_mendBlackElse (turns : aug.Turns Right) {k total : Nat} {s₀ : Store ρ}
    {old : Shape} (steps : Nat) {t : Tree} {s : Store ρ} {x : σ} {C : Context} {u : Shape} {h : Nat}
    (m : Mending Right k s₀ old t s x (C.fill u)) (hu : u.Mendable h)
    (hctx : C.Fits total (h + 1)) (hsteps : C.depth < steps) :
    (mendBlackElse aug lone steps t u.root? C.parent).Returns s x fun t' s' x' =>
      ∃ k' ≤ k + 3, ∃ shape, Mending Right k' s₀ old t' s' x' shape ∧
        (shape.RedBlack total ∨ ∃ total', total = total' + 1 ∧ shape.RedBlack total') := by
  -- The invariant: `C` fits one black more than `u` has. One turn moves it up by one level.
  induction steps generalizing t s x C u h k with
  | zero => omega
  | succ steps ih =>
    cases huc : u.color with
    | red =>
      refine (returns_mendBlackElse_red lone turns m hu huc hctx (by omega)).mono ?_
      rintro t' s' x' ⟨shape, m', hshape⟩
      exact ⟨k, by omega, shape, m', .inl hshape⟩
    | black =>
      simp only [Shape.Mendable, huc] at hu
      cases C with
      | top =>
        -- The shortage has reached the root, and all paths are short of the same one.
        cases hctx
        simp only [Context.parent, mendBlackElse_none, Update.returns_bind,
          Update.returns_paint?, Update.returns_pure]
        refine ⟨fun j hj => m.hasShape.lt_size (by simp [Shape.mem_of_root? hj]), k, by omega, _,
          m.paint turns .black, .inr ⟨h, rfl, Shape.color_paint_black u, ?_⟩⟩
        rwa [Context.fill, Shape.paint_eq_self huc]
      | under side c p sib above =>
        have hparent : s.node p = .ok (.placed above.parent side u.root? sib.root? c) :=
          m.hasShape.node_top (C := above)
        have hsib : sib.Balanced (h + 1) := by cases hctx <;> assumption
        -- An empty position has a sibling too, or there would be no shortage.
        have hne : u.root? ≠ sib.root? := by
          intro heq
          cases hj : u.root? with
          | none => exact Shape.root?_ne_none hsib.ne_leaf (heq.symm.trans hj)
          | some j =>
            exact m.hasShape.child_ne (C := above) (Shape.mem_of_root? hj) (heq.symm.trans hj)
        simp only [Context.depth] at hsteps
        rw [Context.parent, mendBlackElse, Update.returns_bind, m.hasShape.returns_colorOf, huc]
        simp only [Update.returns_bind, Update.returns_node]
        refine ⟨_, hparent, ?_⟩
        rw [Node.sideOf_placed hne, Node.child_flip_placed]
        rw [(m.hasShape.far (C := above)).returns_colorOf]
        cases hsibc : sib.color with
        | black =>
          simp only [raiseBeside, Update.returns_pure]
          refine returns_mendBesideElse lone turns m hu hsibc hctx ?_ ?_
          · intro k' hk' t' s' x' shape m' hshape
            exact ⟨k', by omega, shape, m', .inl hshape⟩
          · -- The shortage moves up to the parent.
            intro s' m' hred
            rw [← Shape.root?_join side c u (sib.paint .red) p]
            cases hctx with
            | red _ _ _ habove =>
              refine ih m' ?_ habove (by omega)
              simp only [Shape.Mendable, Shape.color_join, Shape.paint_join]
              exact Shape.balanced_join_black.mpr ⟨hu, hred⟩
            | black _ habove =>
              refine ih m' ?_ habove (by omega)
              simp only [Shape.Mendable, Shape.color_join]
              exact Shape.balanced_join_black.mpr ⟨hu, hred⟩
        | red =>
          -- A red sibling rises, and its near child is the sibling then.
          obtain ⟨near, sibling, far, hjoin⟩ :=
            Shape.exists_join_of_ne (Shape.ne_leaf_of_red hsibc) side
          rw [hsibc] at hjoin
          subst hjoin
          obtain ⟨hnear, hfar, hnearc, hfarc⟩ := Shape.balanced_join_red.mp hsib
          cases hctx with
          | red _ hblack => exact absurd (hblack.symm.trans hsibc) (by simp)
          | black _ habove =>
            rw [Shape.root?_join]
            refine (returns_raiseBeside turns m).mono ?_
            rintro ⟨t₂, beside⟩ s₂ x₂ ⟨rfl, m₂⟩
            refine returns_mendBesideElse lone turns (C := .under side .black sibling far above) m₂
              hu hnearc (.red hnear hnearc rfl (.black hfar habove)) ?_ ?_
            · intro k' hk' t' s' x' shape m' hshape
              exact ⟨k', by omega, shape, m', .inl hshape⟩
            · -- The parent is red now, which ends the loop at the next turn.
              intro s' m' hred
              rw [← Shape.root?_join side .red u (near.paint .red) p]
              refine (returns_mendBlackElse_red lone turns m' ?_ (Shape.color_join ..)
                (.black hfar habove) (by omega)).mono ?_
              · simp only [Shape.Mendable, Shape.color_join, Shape.paint_join]
                exact Shape.balanced_join_black.mpr ⟨hu, hred⟩
              · rintro t' s' x' ⟨shape, m', hshape⟩
                exact ⟨k + 1, by omega, shape, m', .inl hshape⟩

end Else

/-- The repair ends in a red-black tree. Its black height is the old one, or one less if the
shortage reached the root. -/
theorem returns_mendBlackFrom (turns : aug.Turns Right) {k total : Nat} {s₀ : Store ρ}
    {old : Shape} (steps : Nat) {t : Tree} {s : Store ρ} {x : σ} {C : Context} {u : Shape} {h : Nat}
    (m : Mending Right k s₀ old t s x (C.fill u)) (hu : u.Mendable h)
    (hctx : C.Fits total (h + 1)) (hsteps : C.depth < steps) :
    (t.mendBlackFrom aug steps u.root? C.parent).Returns s x fun t' s' x' =>
      ∃ k' ≤ k + 3, ∃ shape, Mending Right k' s₀ old t' s' x' shape ∧
        (shape.RedBlack total ∨ ∃ total', total = total' + 1 ∧ shape.RedBlack total') := by
  rw [← mendBlackElse_eq]
  exact returns_mendBlackElse _ turns steps m hu hctx hsteps

end Tree

end RecordTree
