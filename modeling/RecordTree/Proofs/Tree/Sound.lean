import RecordTree.Proofs.Forest.Invariant
import RecordTree.Proofs.Interval.Tree
import RecordTree.Proofs.Tree.Validate
import RecordTree.Proofs.Walk.Cursor

/-!
# `RecordTree.Proofs.Tree.Sound`: what a tree that passes its checks is like

The other way round from `RecordTree.Proofs.Tree.Validate`: of a store of which nothing is known, a
validation that finds no defect tells what it has looked at. `Tree.exists_checked_of_passes`
reads it off, by induction on the depth of the recursion. The links below the root spell out a
shape that is balanced, no deeper than the recursion may go, and in which each child is in order
with its parent (`Tree.Checked`). Nothing says that no record stands in the shape twice.

The order that is checked is that of children and parents. By transitivity it extends to the
records that lie along the left links below a node against those along the right links below it
(`Tree.ascends_of_validate`), and no further: `Tree.misplaced` passes, and its walk does not ascend.
-/

set_option autoImplicit false

namespace RecordTree

open Std

variable {ρ σ : Type} {s : Store ρ} {order : ρ → ρ → Ordering} {compare : Comparator ρ σ}

/-! ### Order along the links -/

namespace Store

/-- The record `a` does not order after the record `b`. -/
def Ascends (s : Store ρ) (order : ρ → ρ → Ordering) (a b : RecordId) : Prop :=
  ∃ x y, s.fetch a = .ok x ∧ s.fetch b = .ok y ∧ (order x y).isLE

/-- The record `id` is in order with the record `above` when it stands below it at a side. -/
def InPlace (s : Store ρ) (order : ρ → ρ → Ordering) (id above : RecordId) : Side → Prop
  | .left => s.Ascends order id above
  | .right => s.Ascends order above id

/-- Records that do not order after each other do not do so over a step either. -/
theorem Ascends.trans [TransCmp order] {a b c : RecordId} (h : s.Ascends order a b)
    (h' : s.Ascends order b c) : s.Ascends order a c := by
  obtain ⟨x, y, hx, hy, hle⟩ := h
  obtain ⟨y', z, hy', hz, hle'⟩ := h'
  rw [hy] at hy'
  cases hy'
  exact ⟨x, z, hx, hz, TransCmp.isLE_trans hle hle'⟩

/-- A record is in order with itself, on either side. -/
theorem InPlace.refl [ReflCmp order] {id : RecordId} (hid : id < s.size) (side : Side) :
    s.InPlace order id id side := by
  obtain ⟨x, hx⟩ := exists_fetch_of_lt hid
  have hle : (order x x).isLE := by
    rw [(ReflCmp.compare_self : order x x = .eq)]
    rfl
  cases side <;> exact ⟨x, x, hx, hx, hle⟩

/-- Being in order on one side goes on over several records. -/
theorem InPlace.trans [TransCmp order] {side : Side} {a b c : RecordId}
    (h : s.InPlace order a b side) (h' : s.InPlace order b c side) : s.InPlace order a c side := by
  cases side with
  | left => exact Ascends.trans h h'
  | right => exact Ascends.trans h' h

/-- What is in order with something is a record of the store. -/
theorem InPlace.lt_size {side : Side} {id above : RecordId} (h : s.InPlace order id above side) :
    id < s.size := by
  cases side with
  | left =>
    obtain ⟨_, _, hx, -⟩ := h
    exact (fetch_eq_ok.mp hx).1
  | right =>
    obtain ⟨_, _, -, hy, -⟩ := h
    exact (fetch_eq_ok.mp hy).1

/-- Each child in the shape is in order with its parent. -/
def ChildrenInPlace (s : Store ρ) (order : ρ → ρ → Ordering) : Shape → Prop
  | .leaf => True
  | .node _ l id r =>
    (∀ j, l.root? = some j → s.InPlace order j id .left) ∧
      (∀ j, r.root? = some j → s.InPlace order j id .right) ∧
      s.ChildrenInPlace order l ∧ s.ChildrenInPlace order r

variable [Linked ρ]

/-- The records from `id` down along the links of one side, with `id` itself. -/
inductive Along (s : Store ρ) (side : Side) : RecordId → RecordId → Prop where
  | here (id : RecordId) : Along s side id id
  | down {id j k : RecordId} {n : Node} :
      s.node id = .ok n → n.child side = some j → Along s side j k → Along s side id k

/-- What is below a record that is below a position is below that position. -/
theorem Reaches.trans {position : Option RecordId} {id j : RecordId}
    (h : s.Reaches position id) (h' : s.Reaches (some id) j) : s.Reaches position j := by
  induction h with
  | here => exact h'
  | child side hn _ ih => exact .child side hn (ih h')

/-- What is below a position has a node. -/
theorem Reaches.exists_node {position : Option RecordId} {id : RecordId}
    (h : s.Reaches position id) : ∃ n, s.node id = .ok n := by
  induction h with
  | here hn => exact ⟨_, hn⟩
  | child _ _ _ ih => exact ih

end Store

variable [Linked ρ]

/-! ### The checks read back -/

namespace Tree

omit [Linked ρ] in
/-- A child that passes does not order as `wrong`. -/
theorem ne_of_passes_validateSide (hanswers : compare.Answers order) {wrong : Ordering}
    {defect : RecordId → RecordId → Defect} {child : Option RecordId} {parent : RecordId} {x : σ}
    {Q : Unit → σ → Prop} (h : (validateSide s compare wrong defect child parent).Passes x Q) :
    (∀ j, child = some j →
      ∃ a b, s.fetch j = .ok a ∧ s.fetch parent = .ok b ∧ order a b ≠ wrong) ∧ ∃ x', Q () x' := by
  cases child with
  | none => exact ⟨by simp, x, Check.passes_pure.mp h⟩
  | some j =>
    simp only [validateSide, Check.passes_bind, Check.passes_read, Check.passes_ask,
      Check.passes_refuse, hanswers _ _ _] at h
    obtain ⟨a, ha, b, hb, hne, hQ⟩ := h
    refine ⟨?_, _, hQ⟩
    rintro _ ⟨⟩
    exact ⟨a, b, ha, hb, hne⟩

/-- What the checks of a position under `parent` have looked at, when its black height is `height`:
a shape that goes no deeper than `depth`. -/
structure Checked (s : Store ρ) (order : ρ → ρ → Ordering) (depth : Nat)
    (position parent : Option RecordId) (height : Nat) (shape : Shape) : Prop where
  represents : Represents s parent position shape
  balanced : shape.Balanced height
  height_le : shape.height ≤ depth
  childrenInPlace : s.ChildrenInPlace order shape
  /-- The top is not red below a red node. -/
  ne_red : shape.color = .red → ∀ above, parent = some above →
    ∃ p, s.node above = .ok p ∧ p.color ≠ .red

/-- An empty position passes, with a black height of zero. -/
theorem checked_leaf (s : Store ρ) (order : ρ → ρ → Ordering) (depth : Nat)
    (parent : Option RecordId) : Checked s order depth none parent 0 .leaf :=
  ⟨.leaf parent, .leaf, Nat.zero_le depth, trivial, nofun⟩

/-- The child of a red node, if it was checked, is black. -/
theorem Checked.color_eq {depth height : Nat} {position : Option RecordId} {id : RecordId}
    {shape : Shape} {n : Node} (h : Checked s order depth position (some id) height shape)
    (hn : s.node id = .ok n) (hred : n.color = .red) : shape.color = .black := by
  cases hcolor : shape.color with
  | black => rfl
  | red =>
    obtain ⟨p, hp, hne⟩ := h.ne_red hcolor id rfl
    rw [hn] at hp
    cases hp
    exact absurd hred hne

/-- A node whose children were checked, and then the node against them. -/
theorem Checked.node {depth height : Nat} {parent : Option RecordId} {id : RecordId} {n : Node}
    {l r : Shape} (hn : s.node id = .ok n) (hparent : n.parent = parent)
    (hstate : n.state = .linked) (hred : n.color = .red → ∀ above, parent = some above →
      ∃ p, s.node above = .ok p ∧ p.color ≠ .red)
    (hl : Checked s order depth n.left (some id) height l)
    (hr : Checked s order depth n.right (some id) height r)
    (hplace : ∀ side j, n.child side = some j → s.InPlace order j id side) :
    Checked s order (depth + 1) (some id) parent (if n.color = .red then height else height + 1)
      (.node n.color l id r) where
  represents := .node hn hparent hstate hl.represents hr.represents
  balanced := Shape.balanced_node.mpr ⟨height, hl.balanced, hr.balanced,
    fun hc => ⟨hl.color_eq hn hc, hr.color_eq hn hc⟩, rfl⟩
  height_le := by
    have := hl.height_le
    have := hr.height_le
    simp only [Shape.height]
    omega
  childrenInPlace := by
    -- The children in the links are the roots of the shapes.
    have hleft : n.left = l.root? := (represents_iff.mp hl.represents).1
    have hright : n.right = r.root? := (represents_iff.mp hr.represents).1
    exact ⟨fun j hj => hplace .left j (hleft.trans hj),
      fun j hj => hplace .right j (hright.trans hj), hl.childrenInPlace, hr.childrenInPlace⟩
  ne_red := hred

/-- The recursion: a position that passes is the top of a shape that was checked. -/
theorem exists_checked_of_passes [OrientedCmp order] (hanswers : compare.Answers order)
    {depth : Nat} {position parent : Option RecordId} {x : σ} {Q : Nat → σ → Prop}
    (h : (validateFrom s compare depth position parent).Passes x Q) :
    ∃ shape height x', Checked s order depth position parent height shape ∧ Q height x' := by
  induction depth generalizing position parent x Q with
  | zero =>
    cases position with
    | none => exact ⟨.leaf, 0, x, checked_leaf .., Check.passes_pure.mp h⟩
    | some id =>
      obtain ⟨_, _, hrun, -⟩ := h
      cases hrun
  | succ depth ih =>
    cases position with
    | none => exact ⟨.leaf, 0, x, checked_leaf .., Check.passes_pure.mp h⟩
    | some id =>
      simp only [validateFrom_some, Check.passes_bind, Check.passes_read, Check.passes_refuse,
        passes_checkRed, not_not] at h
      obtain ⟨n, hn, hstate, hparent, hred, hchildren⟩ := h
      -- Both subtrees were checked, one after the other, and then their tops against the node.
      obtain ⟨l, _, _, hl, hrest⟩ := ih hchildren
      obtain ⟨r, _, _, hr, rfl, hsides⟩ := ih hrest
      obtain ⟨hleft, _, hside⟩ := ne_of_passes_validateSide hanswers hsides
      obtain ⟨hright, _, hQ⟩ := ne_of_passes_validateSide hanswers hside
      refine ⟨_, _, _, .node hn hparent hstate hred hl hr ?_, Check.passes_pure.mp hQ⟩
      intro side j hj
      cases side with
      | left =>
        obtain ⟨a, b, ha, hb, hne⟩ := hleft j hj
        exact ⟨a, b, ha, hb, Ordering.ne_gt_iff_isLE.mp hne⟩
      | right =>
        obtain ⟨a, b, ha, hb, hne⟩ := hright j hj
        refine ⟨b, a, hb, ha, ?_⟩
        rwa [Ne, ← OrientedCmp.gt_iff_lt, Ordering.ne_gt_iff_isLE] at hne

/-- A validation that finds no defect has checked the shape below the root. -/
theorem exists_checked_of_validate [OrientedCmp order] (hanswers : compare.Answers order)
    {t : Tree} {height : Nat} {x x' : σ}
    (hrun : (t.validate s compare).run x = .ok (.ok height, x')) :
    ∃ shape, Checked s order s.walkLimit t.root none height shape ∧ shape.color = .black := by
  have hpasses : (t.validate s compare).Passes x fun answer _ => answer = height :=
    ⟨height, x', hrun, rfl⟩
  unfold validate at hpasses
  cases hroot : t.root with
  | none =>
    rw [hroot] at hpasses
    obtain ⟨shape, _, _, hchecked, rfl⟩ := exists_checked_of_passes hanswers hpasses
    have hleaf := Shape.eq_leaf_of_root? (represents_iff.mp hchecked.represents).1.symm
    exact ⟨shape, hchecked, hleaf ▸ rfl⟩
  | some root =>
    simp only [hroot, Check.passes_bind, Check.passes_read, Check.passes_refuse] at hpasses
    obtain ⟨n, hn, hblack, hfrom⟩ := hpasses
    obtain ⟨shape, _, _, hchecked, rfl⟩ := exists_checked_of_passes hanswers hfrom
    refine ⟨shape, hchecked, ?_⟩
    -- The root is checked to be black before its shape is known.
    cases hchecked.represents with
    | node hm =>
      rw [hn] at hm
      cases hm
      show n.color = .black
      cases hc : n.color with
      | red => exact absurd hc hblack
      | black => rfl

/-! ### How far the order goes -/

/-- The children of a record that was reached are in order with it. -/
theorem Checked.inPlace_child {depth height : Nat} {position parent : Option RecordId}
    {shape : Shape} (h : Checked s order depth position parent height shape) {id j : RecordId}
    {n : Node} {side : Side} (hid : s.Reaches position id) (hn : s.node id = .ok n)
    (hchild : n.child side = some j) : s.InPlace order j id side := by
  obtain ⟨hrep, -, -, hplace, -⟩ := h
  -- Down the links to the record, and down the shape with them.
  induction hid generalizing parent shape with
  | here =>
    cases hrep with
    | node hm _ _ hl hr =>
      rw [hn] at hm
      cases hm
      cases side with
      | left => exact hplace.1 j ((represents_iff.mp hl).1 ▸ hchild)
      | right => exact hplace.2.1 j ((represents_iff.mp hr).1 ▸ hchild)
  | child way hm _ ih =>
    cases hrep with
    | node hm' _ _ hl hr =>
      rw [hm] at hm'
      cases hm'
      cases way with
      | left => exact ih hn hl hplace.2.2.1
      | right => exact ih hn hr hplace.2.2.2

/-- What lies along the links of one side below a record that was reached is in order with it. -/
theorem Checked.inPlace_along [TransCmp order] {depth height : Nat}
    {position parent : Option RecordId} {shape : Shape}
    (h : Checked s order depth position parent height shape) {id j : RecordId} {side : Side}
    (halong : s.Along side id j) (hid : s.Reaches position id) : s.InPlace order j id side := by
  induction halong with
  | here id =>
    obtain ⟨n, hn⟩ := hid.exists_node
    exact .refl (Store.lt_of_node hn) side
  | down hn hchild _ ih =>
    have hplace := h.inPlace_child hid hn hchild
    obtain ⟨m, hm⟩ := Store.exists_node_of_lt hplace.lt_size
    exact (ih (hid.trans (.child side hn (hchild ▸ .here hm)))).trans hplace

/-- In a tree that passes, what lies along the left links below a record does not order after what
lies along the right links below it. The record itself counts as both. -/
theorem ascends_of_validate [TransCmp order] (hanswers : compare.Answers order)
    {t : Tree} {height : Nat} {x x' : σ}
    (hrun : (t.validate s compare).run x = .ok (.ok height, x')) {p a b : RecordId}
    (hp : s.Reaches t.root p) (ha : s.Along .left p a) (hb : s.Along .right p b) :
    s.Ascends order a b := by
  obtain ⟨shape, hchecked, -⟩ := exists_checked_of_validate hanswers hrun
  have hle : s.Ascends order a p := hchecked.inPlace_along ha hp
  exact hle.trans (hchecked.inPlace_along hb hp)

/-- Four records, before any of them is linked. They order by start. -/
def bareRecords : Store (Entry Nat) := #[.of 5 9, .of 3 9, .of 8 9, .of 7 9]

/-- The four records in a tree in which the last one is on the wrong side of the root: its start `7`
is on the right of `3`, which is on the left of `5`. -/
def misplaced : Store (Entry Nat) :=
  #[⟨{ left := some 1, right := some 2, color := .black, state := .linked }, 5, 9, 9⟩,
    ⟨{ parent := some 0, right := some 3, color := .black, state := .linked }, 3, 9, 9⟩,
    ⟨{ parent := some 0, color := .black, state := .linked }, 8, 9, 9⟩,
    ⟨{ parent := some 1, state := .linked }, 7, 9, 9⟩]

/-- Links at positions that are empty lead to a tree that passes, and whose walk does not ascend. -/
theorem unsorted_misplaced :
    (do
      let t ← Tree.empty.link .root 0
      let t ← t.link ⟨some 0, .left⟩ 1
      let t ← t.link ⟨some 0, .right⟩ 2
      t.link ⟨some 1, .right⟩ 3 : Guarded (Entry Nat) Unit Tree).run bareRecords () =
        .ok ((.ok ⟨some 0⟩, misplaced), ()) ∧
    ((⟨some 0⟩ : Tree).validate misplaced (.of compareStart)).run () = .ok (.ok 2, ()) ∧
    (⟨some 0⟩ : Tree).walk misplaced .ascending = .ok [1, 3, 0, 2] ∧
    ¬ misplaced.Ascends compareStart 3 0 := by
  refine ⟨rfl, rfl, rfl, ?_⟩
  rintro ⟨x, y, hx, hy, hle⟩
  cases hx
  cases hy
  exact absurd hle (by decide)

/-- The record on the left of the root does not order after the one on its right. -/
theorem ascends_misplaced : misplaced.Ascends compareStart 1 2 := by
  have hrun : ((⟨some 0⟩ : Tree).validate misplaced (.of compareStart)).run () =
      .ok (.ok 2, ()) := rfl
  have hleft : misplaced.Along .left 0 1 := .down rfl rfl (.here 1)
  have hright : misplaced.Along .right 0 2 := .down rfl rfl (.here 2)
  exact ascends_of_validate (Comparator.answers_of compareStart) hrun (.here rfl) hleft hright

end Tree

end RecordTree
