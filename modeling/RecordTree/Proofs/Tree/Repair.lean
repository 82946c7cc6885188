import RecordTree.Proofs.Interval.Reach
import RecordTree.Proofs.Shape.Paths
import RecordTree.Proofs.Tree.Stated

/-!
# `RecordTree.Proofs.Tree.Repair`: the repairs on trees of any origin

Within a call the two repairs meet the trees that an insertion or a deletion has left. They do
their work on more than these. What they need is a consistent tree (`Tree.Consistent`) in which the
rules for paths are broken at the one place where they start.

* `Tree.mendBlack_of_short`: the paths through a position are one black short, or the position is
  that of the root.
* `Tree.mendRed_of_clash`: a red node has a red parent, or is the root.

In both cases the repair ends with a red-black tree of the same nodes in the same order
(`Repaired`), and never comes to the branch that covers for a tree of some other kind: put anything
in the place of that branch, and the run is the same.
-/

set_option autoImplicit false

namespace RecordTree

/-! ### What a repair leaves -/

variable {ρ σ : Type} [Linked ρ]

/-- The tree `shape` in `s` became `shape'`, seen through `t'` in `s'`. It has the same nodes in
the same order, and no node is in another state. All other records are as they were. -/
structure Repaired (s : Store ρ) (shape : Shape) (t' : Tree) (s' : Store ρ) (shape' : Shape) :
    Prop where
  consistent : t'.Consistent s' shape'
  inorder : shape'.inorder = shape.inorder
  state : ∀ id, (·.state) <$> s'.node id = (·.state) <$> s.node id
  frame : ∀ id, id ∉ shape.inorder → s'.node id = s.node id

variable [LawfulLinked ρ] {aug : Augmentation ρ σ} {s : Store ρ} {t : Tree} {shape : Shape} {x : σ}

/-- A repair of the records with states in front is one of the bare records, in which no state has
changed. -/
theorem Mending.repaired {k : Nat} {t' : Tree} {s' : Store (Stated ρ)} {shape' : Shape}
    (m : Mending (fun _ p _ _ => Payloads.ownState p = s.linkedUp.ownState) k s.linkedUp shape t' s'
      x shape') : Repaired s shape t' s'.bare shape' := by
  have hown : s'.ownState = s.linkedUp.ownState := (Store.ownState_eq s').trans m.right
  refine ⟨m.hasShape.bare, m.reshaped.inorder, fun id => ?_, fun id hid => ?_⟩
  · rw [Store.state_bare, hown, ← Store.state_bare, Store.bare_linkedUp]
  · rw [Store.node_bare, m.reshaped.frame id hid, hown, ← Store.node_bare, Store.bare_linkedUp]

/-- The start of a repair of linked-up records. -/
theorem Tree.Consistent.mending (h : t.Consistent s shape) (x : σ) :
    Mending (fun _ p _ _ => Payloads.ownState p = s.linkedUp.ownState) 0 s.linkedUp shape t
      s.linkedUp x shape :=
  ⟨.refl h.linkedUp, (Store.ownState_eq s.linkedUp).symm⟩

/-- Repairs that all follow one with a known end come to that end, too. -/
theorem Repaired.of_follows {u : Update (Stated ρ) σ Tree} {limit : Nat} {P : Shape → Prop}
    (hu : u.Returns s.linkedUp x fun t' s' x' => ∃ k ≤ limit, ∃ shape',
      Mending (fun _ p _ _ => Payloads.ownState p = s.linkedUp.ownState) k s.linkedUp shape t' s' x'
        shape' ∧ P shape') :
    ∃ t' s' x', (∀ v : Update ρ σ Tree, u.Follows v → v s x = .ok ((t', s'), x')) ∧
      ∃ shape', Repaired s shape t' s' shape' ∧ P shape' := by
  obtain ⟨t', s', x', hrun, k, -, shape', m, hP⟩ := hu
  refine ⟨t', s'.bare, x', fun v hv => ?_, shape', m.repaired, hP⟩
  have hbare := hv _ _ _ _ _ hrun
  rwa [Store.bare_linkedUp] at hbare

namespace Tree

omit [LawfulLinked ρ] in
/-- A position in a consistent tree is less deep than the steps granted to a repair. -/
theorem Consistent.depth_lt {C : Context} {u : Shape} (h : t.Consistent s (C.fill u)) :
    C.depth < s.repairLimit := by
  have hdepth := h.linkedUp.depth_lt
  have hsize : s.linkedUp.size = s.size := by rw [← Store.size_bare, Store.bare_linkedUp]
  rwa [Store.repairLimit, hsize] at hdepth

omit [LawfulLinked ρ] in
/-- The position at the side of a node. -/
theorem Consistent.exists_position {p : RecordId} {n : Node} (h : t.Consistent s shape)
    (hp : p ∈ shape.inorder) (hn : s.node p = .ok n) (side : Side) :
    ∃ sibling above u, shape = (Context.under side n.color p sibling above).fill u ∧
      n.child side = u.root? := by
  obtain ⟨above, c, l, r, rfl⟩ := Shape.exists_context hp
  obtain ⟨u, sibling, hjoin⟩ := Shape.exists_join (Shape.root?_node c l r p) side
  -- The linked-up record has the colour and the children that the shape says.
  have hlinked := h.linkedUp
  rw [hjoin] at hlinked
  have htop := hlinked.node_top
  rw [Store.node_linkedUp, hn, except_functor_map_ok, Except.ok.injEq] at htop
  have hcolor : n.color = (Shape.node c l p r).color := by
    rw [← Node.color_inState, htop, Node.color_placed]
  refine ⟨sibling, above, u, ?_, ?_⟩
  · rw [Context.fill, hcolor, ← hjoin]
  · rw [← Node.child_inState, htop, Node.child_placed]

omit [LawfulLinked ρ] in
/-- Each node of a consistent tree is there. -/
theorem Consistent.exists_node (h : t.Consistent s shape) {id : RecordId}
    (hid : id ∈ shape.inorder) : ∃ n, s.node id = .ok n := by
  have hlt := h.linkedUp.lt_size hid
  rw [← Store.size_bare, Store.bare_linkedUp] at hlt
  exact Store.exists_node_of_lt hlt

omit [LawfulLinked ρ] in
/-- The children of a node of the tree are nodes of it. -/
theorem Consistent.child_mem (h : t.Consistent s shape) {id j : RecordId} {n : Node} {side : Side}
    (hid : id ∈ shape.inorder) (hn : s.node id = .ok n) (hj : n.child side = some j) :
    j ∈ shape.inorder := by
  obtain ⟨sibling, above, u, rfl, hchild⟩ := h.exists_position hid hn side
  exact Context.mem_fill.mpr (.inl (Shape.mem_of_root? (hchild.symm.trans hj)))

end Tree

/-! ### The summary of reaches -/

section Reaches

variable {ρ σ κ : Type} [Spanned ρ κ] [LinearOrder κ]

/-- A child that is there has a reach to compare with. -/
theorem Store.exists_reachWith {s : Store ρ} {child : Option RecordId} (reach : κ)
    (h : ∀ j, child = some j → ∃ n, s.node j = .ok n) : ∃ y, s.reachWith reach child = .ok y := by
  cases child with
  | none => exact ⟨reach, rfl⟩
  | some j =>
    obtain ⟨n, hn⟩ := h j rfl
    obtain ⟨e, he, -⟩ := Store.exists_entry hn
    refine ⟨larger reach e.reach, ?_⟩
    simp only [reachWith, he]
    rfl

/-- The reach that a node should have can be computed if its children are there. -/
theorem Store.exists_reachOf {s : Store ρ} {id : RecordId} {n : Node} (hn : s.node id = .ok n)
    (h : ∀ side j, n.child side = some j → ∃ m, s.node j = .ok m) : ∃ y, s.reachOf id = .ok y := by
  obtain ⟨e, he, rfl⟩ := Store.exists_entry hn
  obtain ⟨y, hy⟩ := exists_reachWith e.stop (h .left)
  obtain ⟨z, hz⟩ := exists_reachWith y (h .right)
  have hleft : s.reachWith e.stop e.node.left = .ok y := hy
  refine ⟨z, ?_⟩
  simp only [reachOf, he, bind, Except.bind, hleft]
  exact hz

/-- Told of a rotation the summary computes one reach anew, from those of the node's children. -/
theorem returns_rotate_reachSummary [LawfulSpanned ρ] {s : Store ρ} {id up : RecordId} {n : Node}
    (hn : s.node id = .ok n) (hchild : ∀ side j, n.child side = some j → ∃ m, s.node j = .ok m)
    (hup : up < s.size) (x : σ) :
    ((reachSummary : Augmentation ρ σ).rotate id up).Returns s x fun _ s' _ =>
      s'.node = s.node := by
  obtain ⟨e, he, -⟩ := Store.exists_entry hn
  have hcopied : (s.setReach up e.reach).node = s.node := Store.node_setReach s up e.reach
  obtain ⟨y, hy⟩ : ∃ y, (s.setReach up e.reach).reachOf id = .ok y := by
    refine Store.exists_reachOf (n := n) (hcopied ▸ hn) fun side j hj => ?_
    rw [hcopied]
    exact hchild side j hj
  simp only [reachSummary, Update.returns_bind, returns_copyReach, Update.returns_read,
    Update.returns_setReach]
  refine ⟨e, he, hup, y, hy, ?_, ?_⟩
  · rw [Store.size_setReach]
    exact Store.lt_of_node hn
  · rw [Store.node_setReach, hcopied]

/-- Keeping reaches right is steady: told of a rotation, it computes the reaches of two nodes that
are there. -/
theorem steady_reachSummary [LawfulSpanned ρ] : (reachSummary : Augmentation ρ σ).Steady where
  rotate {t s shape id up} x h hid hup := by
    obtain ⟨n, hn⟩ := h.exists_node hid
    obtain ⟨m, hm⟩ := h.exists_node hup
    have hchild (side : Side) (j : RecordId) (hj : n.child side = some j) :=
      h.exists_node (h.child_mem hid hn hj)
    exact returns_rotate_reachSummary hn hchild (Store.lt_of_node hm) x

end Reaches

/-! ### The repairs -/

namespace Tree

/-- From a position that can be mended the repair takes the same way whatever `lone` is. -/
theorem returns_mendBlack_of_fits (steady : aug.Steady) {C : Context} {u : Shape} {k total : Nat}
    (h : t.Consistent s (C.fill u)) (hu : u.Mendable k) (hctx : C.Fits total (k + 1)) (x : σ) :
    (t.mendBlack aug u.root? C.parent).Returns s x fun t' s' x' =>
      (∀ lone, mendBlackElse aug lone s.repairLimit t u.root? C.parent s x =
        .ok ((t', s'), x')) ∧
      ∃ shape', Repaired s (C.fill u) t' s' shape' ∧
        (shape'.RedBlack total ∨ ∃ h, total = h + 1 ∧ shape'.RedBlack h) := by
  have turns := steady.turns_stated s.linkedUp.ownState
  have hmend := returns_mendBlackElse (fun _ _ _ => throw .endless) turns s.repairLimit
    (h.mending x) hu hctx h.depth_lt
  obtain ⟨t', s', x', hall, hdone⟩ := Repaired.of_follows hmend
  have helse : ∀ lone, mendBlackElse aug lone s.repairLimit t u.root? C.parent s x =
      .ok ((t', s'), x') := fun lone => hall _ (follows_mendBlackElse aug t lone _ _ _)
  refine ⟨t', s', x', ?_, helse, hdone⟩
  show t.mendBlackFrom aug s.repairLimit u.root? C.parent s x = _
  rw [← mendBlackElse_eq]
  exact helse _

/-- Let the tree be consistent, whatever states its nodes are in. If the paths through a position,
empty or not, are one black short, and nothing else is wrong but that red may meet red there, then
the repair that starts at the position ends with a red-black tree. So it does from the root, of
either colour, if the rest is red-black. It has never come to a node without a second child: the
run is the same whatever is done there. -/
theorem mendBlack_of_short (steady : aug.Steady) (h : t.Consistent s shape) (x : σ) :
    (∀ p n side height, p ∈ shape.inorder → s.node p = .ok n →
      shape.ShortAt p side (n.child side) height →
      (t.mendBlack aug (n.child side) (some p)).Returns s x fun t' s' x' =>
        (∀ lone, mendBlackElse aug lone s.repairLimit t (n.child side) (some p) s x =
          .ok ((t', s'), x')) ∧
        ∃ shape', Repaired s shape t' s' shape' ∧
          (shape'.RedBlack height ∨ ∃ h, height = h + 1 ∧ shape'.RedBlack h)) ∧
    ∀ height, shape.ClashBelow height →
      (t.mendBlack aug t.root none).Returns s x fun t' s' x' =>
        (∀ lone, mendBlackElse aug lone s.repairLimit t t.root none s x = .ok ((t', s'), x')) ∧
        ∃ shape', Repaired s shape t' s' shape' ∧
          (shape'.RedBlack height ∨ shape'.RedBlack (height + 1)) := by
  constructor
  · -- A position below a node, with the whole tree around it.
    intro p n side height hp hn hshort
    obtain ⟨sibling, above, u, rfl, hchild⟩ := h.exists_position hp hn side
    rw [hchild] at hshort ⊢
    obtain ⟨k, hu, hctx⟩ := hshort.exists_fits h.nodup
    exact returns_mendBlack_of_fits steady h hu hctx x
  · -- The repair may also start at the root, with nothing around it.
    intro height hclash
    have hroot : t.root = shape.root? := h.linkedUp.root_eq
    rw [hroot]
    refine (returns_mendBlack_of_fits (C := .top) steady h (hclash.mendable h.nodup) .top x).mono ?_
    rintro t' s' x' ⟨helse, shape', hrepaired, hdone⟩
    refine ⟨helse, shape', hrepaired, ?_⟩
    rcases hdone with hdone | ⟨k, heq, hdone⟩
    · exact .inr hdone
    · exact .inl (Nat.add_right_cancel heq ▸ hdone)

/-- A root with nothing on its left, and on its right a red node with two black children. -/
def lopsided : Store Node :=
  #[{ right := some 1, color := .black },
    { parent := some 0, left := some 2, right := some 3, color := .red, state := .linked },
    { parent := some 1, color := .black, state := .removed },
    { parent := some 1, color := .black }]

/-- What the links of `lopsided` spell. -/
def lopsidedShape : Shape :=
  .node .black .leaf 0 (.node .red (.node .black .leaf 2 .leaf) 1 (.node .black .leaf 3 .leaf))

/-- The links of `lopsided` spell out its shape. -/
theorem consistent_lopsided : Tree.Consistent ⟨some 0⟩ lopsided lopsidedShape where
  hangs := by
    have hinner : Hangs lopsided (some 1) (some 2) (.node .black .leaf 2 .leaf) :=
      Hangs.node (n := lopsided[2]) rfl rfl (.leaf _) (.leaf _)
    have houter : Hangs lopsided (some 1) (some 3) (.node .black .leaf 3 .leaf) :=
      Hangs.node (n := lopsided[3]) rfl rfl (.leaf _) (.leaf _)
    have hred := Hangs.node (n := lopsided[1]) rfl rfl hinner houter
    exact Hangs.node (n := lopsided[0]) rfl rfl (.leaf _) hred
  nodup := by decide

/-- A red root with a red node on its left. -/
def twoReds : Store Node := #[{ left := some 1 }, { parent := some 0 }]

/-- What the links of `twoReds` spell. -/
def twoRedsShape : Shape := .node .red (.node .red .leaf 1 .leaf) 0 .leaf

/-- The links of `twoReds` spell out its shape. -/
theorem consistent_twoReds : Tree.Consistent ⟨some 0⟩ twoReds twoRedsShape where
  hangs := by
    have hleft : Hangs twoReds (some 0) (some 1) (.node .red .leaf 1 .leaf) :=
      Hangs.node (n := twoReds[1]) rfl rfl (.leaf _) (.leaf _)
    exact Hangs.node (n := twoReds[0]) rfl rfl hleft (.leaf _)
  nodup := by decide

/-- Of the one tree the position on the left of the root is mended, of the other the root. -/
theorem mendBlack_samples :
    ((mendBlack (.none : Augmentation Node Unit) ⟨some 0⟩ none (some 0)).Returns lopsided ()
      fun t' s' _ => ∃ shape', Repaired lopsided lopsidedShape t' s' shape' ∧
        (shape'.RedBlack 2 ∨ ∃ h, 2 = h + 1 ∧ shape'.RedBlack h)) ∧
    (mendBlack (.none : Augmentation Node Unit) ⟨some 0⟩ (some 0) none).Returns twoReds ()
      fun t' s' _ => ∃ shape', Repaired twoReds twoRedsShape t' s' shape' ∧
        (shape'.RedBlack 0 ∨ shape'.RedBlack 1) := by
  constructor
  · have hshort : lopsidedShape.ShortAt 0 .left (lopsided[0].child .left) 2 :=
      ⟨rfl, by decide, by decide, by decide⟩
    refine ((mendBlack_of_short Augmentation.steady_none consistent_lopsided ()).1 0 lopsided[0]
      .left 2 (by decide) rfl hshort).mono ?_
    exact fun _ _ _ hdone => hdone.2
  · have hclash : twoRedsShape.ClashBelow 0 := ⟨by decide, by decide⟩
    refine ((mendBlack_of_short Augmentation.steady_none consistent_twoReds ()).2 0 hclash).mono ?_
    exact fun _ _ _ hdone => hdone.2

/-- Let the tree be consistent, whatever states its nodes are in, and let nothing be wrong with it
but that the red node `id` has a red parent or is the root. Then the repair that starts there ends
with a red-black tree, of the same black height or one more. It has never come to a red parent
without a parent: the run is the same whatever is done there. -/
theorem mendRed_of_clash (steady : aug.Steady) (h : t.Consistent s shape) {id : RecordId} {n : Node}
    {height : Nat} (hid : id ∈ shape.inorder) (hn : s.node id = .ok n) (hred : n.color = .red)
    (hclash : shape.ClashAt id height) (x : σ) :
    (t.mendRed aug id).Returns s x fun t' s' x' =>
      (∀ orphan, mendRedElse aug orphan s.repairLimit t id s x = .ok ((t', s'), x')) ∧
      ∃ shape', Repaired s shape t' s' shape' ∧
        (shape'.RedBlack height ∨ shape'.RedBlack (height + 1)) := by
  obtain ⟨sibling, above, u, rfl, -⟩ := h.exists_position hid hn .left
  rw [Context.fill, hred] at h hclash ⊢
  have hroot : (Shape.join .left .red u id sibling).root? = some id := Shape.root?_join ..
  obtain ⟨k, hnew, hctx⟩ := hclash.exists_fits hroot h.nodup
  have turns := steady.turns_stated s.linkedUp.ownState
  have hmend := returns_mendRedElse (fun _ _ => throw .endless) turns s.repairLimit (h.mending x)
    hroot (Shape.color_join ..) hnew hctx h.depth_lt
  obtain ⟨t', s', x', hall, hdone⟩ := Repaired.of_follows hmend
  have helse : ∀ orphan, mendRedElse aug orphan s.repairLimit t id s x = .ok ((t', s'), x') :=
    fun orphan => hall _ (follows_mendRedElse aug t orphan _ id)
  refine ⟨t', s', x', ?_, helse, hdone⟩
  show t.mendRedFrom aug s.repairLimit id s x = _
  rw [← mendRedElse_eq]
  exact helse _

/-- Under the red child of the root hangs a red node on the inner side. -/
def redUnderRed : Store (Entry Nat) :=
  #[⟨{ left := some 1, color := .black }, 5, 9, 9⟩,
    ⟨{ parent := some 0, right := some 2 }, 1, 2, 4⟩,
    ⟨{ parent := some 1 }, 3, 4, 4⟩]

/-- What the links of `redUnderRed` spell. -/
def redUnderRedShape : Shape :=
  .node .black (.node .red .leaf 1 (.node .red .leaf 2 .leaf)) 0 .leaf

/-- The links of `redUnderRed` spell out its shape. -/
theorem consistent_redUnderRed : Tree.Consistent ⟨some 0⟩ redUnderRed redUnderRedShape where
  hangs := by
    have hinner : Hangs redUnderRed (some 1) (some 2) (.node .red .leaf 2 .leaf) :=
      Hangs.node (n := redUnderRed[2].node) rfl rfl (.leaf _) (.leaf _)
    have hred : Hangs redUnderRed (some 0) (some 1)
        (.node .red .leaf 1 (.node .red .leaf 2 .leaf)) :=
      Hangs.node (n := redUnderRed[1].node) rfl rfl (.leaf _) hinner
    exact Hangs.node (n := redUnderRed[0].node) rfl rfl hred (.leaf _)
  nodup := by decide

/-- Two rotations end it, and the summary is told of both. -/
theorem mendRed_sample :
    (mendRed (reachSummary : Augmentation (Entry Nat) Unit) ⟨some 0⟩ 2).Returns redUnderRed ()
      fun t' s' _ => ∃ shape', Repaired redUnderRed redUnderRedShape t' s' shape' ∧
        (shape'.RedBlack 1 ∨ shape'.RedBlack 2) := by
  have hclash : redUnderRedShape.ClashAt 2 1 := ⟨.inr rfl, by decide, by decide⟩
  refine (mendRed_of_clash steady_reachSummary consistent_redUnderRed (n := redUnderRed[2].node)
    (by decide) rfl rfl hclash ()).mono ?_
  exact fun _ _ _ hdone => hdone.2

end Tree

end RecordTree
