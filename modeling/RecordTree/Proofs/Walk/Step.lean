import RecordTree.Proofs.Shape.Represents

/-!
# `RecordTree.Proofs.Walk.Step`: where the steps of a walk in order lead

A step to one side and its mirror image are one: `Side.order` reads a list of nodes towards a
side, and `Context.beyond` is what comes after a position in that reading. A step goes down
into the subtree on that side if there is one, and up otherwise, and both are the same thing
on lists: the first node of the subtree, or the first node beyond the position.

* `Spells.extreme_eq`: the end of a subtree, found by going down.
* `Tree.HasShape.climb_eq`: the first node beyond a position, found by going up.
* `Tree.HasShape.neighbor_eq`: the step from a node.
* `Tree.HasShape.next_eq`, `Tree.HasShape.prev_eq`: the same on the list of nodes.
-/

set_option autoImplicit false

namespace RecordTree

/-! ### Reading towards a side -/

/-- The list read towards `side`. -/
def Side.order (side : Side) (l : List RecordId) : List RecordId :=
  match side with
  | right => l
  | left => l.reverse

namespace Side

variable {side : Side} {l : List RecordId}

/-- Nothing is nothing from either side. -/
@[simp] theorem order_nil (side : Side) : side.order [] = [] := by
  cases side <;> rfl

/-- A list has the same members from either side. -/
@[simp] theorem mem_order {j : RecordId} : j ∈ side.order l ↔ j ∈ l := by
  cases side <;> simp [order]

/-- A list is as long from either side. -/
@[simp] theorem length_order : (side.order l).length = l.length := by
  cases side <;> simp [order]

/-- No member comes twice from one side if none does from the other one. -/
@[simp] theorem nodup_order : (side.order l).Nodup ↔ l.Nodup := by
  cases side <;> simp [order]

/-- Members may be left out before a list is turned round or after it. -/
theorem filter_order (p : RecordId → Bool) : (side.order l).filter p = side.order (l.filter p) := by
  cases side <;> simp [order]

/-- Where a list splits when it does so read towards a side. -/
theorem exists_split {before after : List RecordId} {id : RecordId}
    (h : side.order l = before ++ id :: after) :
    ∃ a b, l = a ++ id :: b ∧ side.order (a ++ b) = before ++ after := by
  cases side with
  | right => exact ⟨before, after, h, rfl⟩
  | left =>
    refine ⟨after.reverse, before.reverse, ?_, by simp [order]⟩
    rw [← List.reverse_reverse l, show l.reverse = _ from h]
    simp

end Side

/-- The nodes that come after the position, read towards `side`. -/
def Context.beyond (C : Context) (side : Side) : List RecordId :=
  match side with
  | .right => C.after
  | .left => C.before.reverse

/-- Read towards a side, a join has its parts in order with the top between them. -/
theorem Shape.order_join (side : Side) (c : Color) (a b : Shape) (id : RecordId) :
    side.order (join side.flip c a id b).inorder =
      side.order a.inorder ++ id :: side.order b.inorder := by
  cases side <;> simp [Side.order, join, inorder]

/-- A shape that is not empty has nodes towards either side. -/
theorem Shape.order_ne_nil {t : Shape} (h : t ≠ .leaf) (side : Side) :
    side.order t.inorder ≠ [] := by
  obtain ⟨a, id, b, hjoin⟩ := exists_join_of_ne h side.flip
  rw [hjoin, order_join]
  simp

/-- Beyond a whole tree there is nothing. -/
@[simp] theorem Context.beyond_top (side : Side) : top.beyond side = [] := by
  cases side <;> rfl

/-- Beyond a position at the side itself come the nodes beyond its parent. -/
@[simp] theorem Context.beyond_under (side : Side) (c : Color) (id : RecordId) (sibling : Shape)
    (above : Context) : (under side c id sibling above).beyond side = above.beyond side := by
  cases side <;> rfl

/-- Beyond a position at the other side come its parent and the sibling first. -/
@[simp] theorem Context.beyond_under_flip (side : Side) (c : Color) (id : RecordId)
    (sibling : Shape) (above : Context) :
    (under side.flip c id sibling above).beyond side =
      id :: (side.order sibling.inorder ++ above.beyond side) := by
  cases side <;> simp [beyond, before, after, Side.order]

variable {ρ : Type} [Linked ρ] {s : Store ρ}

/-! ### Down -/

/-- The way down one side ends at the first node, read towards the other side. -/
theorem Spells.extremeFrom_eq {steps : Nat} {p : Option RecordId} {u : Shape} {top : RecordId}
    (side : Side) (h : Spells s p u) (hroot : u.root? = some top) (hsteps : u.size ≤ steps) :
    ∃ j, s.extremeFrom side.flip steps top = .ok j ∧ (side.order u.inorder).head? = some j := by
  -- One step goes down to `a`, whose nodes come before all others of `u` in this reading.
  induction steps generalizing p u top with
  | zero =>
    cases u with
    | leaf => cases hroot
    | node c l id r => simp [Shape.size] at hsteps
  | succ steps ih =>
    obtain ⟨a, b, hjoin⟩ := Shape.exists_join hroot side.flip
    rw [hjoin] at h hsteps ⊢
    obtain ⟨hid, ha, -⟩ := spells_join.mp h
    rw [Shape.order_join, Store.extremeFrom, hid]
    simp only [bind, Except.bind, Node.child_placed]
    have hsize : a.size ≤ steps := by
      rw [← Shape.length_inorder, (Shape.perm_inorder_join ..).length_eq] at hsteps
      simp only [List.length_cons, List.length_append, Shape.length_inorder] at hsteps
      omega
    cases hchild : a.root? with
    | none =>
      have hleaf : a = .leaf := Shape.eq_leaf_of_root? hchild
      refine ⟨top, rfl, ?_⟩
      rw [hleaf, Shape.inorder, Side.order_nil]
      rfl
    | some child =>
      obtain ⟨j, hrun, hhead⟩ := ih ha hchild hsize
      refine ⟨j, hrun, ?_⟩
      rw [List.head?_append, hhead]
      rfl

/-- Going down along the links of one side leads to the first node towards the other. -/
theorem Spells.extreme_eq {p : Option RecordId} {u : Shape} (side : Side) (h : Spells s p u)
    (hsteps : u.size ≤ s.size) :
    s.extreme side.flip u.root? = .ok (side.order u.inorder).head? := by
  cases hroot : u.root? with
  | none =>
    have hleaf : u = .leaf := Shape.eq_leaf_of_root? hroot
    rw [hleaf, Shape.inorder, Side.order_nil]
    rfl
  | some top =>
    have hlimit : u.size ≤ s.walkLimit := (Store.lt_walkLimit hsteps).le
    obtain ⟨j, hrun, hhead⟩ := h.extremeFrom_eq side hroot hlimit
    rw [Store.extreme, hrun, hhead]
    rfl

namespace Tree.HasShape

variable {t : Tree}

/-! ### Up -/

/-- A climb from the top of a position ends at the first node beyond it. -/
theorem climbFrom_eq {steps : Nat} {C : Context} {u : Shape} {id : RecordId} (side : Side)
    (h : t.HasShape s (C.fill u)) (hroot : u.root? = some id) (hsteps : C.depth < steps) :
    s.climbFrom side steps id = .ok (C.beyond side).head? := by
  -- One step goes up to the parent. From its other side it is next, from `side` the climb goes on.
  induction steps generalizing C u id with
  | zero => omega
  | succ steps ih =>
    obtain ⟨a, b, hjoin⟩ := Shape.exists_join hroot .left
    rw [hjoin] at h
    rw [Store.climbFrom, h.node_top]
    simp only [bind, Except.bind, Node.parent_placed]
    cases C with
    | top =>
      rw [Context.beyond_top]
      rfl
    | under side' c p sibling above =>
      have hp := h.node_top (C := above)
      have hne : sibling.root? ≠ some id := h.child_ne (C := above) (by simp)
      rw [Shape.root?_join] at hp
      simp only [Context.parent, hp]
      obtain rfl | rfl : side' = side ∨ side' = side.flip := by
        cases side <;> cases side' <;> simp
      · rw [Node.child_placed, if_pos rfl, Context.beyond_under]
        refine ih h (Shape.root?_join ..) ?_
        simp only [Context.depth] at hsteps
        omega
      · rw [← Node.placed_flip, Side.flip_flip, Node.child_placed, if_neg hne,
          Context.beyond_under_flip]
        rfl

/-- Going up leads to the first node beyond the position. -/
theorem climb_eq {C : Context} {u : Shape} {id : RecordId} (side : Side)
    (h : t.HasShape s (C.fill u)) (hroot : u.root? = some id) :
    s.climb side id = .ok (C.beyond side).head? := by
  refine h.climbFrom_eq side hroot (Store.lt_walkLimit ?_)
  have hperm := (Context.perm_inorder_fill C u).length_eq
  have hdepth := C.depth_le_length_ids
  have hle := h.length_le
  rw [List.length_append] at hperm
  omega

/-! ### Steps -/

/-- The step from a node towards `side`. -/
theorem neighbor_eq {C : Context} {side : Side} {c : Color} {a b : Shape} {id : RecordId}
    (h : t.HasShape s (C.fill (.join side.flip c a id b))) :
    s.neighbor side id = .ok (side.order b.inorder ++ C.beyond side).head? := by
  obtain ⟨hid, -, hb⟩ := spells_join.mp (represents_fill.mp h.represents).2
  have hchild : (Node.placed C.parent side.flip a.root? b.root? c).child side = b.root? := by
    rw [← Node.placed_flip, Side.flip_flip, Node.child_placed]
  rw [Store.neighbor, hid]
  simp only [bind, Except.bind, hchild]
  cases hroot : b.root? with
  | none =>
    have hleaf : b = .leaf := Shape.eq_leaf_of_root? hroot
    rw [hleaf, Shape.inorder, Side.order_nil, List.nil_append]
    exact h.climb_eq side (Shape.root?_join ..)
  | some child =>
    have hsize : b.size ≤ s.size := h.far.size_le_of_fill
    have hne : b ≠ .leaf := by
      rintro rfl
      cases hroot
    show s.extreme side.flip (some child) = _
    rw [← hroot, hb.extreme_eq side hsize,
      List.head?_append_of_ne_nil _ (Shape.order_ne_nil hne side)]

/-- The successor of a node is the node after it. -/
theorem next_eq {shape : Shape} {id : RecordId} {l r : List RecordId} (h : t.HasShape s shape)
    (hlist : shape.inorder = l ++ id :: r) : s.next id = .ok r.head? := by
  obtain ⟨C, c, a, b, rfl, -, rfl⟩ := h.exists_split hlist
  have hright : t.HasShape s (C.fill (.join Side.right.flip c a id b)) := h
  exact hright.neighbor_eq

/-- The predecessor of a node is the node before it. -/
theorem prev_eq {shape : Shape} {id : RecordId} {l r : List RecordId} (h : t.HasShape s shape)
    (hlist : shape.inorder = l ++ id :: r) : s.prev id = .ok l.getLast? := by
  obtain ⟨C, c, a, b, rfl, rfl, -⟩ := h.exists_split hlist
  have hleft : t.HasShape s (C.fill (.join Side.left.flip c b id a)) := h
  rw [Store.prev, hleft.neighbor_eq, ← List.head?_reverse, List.reverse_append]
  rfl

/-- The smallest node is the first one. -/
theorem first_eq {shape : Shape} (h : t.HasShape s shape) :
    t.first s = .ok shape.inorder.head? := by
  rw [Tree.first, Store.first, h.root_eq]
  exact h.spells.extreme_eq .right h.size_le

end Tree.HasShape

end RecordTree
