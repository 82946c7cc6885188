import RecordTree.Proofs.Walk.Cursor

/-!
# `RecordTree.Proofs.Walk.PostOrder`: the walk that visits a node after its children

A step in post-order looks at the node it starts from, at its parent, and at the way down into
the parent's right subtree. All of these come later in the walk than the nodes already
visited, so the step leads to the right node even if the visited ones have been wiped since
(`Tree.HasShape.postNext_eq`). That is what lets a tree be taken apart while it is walked.
-/

set_option autoImplicit false

namespace RecordTree

namespace Context

/-- The nodes that come before those in the position, in post-order. -/
def postBefore : Context → List RecordId
  | top => []
  | under .left _ _ _ above => above.postBefore
  | under .right _ _ sibling above => above.postBefore ++ sibling.postorder

/-- The nodes that come after those in the position, in post-order. -/
def postAfter : Context → List RecordId
  | top => []
  | under .left _ id sibling above => sibling.postorder ++ id :: above.postAfter
  | under .right _ id _ above => id :: above.postAfter

/-- In post-order the nodes in a position come between those before it and those after it. -/
theorem postorder_fill (C : Context) (u : Shape) :
    (C.fill u).postorder = C.postBefore ++ u.postorder ++ C.postAfter := by
  induction C generalizing u with
  | top => simp [fill, postBefore, postAfter]
  | under side c id sibling above ih =>
    rw [fill, ih]
    cases side <;> simp [Shape.join, Shape.postorder, postBefore, postAfter]

end Context

/-- Post-order goes through the same nodes. -/
theorem Shape.perm_postorder (t : Shape) : t.postorder.Perm t.inorder := by
  induction t with
  | leaf => exact .refl _
  | node c l id r ihl ihr =>
    refine ihl.append ?_
    exact (ihr.append_right [id]).trans (List.perm_append_singleton id r.inorder)

variable {ρ : Type} [Linked ρ] {s₀ s : Store ρ}

/-- Going down to a node without children leads to the first node in post-order. -/
theorem Spells.leafFrom_eq {steps : Nat} {p : Option RecordId} {u : Shape} {top : RecordId}
    (h : Spells s p u) (hroot : u.root? = some top) (hsteps : u.size ≤ steps) :
    ∃ j, s.leafFrom steps top = .ok j ∧ u.postorder.head? = some j := by
  -- One step goes down to the left child, or to the right one if there is no other.
  induction steps generalizing p u top with
  | zero =>
    cases u with
    | leaf => cases hroot
    | node c l id r => simp [Shape.size] at hsteps
  | succ steps ih =>
    cases u with
    | leaf => cases hroot
    | node c l id r =>
      cases hroot
      obtain ⟨hid, hl, hr⟩ := spells_node.mp h
      simp only [Shape.size] at hsteps
      rw [Store.leafFrom, hid]
      simp only [bind, Except.bind, Node.placed, Node.setChild, Side.flip_left]
      cases l with
      | node cl ll left lr =>
        obtain ⟨j, hrun, hhead⟩ := ih hl rfl (by omega)
        refine ⟨j, hrun, ?_⟩
        rw [Shape.postorder, List.head?_append, hhead]
        rfl
      | leaf =>
        cases r with
        | node cr rl right rr =>
          obtain ⟨j, hrun, hhead⟩ := ih hr rfl (by omega)
          refine ⟨j, hrun, ?_⟩
          rw [Shape.postorder, Shape.postorder, List.nil_append, List.head?_append, hhead]
          rfl
        | leaf => exact ⟨top, rfl, rfl⟩

/-- The first node in post-order is found from the top. -/
theorem Spells.postFirst_eq {p : Option RecordId} {u : Shape} (h : Spells s p u)
    (hsteps : u.size ≤ s.size) : s.postFirst u.root? = .ok u.postorder.head? := by
  cases hroot : u.root? with
  | none =>
    have hleaf : u = .leaf := Shape.eq_leaf_of_root? hroot
    rw [hleaf]
    rfl
  | some top =>
    have hlimit : u.size ≤ s.walkLimit := (Store.lt_walkLimit hsteps).le
    obtain ⟨j, hrun, hhead⟩ := h.leafFrom_eq hroot hlimit
    rw [Store.postFirst, hrun, hhead]
    rfl

namespace Tree.HasShape

variable {t : Tree} {shape : Shape}

/-- The step from the top of a position, in a store that still has the nodes to come. -/
theorem postNext_position {C : Context} {u : Shape} {id : RecordId}
    (h : t.HasShape s₀ (C.fill u)) (hroot : u.root? = some id) (hsize : s.size = s₀.size)
    (hs : ∀ j, j = id ∨ j ∈ C.postAfter → s.node j = s₀.node j) :
    s.postNext id = .ok C.postAfter.head? := by
  obtain ⟨a, b, hjoin⟩ := Shape.exists_join hroot .left
  rw [hjoin] at h
  rw [Store.postNext, hs id (.inl rfl), h.node_top]
  simp only [bind, Except.bind, Node.parent_placed]
  cases C with
  | top => rfl
  | under side c p sibling above =>
    have hp := h.node_top (C := above)
    have hne : sibling.root? ≠ some id := h.child_ne (C := above) (by simp)
    have habove : t.HasShape s₀
        (above.fill (.join side c (.join .left u.color a id b) p sibling)) := h
    have hsibling : Spells s₀ (some p) sibling :=
      (spells_join.mp (represents_fill.mp habove.represents).2).2.2
    have hsibsize : sibling.size ≤ s.size := by
      rw [hsize]
      exact habove.far.size_le_of_fill
    rw [Shape.root?_join] at hp
    have hp' : s.node p = .ok (.placed above.parent side (some id) sibling.root? c) := by
      rw [← hp]
      exact hs p (.inr (by cases side <;> simp [Context.postAfter]))
    simp only [Context.parent, hp']
    -- From a right child the parent is next, from a left one the first leaf of its sibling.
    cases side with
    | right =>
      have hright : ∀ q a b, (Node.placed q .right a b c).right = a := fun _ _ _ => rfl
      have hleft : ∀ q a b, (Node.placed q .right a b c).left = b := fun _ _ _ => rfl
      simp only [hright, hleft, hne, if_false]
      rfl
    | left =>
      have hright : ∀ q a b, (Node.placed q .left a b c).right = b := fun _ _ _ => rfl
      have hleft : ∀ q a b, (Node.placed q .left a b c).left = a := fun _ _ _ => rfl
      simp only [hright, hleft]
      cases hq : sibling.root? with
      | none =>
        have hleaf : sibling = .leaf := Shape.eq_leaf_of_root? hq
        rw [hleaf]
        rfl
      | some right =>
        -- Down into the sibling, all of which is still to come.
        have hthere : Spells s (some p) sibling := by
          refine hsibling.congr fun j hj => hs j (.inr ?_)
          simp [Context.postAfter, (Shape.perm_postorder sibling).mem_iff, hj]
        have hnonempty : sibling.postorder ≠ [] := by
          intro hnil
          have hmem := (Shape.perm_postorder sibling).mem_iff.mpr (Shape.mem_of_root? hq)
          rw [hnil] at hmem
          cases hmem
        simp only [if_true]
        rw [← hq, hthere.postFirst_eq hsibsize, Context.postAfter,
          List.head?_append_of_ne_nil _ hnonempty]

/-- The step from a node in post-order, in a store that still has the nodes to come. -/
theorem postNext_eq {id : RecordId} {l r : List RecordId} (h : t.HasShape s₀ shape)
    (hlist : shape.postorder = l ++ id :: r) (hsize : s.size = s₀.size)
    (hs : ∀ j ∈ id :: r, s.node j = s₀.node j) : s.postNext id = .ok r.head? := by
  have hid : id ∈ shape.inorder := by
    rw [← (Shape.perm_postorder shape).mem_iff, hlist]
    simp
  obtain ⟨C, c, a, b, rfl⟩ := Shape.exists_context hid
  have hsplit : (C.fill (.node c a id b)).postorder =
      (C.postBefore ++ (a.postorder ++ b.postorder)) ++ id :: C.postAfter := by
    simp [Context.postorder_fill, Shape.postorder]
  have hnodup : (C.fill (.node c a id b)).postorder.Nodup :=
    (Shape.perm_postorder _).nodup_iff.mpr h.nodup
  rw [hsplit] at hlist hnodup
  obtain ⟨-, rfl⟩ := split_unique hnodup hlist
  refine h.postNext_position (Shape.root?_node ..) hsize fun j hj => hs j ?_
  exact List.mem_cons.mpr hj

/-- The steps in post-order go along the list that recursion over the shape gives. -/
theorem visits_postOrder {s : Store ρ} (h : t.HasShape s shape) :
    Order.postOrder.Visits s shape.postorder :=
  fun _ _ _ hl => h.postNext_eq hl rfl fun _ _ => rfl

/-- The walk in post-order begins with the node that is first in it. -/
theorem cursor_postOrder {s : Store ρ} (h : t.HasShape s shape) :
    t.cursor s .postOrder = .ok ⟨.postOrder, shape.postorder.head?⟩ := by
  have hfirst : Order.postOrder.first s t.root = .ok shape.postorder.head? := by
    rw [h.root_eq]
    exact h.spells.postFirst_eq h.size_le
  rw [Tree.cursor, Cursor.start, hfirst]
  rfl

end Tree.HasShape

end RecordTree
