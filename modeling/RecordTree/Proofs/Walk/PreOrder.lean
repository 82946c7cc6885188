import RecordTree.Proofs.Walk.Cursor

/-!
# `RecordTree.Proofs.Walk.PreOrder`: the walk that visits a node before its children

A step in pre-order goes to a child if there is one, the left one first. From a node without
children it climbs until it comes up from a left child with a sibling, and takes the sibling
(`Tree.HasShape.siblingFrom_eq`). Both are the same thing on lists: the next node in the position of
the node, and the first node after that position if there is none (`Tree.HasShape.preNext_eq`).
-/

set_option autoImplicit false

namespace RecordTree

namespace Context

/-- The nodes that come before those in the position, in pre-order. -/
def preBefore : Context → List RecordId
  | top => []
  | under .left _ id _ above => above.preBefore ++ [id]
  | under .right _ id sibling above => above.preBefore ++ id :: sibling.preorder

/-- The nodes that come after those in the position, in pre-order. -/
def preAfter : Context → List RecordId
  | top => []
  | under .left _ _ sibling above => sibling.preorder ++ above.preAfter
  | under .right _ _ _ above => above.preAfter

/-- In pre-order the nodes in a position come between those before it and those after it. -/
theorem preorder_fill (C : Context) (u : Shape) :
    (C.fill u).preorder = C.preBefore ++ u.preorder ++ C.preAfter := by
  induction C generalizing u with
  | top => simp [fill, preBefore, preAfter]
  | under side c id sibling above ih =>
    rw [fill, ih]
    cases side <;> simp [Shape.join, Shape.preorder, preBefore, preAfter]

end Context

namespace Shape

/-- Pre-order goes through the same nodes. -/
theorem perm_preorder (t : Shape) : t.preorder.Perm t.inorder := by
  induction t with
  | leaf => exact .refl _
  | node c l id r ihl ihr => exact ((ihl.append ihr).cons id).trans List.perm_middle.symm

/-- In pre-order the top of a tree comes first. -/
theorem head?_preorder (t : Shape) : t.preorder.head? = t.root? := by
  cases t <;> rfl

end Shape

variable {ρ : Type} [Linked ρ] {s : Store ρ}

namespace Tree.HasShape

variable {t : Tree} {shape : Shape}

/-- Climbing to a right sibling leads to the first node after the position. -/
theorem siblingFrom_eq {steps : Nat} {C : Context} {u : Shape} {id : RecordId}
    (h : t.HasShape s (C.fill u)) (hroot : u.root? = some id) (hsteps : C.depth < steps) :
    s.siblingFrom steps id = .ok C.preAfter.head? := by
  -- One step goes up to the parent. A sibling on the right is next, else the climb goes on.
  induction steps generalizing C u id with
  | zero => omega
  | succ steps ih =>
    obtain ⟨a, b, hjoin⟩ := Shape.exists_join hroot .left
    rw [hjoin] at h
    rw [Store.siblingFrom, h.node_top]
    simp only [bind, Except.bind, Node.parent_placed]
    cases C with
    | top => rfl
    | under side c p sibling above =>
      have hp := h.node_top (C := above)
      have hne : sibling.root? ≠ some id := h.child_ne (C := above) (by simp)
      have hup : s.siblingFrom steps p = .ok above.preAfter.head? := by
        refine ih (C := above) h (Shape.root?_join ..) ?_
        simp only [Context.depth] at hsteps
        omega
      rw [Shape.root?_join] at hp
      simp only [Context.parent, hp]
      cases side with
      | right =>
        -- The left child is the sibling, from which the climb does not come.
        have hleft : ∀ q a b, (Node.placed q .right a b c).left = b := fun _ _ _ => rfl
        simp only [hleft, hne, false_and, if_false]
        exact hup
      | left =>
        have hleft : ∀ q a b, (Node.placed q .left a b c).left = a := fun _ _ _ => rfl
        have hright : ∀ q a b, (Node.placed q .left a b c).right = b := fun _ _ _ => rfl
        simp only [hleft, hright, true_and]
        rw [Context.preAfter, List.head?_append, Shape.head?_preorder]
        cases hsibling : sibling.root? with
        | none => exact hup
        | some right => rfl

/-- The step from a node in pre-order. -/
theorem preNext_eq {id : RecordId} {l r : List RecordId} (h : t.HasShape s shape)
    (hlist : shape.preorder = l ++ id :: r) : s.preNext id = .ok r.head? := by
  have hid : id ∈ shape.inorder := by
    rw [← (Shape.perm_preorder shape).mem_iff, hlist]
    simp
  obtain ⟨C, c, a, b, rfl⟩ := Shape.exists_context hid
  -- The list splits at the node as the tree does.
  have hsplit : (C.fill (.node c a id b)).preorder =
      C.preBefore ++ id :: (a.preorder ++ b.preorder ++ C.preAfter) := by
    simp [Context.preorder_fill, Shape.preorder]
  have hnodup : (C.fill (.node c a id b)).preorder.Nodup :=
    (Shape.perm_preorder _).nodup_iff.mpr h.nodup
  rw [hsplit] at hlist hnodup
  obtain ⟨-, rfl⟩ := split_unique hnodup hlist
  have hnode : s.node id = .ok (.placed C.parent .left a.root? b.root? c) := h.node_top
  have hchild : ∀ q a b, (Node.placed q .left a b c).left.or (Node.placed q .left a b c).right =
      a.or b := fun _ _ _ => rfl
  rw [Store.preNext, hnode]
  simp only [bind, Except.bind, hchild, List.head?_append, Shape.head?_preorder]
  cases hnext : a.root?.or b.root? with
  | some child => rfl
  | none =>
    have hdepth : C.depth < s.walkLimit := by
      have hle := h.length_le
      have hids := C.depth_le_length_ids
      rw [(Context.perm_inorder_fill C _).length_eq, List.length_append] at hle
      exact Store.lt_walkLimit (by omega)
    exact h.siblingFrom_eq (Shape.root?_node ..) hdepth

/-- The steps in pre-order go along the list that recursion over the shape gives. -/
theorem visits_preOrder (h : t.HasShape s shape) : Order.preOrder.Visits s shape.preorder :=
  fun _ _ _ hl => h.preNext_eq hl

end Tree.HasShape

end RecordTree
