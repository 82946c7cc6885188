import RecordTree.Proofs.Walk.Step
import RecordTree.Tree.Basic

/-!
# `RecordTree.Proofs.Walk.Cursor`: the nodes of a walk

`Order.Visits s l` says that the steps of an order lead along the list `l`, from each node to
the one after it and from the last one to the end. A cursor that stands at the head of the
rest of such a list hands out that rest, all of it or as much as it is asked for.

* `Tree.HasShape.walk_towards`: the walk towards a side is the list of nodes read towards it. The
  ascending walk is the one to the right, and the descending walk the one to the left.
-/

set_option autoImplicit false

namespace RecordTree

variable {ρ : Type} [Linked ρ] {s : Store ρ}

/-- The walk in order that goes towards a side. -/
def Order.towards : Side → Order
  | .right => .ascending
  | .left => .descending

/-- A walk towards a side begins at the far end of the other side. -/
theorem Order.first_towards (side : Side) (root : Option RecordId) :
    (Order.towards side).first s root = s.extreme side.flip root := by
  cases side <;> rfl

/-- From each node of `l` the order goes to the next one of `l`. -/
def Order.Visits (order : Order) (s : Store ρ) (l : List RecordId) : Prop :=
  ∀ before id after, l = before ++ id :: after → order.step s id = .ok after.head?

namespace Cursor

variable {order : Order} {l : List RecordId}

/-- A cursor hands out the node that it stands at, and goes to the next one. -/
theorem advance_eq (h : order.Visits s l) {before after : List RecordId} {id : RecordId}
    (hl : l = before ++ id :: after) :
    (Cursor.mk order (some id)).advance s = .ok (some (id, ⟨order, after.head?⟩)) := by
  rw [advance]
  simp only [h before id after hl]
  rfl

/-- A cursor hands out what is left of its list. -/
theorem listFrom_eq (h : order.Visits s l) {steps : Nat} {before after : List RecordId}
    (hl : l = before ++ after) (hsteps : after.length < steps) :
    listFrom s steps ⟨order, after.head?⟩ = .ok after := by
  induction after generalizing steps before with
  | nil =>
    obtain ⟨steps, rfl⟩ := Nat.exists_eq_add_one.mpr hsteps
    rfl
  | cons id after ih =>
    obtain ⟨steps, rfl⟩ : ∃ k, steps = k + 1 := Nat.exists_eq_add_one.mpr (by omega)
    rw [List.length_cons] at hsteps
    have hsplit : l = (before ++ [id]) ++ after := by simp [hl]
    have hrest := ih hsplit (show after.length < steps by omega)
    rw [List.head?_cons, listFrom, advance_eq h hl]
    simp only [bind, Except.bind, hrest]
    rfl

/-- A cursor hands out as much as it is asked for. -/
theorem take_eq (h : order.Visits s l) (limit : Nat) {before after : List RecordId}
    (hl : l = before ++ after) : take s limit ⟨order, after.head?⟩ = .ok (after.take limit) := by
  induction limit generalizing before after with
  | zero => rfl
  | succ limit ih =>
    cases after with
    | nil => rfl
    | cons id after =>
      have hsplit : l = (before ++ [id]) ++ after := by simp [hl]
      have hrest := ih hsplit
      rw [List.head?_cons, take, advance_eq h hl]
      simp only [bind, Except.bind, hrest]
      rfl

/-- A cursor counts what is left of its list. -/
theorem countFrom_eq (h : order.Visits s l) {steps : Nat} (seen : Nat)
    {before after : List RecordId} (hl : l = before ++ after) (hsteps : after.length < steps) :
    countFrom s steps seen ⟨order, after.head?⟩ = .ok (seen + after.length) := by
  induction after generalizing steps before seen with
  | nil =>
    obtain ⟨steps, rfl⟩ := Nat.exists_eq_add_one.mpr hsteps
    rfl
  | cons id after ih =>
    obtain ⟨steps, rfl⟩ : ∃ k, steps = k + 1 := Nat.exists_eq_add_one.mpr (by omega)
    rw [List.length_cons] at hsteps
    have hsplit : l = (before ++ [id]) ++ after := by simp [hl]
    have hrest := ih (seen + 1) hsplit (show after.length < steps by omega)
    rw [List.head?_cons, countFrom, advance_eq h hl]
    simp only [bind, Except.bind, hrest, List.length_cons]
    rw [Nat.add_assoc, Nat.add_comm 1]

/-- A cursor at the first node counts all of them. -/
theorem count_eq (h : order.Visits s l) (hlen : l.length ≤ s.size) :
    (Cursor.mk order l.head?).count s = .ok l.length := by
  have hcount := countFrom_eq h 0 (List.nil_append l).symm (Store.lt_walkLimit hlen)
  rwa [Nat.zero_add] at hcount

/-- A cursor at the first node lists all of them. -/
theorem toList_eq (h : order.Visits s l) (hlen : l.length ≤ s.size) :
    (Cursor.mk order l.head?).toList s = .ok l := by
  have hsplit : l = [] ++ l := rfl
  exact listFrom_eq h hsplit (Store.lt_walkLimit hlen)

end Cursor

/-- The nodes of the walk over the tree in `order`. -/
def Tree.walk (t : Tree) (s : Store ρ) (order : Order) : Except Fault (List RecordId) := do
  let cursor ← t.cursor s order
  cursor.toList s

namespace Tree.HasShape

variable {t : Tree} {shape : Shape}

/-- The steps towards a side go through the nodes as they are read towards it. -/
theorem visits_towards (h : t.HasShape s shape) (side : Side) :
    (Order.towards side).Visits s (side.order shape.inorder) := by
  intro before id after hl
  cases side with
  | right => exact h.next_eq hl
  | left =>
    have hlist : shape.inorder = after.reverse ++ id :: before.reverse := by
      rw [← List.reverse_reverse shape.inorder, show shape.inorder.reverse = _ from hl]
      simp
    show s.prev id = _
    rw [h.prev_eq hlist, List.getLast?_reverse]

/-- In ascending order the walk goes from left to right. -/
theorem visits_ascending (h : t.HasShape s shape) : Order.ascending.Visits s shape.inorder :=
  h.visits_towards .right

/-- The walk towards a side begins with the node that is first in that reading. -/
theorem cursor_towards (h : t.HasShape s shape) (side : Side) :
    t.cursor s (.towards side) = .ok ⟨.towards side, (side.order shape.inorder).head?⟩ := by
  have hfirst : (Order.towards side).first s t.root = .ok (side.order shape.inorder).head? := by
    rw [Order.first_towards, h.root_eq]
    exact h.spells.extreme_eq side h.size_le
  rw [Tree.cursor, Cursor.start, hfirst]
  rfl

/-- The walk towards a side goes through the nodes as they are read towards it. -/
theorem walk_towards (h : t.HasShape s shape) (side : Side) :
    t.walk s (.towards side) = .ok (side.order shape.inorder) := by
  rw [walk, h.cursor_towards side]
  exact Cursor.toList_eq (h.visits_towards side) (by simpa using h.length_le)

/-- The ascending walk goes through the nodes from left to right. -/
theorem walk_ascending (h : t.HasShape s shape) : t.walk s .ascending = .ok shape.inorder :=
  h.walk_towards .right

end Tree.HasShape

end RecordTree
