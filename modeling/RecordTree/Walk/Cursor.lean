import RecordTree.Walk.Step

/-!
# `RecordTree.Walk.Cursor`: a walk that holds only its next node

A `Cursor` knows its order and the node to visit next. `Cursor.advance` computes the
following node before it hands out the current one, so the caller may delete the node it
was handed and then go on. An ascending or descending walk stays exact when nodes are
deleted that way; the other two orders follow the shape of the tree, which a deletion may
rotate, and may then miss nodes.

`Cursor.take`, `Cursor.toList` and `Cursor.count` read a walk off an unchanged store.
-/

set_option autoImplicit false

namespace RecordTree

variable {ρ : Type} [Linked ρ]

/-- A position in a walk, good for any later state of the store. -/
structure Cursor where
  order : Order
  /-- The node that the walk visits next, `none` at its end. -/
  next : Option RecordId
deriving DecidableEq

namespace Cursor

/-- The walk over the whole tree at `root`. -/
def start (s : Store ρ) (root : Option RecordId) (order : Order) : Except Fault Cursor :=
  (⟨order, ·⟩) <$> order.first s root

/-- The walk that visits `id` next. -/
def fromNode (id : RecordId) (order : Order) : Cursor := ⟨order, some id⟩

/-- The walk that has just visited `id`. -/
def afterNode (s : Store ρ) (id : RecordId) (order : Order) : Except Fault Cursor :=
  (⟨order, ·⟩) <$> order.step s id

/-- The node to visit and the walk behind it, or `none` at the end of the walk. -/
def advance (cursor : Cursor) (s : Store ρ) : Except Fault (Option (RecordId × Cursor)) :=
  match cursor.next with
  | none => pure none
  | some id => do
    let next ← cursor.order.step s id
    pure (some (id, { cursor with next }))

/-- The nodes of the walk, at most `limit` of them. -/
def take (s : Store ρ) : Nat → Cursor → Except Fault (List RecordId)
  | 0, _ => pure []
  | limit + 1, cursor => do
    match ← cursor.advance s with
    | none => pure []
    | some (id, cursor) => (id :: ·) <$> cursor.take s limit

/-- The nodes that are still to be visited after `steps` of them, which a walk over
distinct records does not leave. -/
def listFrom (s : Store ρ) : Nat → Cursor → Except Fault (List RecordId)
  | 0, _ => .error .endless
  | steps + 1, cursor => do
    match ← cursor.advance s with
    | none => pure []
    | some (id, cursor) => (id :: ·) <$> cursor.listFrom s steps

/-- The nodes of the walk up to its end. -/
def toList (cursor : Cursor) (s : Store ρ) : Except Fault (List RecordId) :=
  cursor.listFrom s s.walkLimit

/-- How many nodes are still to be visited, on top of the `seen` ones. -/
def countFrom (s : Store ρ) : Nat → Nat → Cursor → Except Fault Nat
  | 0, _, _ => .error .endless
  | steps + 1, seen, cursor => do
    match ← cursor.advance s with
    | none => pure seen
    | some (_, cursor) => countFrom s steps (seen + 1) cursor

/-- How many nodes the walk visits. -/
def count (cursor : Cursor) (s : Store ρ) : Except Fault Nat :=
  countFrom s s.walkLimit 0 cursor

end Cursor

end RecordTree
