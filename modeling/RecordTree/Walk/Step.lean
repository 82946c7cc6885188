import RecordTree.Store

/-!
# `RecordTree.Walk.Step`: from a node to its neighbours

A walk keeps no stack: each step finds the next node from the links of the current one.
Three moves make up all of them.

* `Store.extreme` goes down along one side: the left-most node under a root is
  `extreme .left`, the right-most one `extreme .right`.
* `Store.climb` goes up until it has not come from the given side.
* `Store.neighbor` is the step in order: down the opposite side of the child if there is a
  child, else up. The successor is the neighbour on the right, the predecessor the one on
  the left.

`Store.preNext` and `Store.postNext` step through a node before and after its children.
An `Order` joins a first node with a step.
-/

set_option autoImplicit false

namespace RecordTree

variable {ρ : Type} [Linked ρ]

namespace Store

/-- Follows the links at `side` from `id` to the node that has none. -/
def extremeFrom (s : Store ρ) (side : Side) : Nat → RecordId → Except Fault RecordId
  | 0, _ => .error .endless
  | steps + 1, id => do
    match (← s.node id).child side with
    | some child => s.extremeFrom side steps child
    | none => pure id

/-- The last node on the links at `side` under `root`. -/
def extreme (s : Store ρ) (side : Side) (root : Option RecordId) (limits : Limits ρ := .ample) :
    Except Fault (Option RecordId) :=
  match root with
  | none => pure none
  | some root => some <$> s.extremeFrom side (limits.walk s) root

/-- The left-most node under `root`. -/
def first (s : Store ρ) (root : Option RecordId) : Except Fault (Option RecordId) :=
  s.extreme .left root

/-- The right-most node under `root`. -/
def last (s : Store ρ) (root : Option RecordId) : Except Fault (Option RecordId) :=
  s.extreme .right root

/-- Climbs from `id` until it has not come up from the child at `side`. -/
def climbFrom (s : Store ρ) (side : Side) : Nat → RecordId → Except Fault (Option RecordId)
  | 0, _ => .error .endless
  | steps + 1, id => do
    match (← s.node id).parent with
    | none => pure none
    | some parent =>
      if (← s.node parent).child side = some id then s.climbFrom side steps parent
      else pure (some parent)

/-- The lowest ancestor of `id` that has `id` not under its child at `side`. -/
def climb (s : Store ρ) (side : Side) (id : RecordId) (limits : Limits ρ := .ample) :
    Except Fault (Option RecordId) :=
  s.climbFrom side (limits.walk s) id

/-- The node beside `id` in order: the successor on the right, the predecessor on the
left. -/
def neighbor (s : Store ρ) (side : Side) (id : RecordId) (limits : Limits ρ := .ample) :
    Except Fault (Option RecordId) := do
  match (← s.node id).child side with
  | some child => s.extreme side.flip (some child) limits
  | none => s.climb side id limits

/-- The successor of `id` in order. -/
def next (s : Store ρ) (id : RecordId) (limits : Limits ρ := .ample) :
    Except Fault (Option RecordId) :=
  s.neighbor .right id limits

/-- The predecessor of `id` in order. -/
def prev (s : Store ρ) (id : RecordId) : Except Fault (Option RecordId) :=
  s.neighbor .left id

/-- Climbs from `id` until it has come up from a left child with a right sibling, and takes
the sibling. -/
def siblingFrom (s : Store ρ) : Nat → RecordId → Except Fault (Option RecordId)
  | 0, _ => .error .endless
  | steps + 1, id => do
    match (← s.node id).parent with
    | none => pure none
    | some parent =>
      let above ← s.node parent
      if above.left = some id ∧ above.right.isSome then pure above.right
      else s.siblingFrom steps parent

/-- The node after `id` when a node comes before its children, the left one first. -/
def preNext (s : Store ρ) (id : RecordId) : Except Fault (Option RecordId) := do
  let n ← s.node id
  match n.left.or n.right with
  | some child => pure (some child)
  | none => s.siblingFrom s.walkLimit id

/-- Goes down from `id`, left where it can, to a node without children. -/
def leafFrom (s : Store ρ) : Nat → RecordId → Except Fault RecordId
  | 0, _ => .error .endless
  | steps + 1, id => do
    let n ← s.node id
    match n.left.or n.right with
    | some child => s.leafFrom steps child
    | none => pure id

/-- The first node under `root` when a node comes after its children. -/
def postFirst (s : Store ρ) : Option RecordId → Except Fault (Option RecordId)
  | none => pure none
  | some root => some <$> s.leafFrom s.walkLimit root

/-- The node after `id` when a node comes after its children. -/
def postNext (s : Store ρ) (id : RecordId) : Except Fault (Option RecordId) := do
  match (← s.node id).parent with
  | none => pure none
  | some parent =>
    let above ← s.node parent
    match above.right with
    | some right =>
      if above.left = some id then s.postFirst (some right) else pure (some parent)
    | none => pure (some parent)

end Store

/-- The order in which a walk visits the nodes of a tree. -/
inductive Order where
  /-- From the smallest to the largest. -/
  | ascending
  /-- From the largest to the smallest. -/
  | descending
  /-- A node after its children. -/
  | postOrder
  /-- A node before its children. -/
  | preOrder
deriving DecidableEq

namespace Order

/-- Where a walk over the tree at `root` begins. -/
def first (order : Order) (s : Store ρ) (root : Option RecordId) :
    Except Fault (Option RecordId) :=
  match order with
  | ascending => s.first root
  | descending => s.last root
  | postOrder => s.postFirst root
  | preOrder => pure root

/-- Where a walk goes from `id`. -/
def step (order : Order) (s : Store ρ) (id : RecordId) : Except Fault (Option RecordId) :=
  match order with
  | ascending => s.next id
  | descending => s.prev id
  | postOrder => s.postNext id
  | preOrder => s.preNext id

end Order

end RecordTree
