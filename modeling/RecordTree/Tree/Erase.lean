import RecordTree.Tree.Rotate

/-!
# `RecordTree.Tree.Erase`: unlinking a node and mending uneven blacks

A node with at most one child gives its place to that child. A node with two children gives
its place, and its colour, to its successor, whose own place goes to the successor's right
child (`Tree.spliceSuccessor`). Either way a `Gap` says where a position moved up and which
colour left the tree there.

If a black node left, all paths through the gap are one black short. `Tree.mendBlack` works
upward from there: a red sibling is turned into a black one by a rotation, a sibling with
black children is painted red and the shortage moves up, and a sibling with a red child
ends it by one or two rotations.
-/

set_option autoImplicit false

namespace RecordTree

variable {ρ σ : Type} [Linked ρ]

/-- What a splice leaves behind. -/
structure Gap where
  /-- The node that moved up into the gap. -/
  child : Option RecordId
  /-- The node under which it now stands. -/
  parent : Option RecordId
  /-- The colour that left the tree. -/
  lost : Color
  /-- The lowest node whose summary has to be computed anew. -/
  stale : Option RecordId
deriving DecidableEq

namespace Tree

/-- Ends a shortage under `parent` at `side` by a sibling that has a red child: the outer
child, `far`, becomes black and the sibling rises above `parent`. -/
def borrowBlack (aug : Augmentation ρ σ) (t : Tree) (parent sibling : RecordId) (side : Side) :
    Update ρ σ Tree := do
  let color := (← Update.node parent).color
  Update.paint sibling color
  Update.paint parent .black
  let far := (← Update.node sibling).child side.flip
  Update.paint? far .black
  t.rotate aug parent side

/-- Mends a shortage of one black at the position that holds `id` under `parent`. -/
def mendBlackFrom (aug : Augmentation ρ σ) :
    Nat → Tree → Option RecordId → Option RecordId → Update ρ σ Tree
  | _, t, id, none => do
    Update.paint? id .black
    pure t
  | 0, _, _, some _ => throw .endless
  | steps + 1, t, id, some parent => do
    match ← Update.colorOf id with
    | .red => do
      Update.paint? id .black
      pure t
    | .black => do
      let p ← Update.node parent
      let side := p.sideOf id
      let beside := p.child side.flip
      let (t, beside) ← match ← Update.colorOf beside with
        | .black => pure (t, beside)
        | .red => do
          Update.paint? beside .black
          Update.paint parent .red
          let t ← t.rotate aug parent side
          pure (t, (← Update.node parent).child side.flip)
      match beside with
      | none => mendBlackFrom aug steps t (some parent) (← Update.node parent).parent
      | some sibling => do
        let sib ← Update.node sibling
        let near := sib.child side
        let far := sib.child side.flip
        match ← Update.colorOf near with
        | .black => do
          match ← Update.colorOf far with
          | .black => do
            Update.paint sibling .red
            mendBlackFrom aug steps t (some parent) (← Update.node parent).parent
          | .red => t.borrowBlack aug parent sibling side
        | .red => do
          match ← Update.colorOf far, near with
          | .black, some inner => do
            Update.paint inner .black
            Update.paint sibling .red
            let t ← t.rotate aug sibling side.flip
            t.borrowBlack aug parent inner side
          | _, _ => t.borrowBlack aug parent sibling side

/-- Mends the shortage of one black that a splice left where `id` now stands under
`parent`. -/
def mendBlack (aug : Augmentation ρ σ) (t : Tree) (id parent : Option RecordId)
    (limits : Limits ρ := .ample) : Update ρ σ Tree := do
  let steps ← Update.read fun s => pure (limits.repair s)
  t.mendBlackFrom aug steps id parent

/-- The left-most node under `id`, with the node above it, which is `above` for `id`. -/
def successorFrom (s : Store ρ) : Nat → RecordId → RecordId → Except Fault (RecordId × RecordId)
  | 0, _, _ => .error .endless
  | steps + 1, id, above => do
    match (← s.node id).left with
    | some left => successorFrom s steps left id
    | none => pure (id, above)

/-- Puts the successor of `id`, a node with the children `left` and `right`, in its place
with its colour. -/
def spliceSuccessor (aug : Augmentation ρ σ) (t : Tree) (id : RecordId) (n : Node)
    (left right : RecordId) (limits : Limits ρ := .ample) : Update ρ σ (Tree × Gap) := do
  let (succ, above) ← Update.read fun s => successorFrom s (limits.walk s) right id
  let moved ← Update.node succ
  let child := moved.right
  let parent ←
    if succ = right then do
      aug.copy id succ
      pure succ
    else do
      Update.modifyNode above (·.setChild .left child)
      Update.setParent child (some above)
      Update.modifyNode succ (·.setChild .right (some right))
      Update.setParent (some right) (some succ)
      aug.copy id succ
      aug.propagate (some above) (some succ)
      pure above
  Update.modifyNode succ (·.setChild .left (some left))
  Update.setParent (some left) (some succ)
  let t ← t.changeChild id (some succ) n.parent
  Update.modifyNode succ fun m => { m with parent := n.parent, color := n.color }
  pure (t, ⟨child, some parent, moved.color, some succ⟩)

/-- Puts the only child of `id`, if it has one, in its place. -/
def spliceChild (t : Tree) (id : RecordId) (n : Node) : Update ρ σ (Tree × Gap) := do
  let child := n.left.or n.right
  let t ← t.changeChild id child n.parent
  Update.setParent child n.parent
  pure (t, ⟨child, n.parent, n.color, n.parent⟩)

/-- Takes `id` out of the links around it. -/
def splice (aug : Augmentation ρ σ) (t : Tree) (id : RecordId) (limits : Limits ρ := .ample) :
    Update ρ σ (Tree × Gap) := do
  let n ← Update.node id
  match n.left, n.right with
  | some left, some right => t.spliceSuccessor aug id n left right limits
  | _, _ => t.spliceChild id n

/-- Unlinks `id`, whatever its state, and mends the tree. -/
def erase (aug : Augmentation ρ σ) (t : Tree) (id : RecordId) (limits : Limits ρ := .ample) :
    Update ρ σ Tree := do
  let (t, gap) ← t.splice aug id limits
  aug.propagate gap.stale none
  let t ← match gap.lost with
    | .black => t.mendBlack aug gap.child gap.parent limits
    | .red => pure t
  Update.modifyNode id fun _ => .removed
  pure t

variable [Listener σ]

/-- Deletes `id` and keeps the summaries of `aug`. -/
def deleteWith (aug : Augmentation ρ σ) (t : Tree) (id : RecordId) (limits : Limits ρ := .ample) :
    Guarded ρ σ Tree := do
  checkDelete id
  Guarded.update (t.erase aug id limits)

/-- Deletes `id`, which may then be inserted again. -/
def delete (t : Tree) (id : RecordId) : Guarded ρ σ Tree := t.deleteWith .none id

end Tree

end RecordTree
