import RecordTree.Tree.Rotate

/-!
# `RecordTree.Tree.Insert`: linking a node and mending red under red

A new node is linked as a red leaf. If its parent is red too, `Tree.mendRed` repairs that:
with a red uncle it recolours and goes on two levels up, else one or two rotations end the
matter. `Tree.link` takes a slot from the caller, `Tree.insert` finds it by a comparator.
-/

set_option autoImplicit false

namespace RecordTree

variable {ρ σ : Type} [Linked ρ]

namespace Tree

/-- Ends a red-under-red at `id`, whose red parent is the child of `grand` at `side`, when
the uncle is black: an inner child is rotated outward first, then the parent rises above
`grand`. -/
def raiseParent (aug : Augmentation ρ σ) (t : Tree) (id parent grand : RecordId) (side : Side) :
    Update ρ σ Tree := do
  let inner := (← Update.node parent).child side.flip = some id
  let t ← if inner then t.rotate aug parent side else pure t
  let top := if inner then id else parent
  let t ← t.rotate aug grand side.flip
  Update.paint top .black
  Update.paint grand .red
  pure t

/-- Mends a red node `id` under a red parent, upward until none is left. -/
def mendRedFrom (aug : Augmentation ρ σ) : Nat → Tree → RecordId → Update ρ σ Tree
  | 0, _, _ => throw .endless
  | steps + 1, t, id => do
    match (← Update.node id).parent with
    | none => do
      Update.paint id .black
      pure t
    | some parent => do
      let p ← Update.node parent
      match p.color, p.parent with
      | .black, _ => pure t
      | .red, none => do
        Update.paint parent .black
        pure t
      | .red, some grand => do
        let g ← Update.node grand
        let side := g.sideOf (some parent)
        let uncle := g.child side.flip
        match ← Update.colorOf uncle with
        | .red => do
          Update.paint parent .black
          Update.paint? uncle .black
          Update.paint grand .red
          mendRedFrom aug steps t grand
        | .black => t.raiseParent aug id parent grand side

/-- Mends the tree after the red leaf `id` was linked. -/
def mendRed (aug : Augmentation ρ σ) (t : Tree) (id : RecordId) (limits : Limits ρ := .ample) :
    Update ρ σ Tree := do
  let steps ← Update.read fun s => pure (limits.repair s)
  t.mendRedFrom aug steps id

/-- Links `id` as a red leaf at `slot`, whatever stands there, and mends the tree. -/
def attach (aug : Augmentation ρ σ) (t : Tree) (slot : Slot) (id : RecordId)
    (limits : Limits ρ := .ample) : Update ρ σ Tree := do
  Update.modifyNode id fun _ => Node.leafAt slot
  let t ← match slot.parent with
    | some parent => do
      Update.modifyNode parent (·.setChild slot.side (some id))
      pure t
    | none => pure ⟨some id⟩
  aug.propagate slot.parent none
  t.mendRed aug id limits

variable [Listener σ]

/-- Links `id` at `slot` and keeps the summaries of `aug`. -/
def linkWith (aug : Augmentation ρ σ) (t : Tree) (slot : Slot) (id : RecordId)
    (limits : Limits ρ := .ample) : Guarded ρ σ Tree := do
  let occupant ← Guarded.update (t.occupant slot)
  checkLink slot.parent occupant id
  Guarded.update (t.attach aug slot id limits)

/-- Links `id` at `slot`, usually one that `findSlot` gave. -/
def link (t : Tree) (slot : Slot) (id : RecordId) : Guarded ρ σ Tree :=
  t.linkWith .none slot id

/-- Inserts `id` by `compare` and keeps the summaries of `aug`. -/
def insertWith (aug : Augmentation ρ σ) (t : Tree) (id : RecordId) (compare : Comparator ρ σ)
    (limits : Limits ρ := .ample) : Guarded ρ σ Tree := do
  let vacancy ← Guarded.update (Update.query (t.descend · id compare limits))
  t.linkWith aug vacancy.slot id limits

/-- Inserts `id` by `compare`, after all nodes that compare equal to it. -/
def insert (t : Tree) (id : RecordId) (compare : Comparator ρ σ) : Guarded ρ σ Tree :=
  t.insertWith .none id compare

end Tree

end RecordTree
