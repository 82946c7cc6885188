import RecordTree.Tree.Basic

/-!
# `RecordTree.Tree.Rotate`: the one move that reshapes a tree

`Tree.rotate t node side` lets the child of `node` opposite to `side` take its place, and
puts `node` below it at `side`. The order of the nodes from left to right stays the same.

```
    rotate node left              rotate node right

      node            x               node          x
      /  \           / \              /  \         / \
     a    x   =>  node  c            x    c   =>  a  node
         / \      /  \              / \              /  \
        b   c    a    b            a   b            b    c
```

Colours are left to the caller, and the augmentation hears of every rotation that is made.
-/

set_option autoImplicit false

namespace RecordTree

variable {ρ σ : Type} [Linked ρ]

namespace Tree

/-- Lets the child of `id` opposite to `side` take its place. Without such a child nothing
happens. -/
def rotate (aug : Augmentation ρ σ) (t : Tree) (id : RecordId) (side : Side) :
    Update ρ σ Tree := do
  let n ← Update.node id
  match n.child side.flip with
  | none => pure t
  | some x => do
    let inner := (← Update.node x).child side
    Update.modifyNode id (·.setChild side.flip inner)
    Update.setParent inner (some id)
    Update.modifyNode x (·.setChild side (some id))
    Update.setParent (some x) n.parent
    Update.setParent (some id) (some x)
    let t ← t.changeChild id (some x) n.parent
    aug.rotate id x
    pure t

end Tree

end RecordTree
