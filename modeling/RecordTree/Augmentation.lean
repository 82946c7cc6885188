import RecordTree.Update

/-!
# `RecordTree.Augmentation`: summaries kept along with the tree

A tree can keep a summary of each subtree in its records. The tree code does not know the
summary; it calls back whenever one may have become stale.

* `propagate node stop`: recompute from `node` upward, up to but not including `stop`.
* `copy old new`: `new` takes over the place of `old` and the subtree there.
* `rotate old new`: `new` was rotated above `old`, which is now its child.

Before a node is linked, its owner sets its summary to that of a leaf.
`Augmentation.traced` tells the caller's context of each call before it is passed on.
-/

set_option autoImplicit false

namespace RecordTree

variable {ρ σ : Type}

/-- The calls that keep summaries up to date. -/
structure Augmentation (ρ σ : Type) where
  propagate (node stop : Option RecordId) : Update ρ σ Unit
  copy (old new : RecordId) : Update ρ σ Unit
  rotate (old new : RecordId) : Update ρ σ Unit

/-- The three links of a node. -/
structure Links where
  parent : Option RecordId
  left : Option RecordId
  right : Option RecordId
deriving DecidableEq

/-- The links of a node, without its colour and state. -/
def Node.links (n : Node) : Links := ⟨n.parent, n.left, n.right⟩

/-- A call to an augmentation, with the links of the nodes it is about at that moment. -/
inductive Callback where
  | propagate (node stop : Option RecordId)
  | copy (old new : RecordId) (oldLinks newLinks : Links)
  | rotate (old new : RecordId) (oldLinks newLinks : Links)
deriving DecidableEq

namespace Augmentation

/-- Keeps no summary. -/
def none : Augmentation ρ σ where
  propagate _ _ := pure ()
  copy _ _ := pure ()
  rotate _ _ := pure ()

/-- Tells `note` of each call, and passes it on to `inner`. -/
def traced [Linked ρ] (note : Callback → σ → σ) (inner : Augmentation ρ σ) :
    Augmentation ρ σ where
  propagate node stop := do
    Update.tell (note (.propagate node stop))
    inner.propagate node stop
  copy old new := do
    let oldLinks := (← Update.node old).links
    let newLinks := (← Update.node new).links
    Update.tell (note (.copy old new oldLinks newLinks))
    inner.copy old new
  rotate old new := do
    let oldLinks := (← Update.node old).links
    let newLinks := (← Update.node new).links
    Update.tell (note (.rotate old new oldLinks newLinks))
    inner.rotate old new

end Augmentation

end RecordTree
