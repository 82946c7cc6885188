import RecordTree.Augmentation
import RecordTree.Interval.Entry

/-!
# `RecordTree.Interval.Reach`: the largest stop below a node

`reachSummary` is the augmentation that keeps the `reach` of every node right. A node's reach
comes from its own stop and the reaches of its two children (`Store.reachOf`). After a change
it is computed anew from the lowest node touched upward, and the climb ends at the first node
whose reach stays as it was. A node that takes another's place takes its reach along, since
the same intervals are below it.
-/

set_option autoImplicit false

namespace RecordTree

variable {ρ σ κ : Type} [Spanned ρ κ] [LT κ] [DecidableLT κ]

/-- The larger of `reach` and the reach below `child`, if there is one. -/
def Store.reachWith (s : Store ρ) (reach : κ) (child : Option RecordId) : Except Fault κ :=
  match child with
  | none => pure reach
  | some child => return larger reach (← s.entry child).reach

/-- The reach of record `id` from its own stop and its children's reaches. -/
def Store.reachOf (s : Store ρ) (id : RecordId) : Except Fault κ := do
  let e ← s.entry id
  s.reachWith (← s.reachWith e.stop e.node.left) e.node.right

variable [DecidableEq κ]

/-- Recomputes reaches from `id` upward, until `stop` or one that stays as it was. -/
def raiseReachFrom (stop : Option RecordId) : Nat → Option RecordId → Update ρ σ Unit
  | _, none => pure ()
  | 0, some _ => throw .endless
  | steps + 1, some id =>
    if some id = stop then pure ()
    else do
      let reach ← Update.read (·.reachOf id)
      let e ← Update.entry id
      if e.reach = reach then pure ()
      else do
        Update.modifyEntry id fun e => { e with reach }
        raiseReachFrom stop steps e.node.parent

/-- Gives `new` the reach that `old` has. -/
def copyReach (old new : RecordId) : Update ρ σ Unit := do
  let e ← Update.entry old
  Update.modifyEntry new fun m => { m with reach := e.reach }

/-- Keeps the reach of every node right. -/
def reachSummary (limits : Limits ρ := .ample) : Augmentation ρ σ where
  propagate node stop := do
    let steps ← Update.read fun s => pure (limits.repair s)
    raiseReachFrom stop steps node
  copy := copyReach
  rotate old new := do
    copyReach old new
    let reach ← Update.read (·.reachOf old)
    Update.modifyEntry old fun e => { e with reach }

end RecordTree
