import RecordTree.Update

/-!
# `RecordTree.Guard`: the checks in front of a change

A record's `State` tells whether it is part of a tree, which is what the guards go by.
`checkLink` lets through a node that is not linked and does not already stand in the slot
it is meant for; `checkDelete` lets through a node that is linked. What they turn down is
told to the caller's context once, and the call ends there.
-/

set_option autoImplicit false

namespace RecordTree

variable {ρ σ α : Type} [Linked ρ] [Listener σ]

/-- Tells the caller's context and turns the call down. -/
def reject (r : Rejection) : Guarded ρ σ α := do
  Guarded.update (Update.tell (Listener.hear r))
  throw r

/-- Passes a node that may be linked under `parent`, where `occupant` stands now. -/
def checkLink (parent occupant : Option RecordId) (id : RecordId) : Guarded ρ σ Unit :=
  if occupant = some id then reject (.slotHolds parent id)
  else do
    let n ← Guarded.update (Update.node id)
    match n.state with
    | .linked => reject (.stillLinked id n.parent)
    | .detached | .removed => pure ()

/-- Passes a node that may be deleted. -/
def checkDelete (id : RecordId) : Guarded ρ σ Unit := do
  let n ← Guarded.update (Update.node id)
  match n.state with
  | .removed => reject (.alreadyRemoved id)
  | .detached => reject (.neverInserted id)
  | .linked => pure ()

end RecordTree
