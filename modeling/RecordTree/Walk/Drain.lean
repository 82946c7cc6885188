import RecordTree.Update
import RecordTree.Walk.Cursor

/-!
# `RecordTree.Walk.Drain`: deleting along a walk

`drain` steps a cursor and deletes some of the nodes it is handed, each right after it was
handed out. It serves any kind of cursor, given by its step, and any kind of tree, given by
its deletion. Which nodes go is up to `chosen`, which sees how many nodes came so far, the
node, and the records as they are then.
-/

set_option autoImplicit false

namespace RecordTree

variable {ρ σ τ γ : Type}

/-- What a drain did. -/
structure Drained (τ : Type) where
  /-- The nodes that the walk visited, in order. -/
  ids : List RecordId
  /-- The tree's handle after the last deletion. -/
  tree : τ
  /-- What ended the drain, if a deletion was turned down. -/
  rejected : Option Rejection
deriving DecidableEq

/-- A drain that visits `id` first. -/
def Drained.after (id : RecordId) (d : Drained τ) : Drained τ := { d with ids := id :: d.ids }

/-- Walks at most `limit` nodes and deletes the chosen ones, `seen` nodes having come
before. -/
def drain (advance : γ → Store ρ → Except Fault (Option (RecordId × γ)))
    (delete : τ → RecordId → Guarded ρ σ τ) (chosen : Nat → RecordId → Store ρ → Bool) :
    Nat → Nat → γ → τ → Update ρ σ (Drained τ)
  | 0, _, _, t => pure ⟨[], t, none⟩
  | limit + 1, seen, cursor, t => do
    match ← Update.read (advance cursor) with
    | none => pure ⟨[], t, none⟩
    | some (id, cursor) => do
      let goes ← Update.read fun s => pure (chosen (seen + 1) id s)
      if goes then
        match ← (delete t id).run with
        | .error r => pure ⟨[id], t, some r⟩
        | .ok t => Drained.after id <$> drain advance delete chosen limit (seen + 1) cursor t
      else Drained.after id <$> drain advance delete chosen limit (seen + 1) cursor t

end RecordTree
