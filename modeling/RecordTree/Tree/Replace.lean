import RecordTree.Tree.Basic

/-!
# `RecordTree.Tree.Replace`: handing a place over, and giving all places up

`Tree.replace` lets a new node stand where an old one stood, links and colour included; the
caller sees to it that both belong there. `Tree.clear` takes a whole tree apart along a
post-order walk, which has left a node for good by the time its links are wiped.
-/

set_option autoImplicit false

namespace RecordTree

variable {ρ σ : Type} [Linked ρ]

namespace Tree

/-- Puts `new` in the place of `old`, whatever their states. -/
def substitute (t : Tree) (old new : RecordId) : Update ρ σ Tree := do
  let n ← Update.node old
  Update.modifyNode new fun _ => { n with state := .linked }
  Update.setParent n.left (some new)
  Update.setParent n.right (some new)
  let t ← t.changeChild old (some new) n.parent
  Update.modifyNode old fun _ => .removed
  pure t

/-- Puts `new`, which is not linked, in the place of the linked `old`. -/
def replace [Listener σ] (t : Tree) (old new : RecordId) : Guarded ρ σ Tree := do
  checkDelete old
  let above := (← Guarded.update (Update.node old)).parent
  checkLink above none new
  Guarded.update (t.substitute old new)

/-- Wipes the nodes of a walk and counts them on top of the `released` ones. -/
def releaseFrom : Nat → Nat → Cursor → Update ρ σ Nat
  | 0, _, _ => throw .endless
  | steps + 1, released, cursor => do
    match ← Update.read (cursor.advance ·) with
    | none => pure released
    | some (id, cursor) => do
      Update.modifyNode id fun _ => .removed
      releaseFrom steps (released + 1) cursor

/-- Takes the tree apart without mending it. Returns how many nodes it had. -/
def clear (t : Tree) : Update ρ σ (Tree × Nat) := do
  let cursor ← Update.read (t.cursor · .postOrder)
  let steps ← Update.read fun s => pure (s.walkLimit + 1)
  let released ← releaseFrom steps 0 cursor
  pure (.empty, released)

end Tree

end RecordTree
