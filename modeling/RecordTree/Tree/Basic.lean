import RecordTree.Augmentation
import RecordTree.Guard
import RecordTree.Walk.Cursor

/-!
# `RecordTree.Tree.Basic`: the handle of a tree, and look-ups through it

A `Tree` is a handle: the id of the root, nothing else. Any number of trees can live in one
store. This module holds what only reads the records: the descent to an empty position
(`Tree.descend`), the search for a key (`Tree.find`) and the walks.

A comparator orders the new record against one of the tree. Records that compare equal keep
the order in which they were inserted, because the descent goes right on equality.
-/

set_option autoImplicit false

namespace RecordTree

variable {ρ σ : Type} [Linked ρ]

/-- The handle of a tree whose nodes are in a store. -/
structure Tree where
  root : Option RecordId := none
deriving DecidableEq, Inhabited

/-- Where a descent ends: the empty position, and whether every step there went left. -/
structure Vacancy where
  slot : Slot
  /-- A node linked here becomes the left-most one. -/
  leftmost : Bool
deriving DecidableEq

namespace Tree

/-- The handle of an empty tree. -/
def empty : Tree := {}

/-- Whether the tree has no node. -/
def isEmpty (t : Tree) : Bool := t.root.isNone

/-- The smallest node. -/
def first (t : Tree) (s : Store ρ) : Except Fault (Option RecordId) := s.first t.root

/-- The largest node. -/
def last (t : Tree) (s : Store ρ) : Except Fault (Option RecordId) := s.last t.root

/-- The walk over all nodes in `order`. -/
def cursor (t : Tree) (s : Store ρ) (order : Order) : Except Fault Cursor :=
  Cursor.start s t.root order

/-- Descends from `below`, the occupant of the position reached so far. -/
def descendFrom (s : Store ρ) (id : RecordId) (compare : Comparator ρ σ) :
    Nat → Option RecordId → Vacancy → Query σ Vacancy
  | _, none, here => pure here
  | 0, some _, _ => throw .endless
  | steps + 1, some below, here => do
    let new ← Query.read (s.fetch id)
    let old ← Query.read (s.fetch below)
    match ← Query.ask (compare new old) with
    | .lt =>
      descendFrom s id compare steps (Linked.node old).left
        ⟨⟨some below, .left⟩, here.leftmost⟩
    | .eq | .gt =>
      descendFrom s id compare steps (Linked.node old).right ⟨⟨some below, .right⟩, false⟩

/-- The empty position where record `id` belongs by `compare`. -/
def descend (t : Tree) (s : Store ρ) (id : RecordId) (compare : Comparator ρ σ)
    (limits : Limits ρ := .ample) : Query σ Vacancy :=
  descendFrom s id compare (limits.walk s) t.root ⟨.root, true⟩

/-- The slot where record `id` belongs by `compare`. -/
def findSlot (t : Tree) (s : Store ρ) (id : RecordId) (compare : Comparator ρ σ) :
    Query σ Slot :=
  Vacancy.slot <$> t.descend s id compare

/-- Searches under `below` for a record on which `probe` answers equal. -/
def findFrom (s : Store ρ) (probe : Probe ρ σ) :
    Nat → Option RecordId → Query σ (Option RecordId)
  | _, none => pure none
  | 0, some _ => throw .endless
  | steps + 1, some below => do
    let r ← Query.read (s.fetch below)
    match ← Query.ask (probe r) with
    | .lt => findFrom s probe steps (Linked.node r).right
    | .gt => findFrom s probe steps (Linked.node r).left
    | .eq => pure (some below)

/-- A node on which `probe` answers equal, the first one met from the root down. -/
def find (t : Tree) (s : Store ρ) (probe : Probe ρ σ) : Query σ (Option RecordId) :=
  findFrom s probe s.walkLimit t.root

/-- What stands at `slot`. -/
def occupant (t : Tree) (slot : Slot) : Update ρ σ (Option RecordId) :=
  match slot.parent with
  | some parent => return (← Update.node parent).child slot.side
  | none => pure t.root

/-- Puts `new` in the place of `old` under `parent`, or at the root. -/
def changeChild (t : Tree) (old : RecordId) (new parent : Option RecordId) :
    Update ρ σ Tree :=
  match parent with
  | some parent => do
    Update.modifyNode parent (·.swapChild old new)
    pure t
  | none => pure ⟨new⟩

end Tree

end RecordTree
