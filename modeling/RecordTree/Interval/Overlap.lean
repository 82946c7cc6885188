import RecordTree.Interval.Entry
import RecordTree.Walk.Step

/-!
# `RecordTree.Interval.Overlap`: the intervals that overlap a query

Nodes are ordered by start, and each knows the largest stop below it. That lets a search for
the query `[lo, hi)` skip every subtree that reaches no further than `lo`, and end at the
first node that starts at `hi` or later.

* `Store.searchOverlap` finds the first overlapping node under one that reaches past `lo`.
  It never turns back: if the left subtree reaches past `lo`, then either the first overlap
  is there, or the node that reaches so far starts at `hi` or later, and so does everything
  after it.
* `Store.nextOverlap` goes on from a node: into its right subtree, else up.
* An `OverlapCursor` holds a query and its next answer. Like `Cursor` it looks for the
  following answer before it hands one out, which may then be deleted.
-/

set_option autoImplicit false

namespace RecordTree

variable {ρ κ : Type} [Spanned ρ κ] [LT κ] [DecidableLT κ]

namespace Store

/-- `child` if there is one whose subtree reaches past `lo`. -/
def childPast (s : Store ρ) (lo : κ) (child : Option RecordId) :
    Except Fault (Option RecordId) :=
  match child with
  | none => pure none
  | some child => return if lo < (← s.entry child).reach then some child else none

/-- Searches under `id`, whose subtree reaches past `lo`, for the first overlap with
`[lo, hi)`. -/
def searchOverlapFrom (s : Store ρ) (lo hi : κ) :
    Nat → RecordId → Except Fault (Option RecordId)
  | 0, _ => .error .endless
  | steps + 1, id => do
    let e ← s.entry id
    match ← s.childPast lo e.node.left with
    | some left => s.searchOverlapFrom lo hi steps left
    | none =>
      if e.start < hi then
        if lo < e.stop then pure (some id)
        else
          match ← s.childPast lo e.node.right with
          | some right => s.searchOverlapFrom lo hi steps right
          | none => pure none
      else pure none

/-- The first node under `id` that overlaps `[lo, hi)`, given that the subtree of `id`
reaches past `lo`. -/
def searchOverlap (s : Store ρ) (id : RecordId) (lo hi : κ) :
    Except Fault (Option RecordId) :=
  s.searchOverlapFrom lo hi s.walkLimit id

/-- Searches after `id`: in its right subtree, else from the first ancestor that comes
after it. -/
def nextOverlapFrom (s : Store ρ) (lo hi : κ) :
    Nat → RecordId → Except Fault (Option RecordId)
  | 0, _ => .error .endless
  | steps + 1, id => do
    let e ← s.entry id
    match ← s.childPast lo e.node.right with
    | some right => s.searchOverlap right lo hi
    | none =>
      match ← s.climb .right id with
      | none => pure none
      | some above => do
        let a ← s.entry above
        if a.start < hi then
          if lo < a.stop then pure (some above)
          else s.nextOverlapFrom lo hi steps above
        else pure none

/-- The first node after `id` that overlaps `[lo, hi)`. -/
def nextOverlap (s : Store ρ) (id : RecordId) (lo hi : κ) :
    Except Fault (Option RecordId) :=
  s.nextOverlapFrom lo hi s.walkLimit id

end Store

/-- A query and the next of its answers. -/
structure OverlapCursor (κ : Type) where
  lo : κ
  hi : κ
  /-- The node that the query answers next, `none` at its end. -/
  next : Option RecordId
deriving DecidableEq

namespace OverlapCursor

/-- The answers after `id`. -/
def afterNode (s : Store ρ) (id : RecordId) (lo hi : κ) : Except Fault (OverlapCursor κ) :=
  (⟨lo, hi, ·⟩) <$> s.nextOverlap id lo hi

/-- The answers from `id` on, with `id` if it is one. -/
def fromNode (s : Store ρ) (id : RecordId) (lo hi : κ) : Except Fault (OverlapCursor κ) := do
  let e ← s.entry id
  if e.overlaps lo hi then pure ⟨lo, hi, some id⟩
  else afterNode s id lo hi

/-- The next answer and the query behind it, or `none` at its end. -/
def advance (cursor : OverlapCursor κ) (s : Store ρ) :
    Except Fault (Option (RecordId × OverlapCursor κ)) :=
  match cursor.next with
  | none => pure none
  | some id => do
    let next ← s.nextOverlap id cursor.lo cursor.hi
    pure (some (id, { cursor with next }))

/-- The answers that are left, at most `limit` of them. -/
def take (s : Store ρ) : Nat → OverlapCursor κ → Except Fault (List RecordId)
  | 0, _ => pure []
  | limit + 1, cursor => do
    match ← cursor.advance s with
    | none => pure []
    | some (id, cursor) => (id :: ·) <$> cursor.take s limit

/-- The answers that are left, which are no more than `steps`. -/
def listFrom (s : Store ρ) : Nat → OverlapCursor κ → Except Fault (List RecordId)
  | 0, _ => .error .endless
  | steps + 1, cursor => do
    match ← cursor.advance s with
    | none => pure []
    | some (id, cursor) => (id :: ·) <$> cursor.listFrom s steps

/-- The answers that are left. -/
def toList (cursor : OverlapCursor κ) (s : Store ρ) : Except Fault (List RecordId) :=
  cursor.listFrom s s.walkLimit

end OverlapCursor

end RecordTree
