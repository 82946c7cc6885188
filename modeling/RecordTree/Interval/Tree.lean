import RecordTree.CachedTree
import RecordTree.Interval.Overlap
import RecordTree.Interval.Reach

/-!
# `RecordTree.Interval.Tree`: an ordered set of intervals

An `IntervalTree` is a cached tree over records with intervals, ordered by start and kept
together with the reach of every node. Intervals of equal start stay in the order in which
they were inserted.

The queries are `IntervalTree.firstOverlap` and `IntervalTree.overlaps`; neither answers an
empty query range. `IntervalTree.validate` also recomputes every reach from the intervals
below it.
-/

set_option autoImplicit false

namespace RecordTree

variable {ρ σ κ : Type} [Spanned ρ κ] [LT κ] [DecidableLT κ] [DecidableEq κ]

/-- The handle of a tree of intervals. -/
structure IntervalTree where
  cached : CachedTree := .empty
deriving DecidableEq, Inhabited

/-- What a validation of an interval tree found broken. -/
inductive IntervalDefect (κ : Type) where
  /-- The tree breaks a rule that every cached tree keeps. -/
  | tree (defect : Defect)
  /-- The reach stored in `id` is not the largest stop below it. -/
  | wrongReach (id : RecordId) (stored expected : κ)
deriving DecidableEq

/-- The wording of a defect. -/
def IntervalDefect.message [ToString κ] : IntervalDefect κ → String
  | tree defect => defect.message
  | wrongReach id stored expected => s!"node {id} subtree_end {stored} expected {expected}"

namespace IntervalTree

/-- The handle of an empty tree. -/
def empty : IntervalTree := {}

/-- Whether the tree has no interval. -/
def isEmpty (t : IntervalTree) : Bool := t.cached.isEmpty

/-- The interval with the smallest start. -/
def first (t : IntervalTree) : Option RecordId := t.cached.first

/-- Gives record `id` the reach of a leaf, unless it is part of a tree. -/
def resetReach (id : RecordId) : Update ρ σ Unit := do
  let e : Entry κ ← Update.entry id
  match e.node.state with
  | .linked => pure ()
  | .detached | .removed => Update.modifyEntry id fun e : Entry κ => { e with reach := e.stop }

/-- Inserts `id`, after all intervals that start with it. -/
def insert [Listener σ] (t : IntervalTree) (id : RecordId) (limits : Limits ρ := .ample) :
    Guarded ρ σ IntervalTree := do
  Guarded.update (resetReach id)
  let cached ← t.cached.insertWith (reachSummary limits) id (.of compareStart) limits
  pure ⟨cached⟩

/-- Deletes `id`, which may then be inserted again. -/
def delete [Listener σ] (t : IntervalTree) (id : RecordId) (limits : Limits ρ := .ample) :
    Guarded ρ σ IntervalTree := do
  let cached ← t.cached.deleteWith (reachSummary limits) id limits
  pure ⟨cached⟩

/-- Takes the tree apart without mending it. Returns how many nodes it had. -/
def clear (t : IntervalTree) : Update ρ σ (IntervalTree × Nat) := do
  let (cached, released) ← t.cached.clear
  pure (⟨cached⟩, released)

/-- The first interval that overlaps `[lo, hi)`. -/
def firstOverlap (t : IntervalTree) (s : Store ρ) (lo hi : κ) :
    Except Fault (Option RecordId) :=
  if lo < hi then
    match t.cached.tree.root with
    | none => pure none
    | some root => do
      let r ← s.entry root
      if lo < r.reach then
        match t.cached.leftmost with
        | none => pure none
        | some leftmost => do
          let l ← s.entry leftmost
          if l.start < hi then s.searchOverlap root lo hi else pure none
      else pure none
  else pure none

/-- The intervals that overlap `[lo, hi)`, from the smallest start up. -/
def overlaps (t : IntervalTree) (s : Store ρ) (lo hi : κ) :
    Except Fault (OverlapCursor κ) :=
  (⟨lo, hi, ·⟩) <$> t.firstOverlap s lo hi

/-- A check of an interval tree. -/
abbrev Check (κ : Type) := ExceptT (IntervalDefect κ) (Except Fault)

/-- The larger of `stop` and the stop of a subtree, if there is one. -/
def largerStop (stop : κ) : Option κ → κ
  | none => stop
  | some below => larger stop below

/-- The largest stop under a position, after every reach there was checked against it. -/
def validateReachFrom (s : Store ρ) : Nat → Option RecordId → Check κ (Option κ)
  | _, none => pure none
  | 0, some _ => ExceptT.lift (.error .endless)
  | depth + 1, some id => do
    let e ← ExceptT.lift (s.entry id)
    let left ← validateReachFrom s depth e.node.left
    let right ← validateReachFrom s depth e.node.right
    let stop := largerStop (largerStop e.stop left) right
    if e.reach = stop then pure (some stop)
    else throw (.wrongReach id e.reach stop)

/-- The black height of the tree, if it keeps all rules and every reach is right. -/
def validate (t : IntervalTree) (s : Store ρ) : Check κ Nat := do
  let checked ← ExceptT.lift
    ((t.cached.validate s (.of compareStart)).run.run' ())
  match checked with
  | .error defect => throw (.tree defect)
  | .ok height => do
    let _ ← validateReachFrom s s.walkLimit t.cached.tree.root
    pure height

end IntervalTree

end RecordTree
