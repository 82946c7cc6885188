import RecordTree.Tree.Erase
import RecordTree.Tree.Insert
import RecordTree.Tree.Replace
import RecordTree.Tree.Validate

/-!
# `RecordTree.CachedTree`: a handle that knows its smallest node

A `CachedTree` is a `Tree` together with the id of its left-most node. The cache never costs
a search: an insertion learns on its descent whether the new node is the smallest one, and a
deletion of the smallest node moves the cache to its successor.
-/

set_option autoImplicit false

namespace RecordTree

variable {ρ σ : Type} [Linked ρ]

/-- A tree's handle with its left-most node at hand. -/
structure CachedTree where
  tree : Tree := .empty
  leftmost : Option RecordId := none
deriving DecidableEq, Inhabited

namespace CachedTree

/-- The handle of an empty tree. -/
def empty : CachedTree := {}

/-- Whether the tree has no node. -/
def isEmpty (t : CachedTree) : Bool := t.tree.isEmpty

/-- The smallest node. -/
def first (t : CachedTree) : Option RecordId := t.leftmost

/-- The largest node. -/
def last (t : CachedTree) (s : Store ρ) : Except Fault (Option RecordId) := t.tree.last s

/-- A node on which `probe` answers equal. -/
def find (t : CachedTree) (s : Store ρ) (probe : Probe ρ σ) : Query σ (Option RecordId) :=
  t.tree.find s probe

/-- The position where record `id` belongs by `compare`. -/
def findSlot (t : CachedTree) (s : Store ρ) (id : RecordId) (compare : Comparator ρ σ)
    (limits : Limits ρ := .ample) : Query σ Vacancy :=
  t.tree.descend s id compare limits

/-- The ascending walk from the cached node, which is the empty walk without one. -/
def ascending (t : CachedTree) : Cursor := ⟨.ascending, t.leftmost⟩

/-- The walk over all nodes in `order`. An ascending one starts at the cached node. -/
def cursor (t : CachedTree) (s : Store ρ) (order : Order) : Except Fault Cursor :=
  match order, t.leftmost with
  | .ascending, some id => pure (.fromNode id order)
  | _, _ => t.tree.cursor s order

/-- The black height of the tree, if it keeps all rules and its cache is right. -/
def validate (t : CachedTree) (s : Store ρ) (compare : Comparator ρ σ) : Check σ Nat := do
  let height ← t.tree.validate s compare
  let leftmost ← Check.query (Query.read (t.tree.first s))
  Check.refuse (leftmost ≠ t.leftmost) (.wrongLeftmost t.leftmost leftmost)
  pure height

/-- Takes the tree apart without mending it. Returns how many nodes it had. -/
def clear (t : CachedTree) : Update ρ σ (CachedTree × Nat) := do
  let (tree, released) ← t.tree.clear
  pure (⟨tree, none⟩, released)

variable [Listener σ]

/-- Links `id` at `vacancy` and keeps the summaries of `aug`. -/
def linkWith (aug : Augmentation ρ σ) (t : CachedTree) (vacancy : Vacancy) (id : RecordId)
    (limits : Limits ρ := .ample) : Guarded ρ σ CachedTree := do
  let tree ← t.tree.linkWith aug vacancy.slot id limits
  pure ⟨tree, if vacancy.leftmost then some id else t.leftmost⟩

/-- Links `id` at `vacancy`, usually one that `findSlot` gave. -/
def link (t : CachedTree) (vacancy : Vacancy) (id : RecordId) : Guarded ρ σ CachedTree :=
  t.linkWith .none vacancy id

/-- Inserts `id` by `compare` and keeps the summaries of `aug`. -/
def insertWith (aug : Augmentation ρ σ) (t : CachedTree) (id : RecordId)
    (compare : Comparator ρ σ) (limits : Limits ρ := .ample) : Guarded ρ σ CachedTree := do
  let vacancy ← Guarded.update (Update.query (t.findSlot · id compare limits))
  t.linkWith aug vacancy id limits

/-- Inserts `id` by `compare`, after all nodes that compare equal to it. -/
def insert (t : CachedTree) (id : RecordId) (compare : Comparator ρ σ) :
    Guarded ρ σ CachedTree :=
  t.insertWith .none id compare

/-- Deletes `id` and keeps the summaries of `aug`. -/
def deleteWith (aug : Augmentation ρ σ) (t : CachedTree) (id : RecordId)
    (limits : Limits ρ := .ample) : Guarded ρ σ CachedTree :=
  if t.leftmost = some id then do
    let next ← Guarded.update (Update.read (·.next id limits))
    let tree ← t.tree.deleteWith aug id limits
    pure ⟨tree, next⟩
  else do
    let tree ← t.tree.deleteWith aug id limits
    pure ⟨tree, t.leftmost⟩

/-- Deletes `id`, which may then be inserted again. -/
def delete (t : CachedTree) (id : RecordId) : Guarded ρ σ CachedTree := t.deleteWith .none id

/-- Puts `new`, which is not linked, in the place of the linked `old`. -/
def replace (t : CachedTree) (old new : RecordId) : Guarded ρ σ CachedTree := do
  let tree ← t.tree.replace old new
  pure ⟨tree, if t.leftmost = some old then some new else t.leftmost⟩

end CachedTree

end RecordTree
