import RecordTree.Update

/-!
# `RecordTree.Interval.Entry`: intervals as records

An `Entry κ` is a node for the half-open interval `[start, stop)` over ordered keys. Its
`reach` summarises the subtree below it: the largest `stop` there, its own included.
`Spanned ρ κ` is how the tree code reaches the interval inside a record of any type `ρ`, and
through it the record's node.

A stored interval overlaps the query `[lo, hi)` when `start < hi` and `lo < stop`.
-/

set_option autoImplicit false

namespace RecordTree

variable {ρ σ κ : Type}

/-- A node for the interval `[start, stop)`. -/
structure Entry (κ : Type) where
  node : Node := {}
  start : κ
  stop : κ
  /-- The largest `stop` among the node and all nodes below it. -/
  reach : κ
deriving DecidableEq

/-- Records of type `ρ` embed an interval with keys of type `κ`. -/
class Spanned (ρ : Type) (κ : outParam Type) where
  /-- The embedded interval. -/
  entry : ρ → Entry κ
  /-- The record with another interval in it. -/
  withEntry : ρ → Entry κ → ρ

/-- The interval of a record is a field of its own: reading and writing it are a lens. -/
class LawfulSpanned (ρ : Type) {κ : Type} [Spanned ρ κ] : Prop where
  entry_withEntry (r : ρ) (e : Entry κ) : Spanned.entry (Spanned.withEntry r e) = e
  withEntry_entry (r : ρ) : Spanned.withEntry r (Spanned.entry r) = r
  withEntry_withEntry (r : ρ) (e f : Entry κ) :
    Spanned.withEntry (Spanned.withEntry r e) f = Spanned.withEntry r f

attribute [simp] LawfulSpanned.entry_withEntry LawfulSpanned.withEntry_entry
  LawfulSpanned.withEntry_withEntry

/-- An interval is a record of its own. -/
instance : Spanned (Entry κ) κ := ⟨id, fun _ e => e⟩

instance : LawfulSpanned (Entry κ) := ⟨fun _ _ => rfl, fun _ => rfl, fun _ _ _ => rfl⟩

/-- The node of a record with an interval is the node in the interval. -/
instance [Spanned ρ κ] : Linked ρ where
  node r := (Spanned.entry r).node
  withNode r n := Spanned.withEntry r { Spanned.entry r with node := n }

instance [Spanned ρ κ] [LawfulSpanned ρ] : LawfulLinked ρ where
  node_withNode r n := by simp [Linked.node, Linked.withNode]
  withNode_node r := LawfulSpanned.withEntry_entry r
  withNode_withNode r n m := by simp [Linked.withNode]

/-- The interval `[start, stop)` of a record that is in no tree. -/
def Entry.of (start stop : κ) : Entry κ := { start, stop, reach := stop }

/-- The interval of record `id`. -/
def Store.entry [Spanned ρ κ] (s : Store ρ) (id : RecordId) : Except Fault (Entry κ) :=
  Spanned.entry <$> s.fetch id

namespace Update

variable [Spanned ρ κ]

/-- The interval of record `id` as it is now. -/
def entry (id : RecordId) : Update ρ σ (Entry κ) := read (·.entry id)

/-- Changes the interval of record `id` by `f`. -/
def modifyEntry (id : RecordId) (f : Entry κ → Entry κ) : Update ρ σ Unit :=
  modifyRecord id fun r => Spanned.withEntry r (f (Spanned.entry r))

/-- Gives record `id` the interval `[start, stop)`, unless it is part of a tree. -/
def setRange (id : RecordId) (start stop : κ) : Update ρ σ Unit := do
  let e : Entry κ ← entry id
  match e.node.state with
  | .linked => throw .rangeInUse
  | .detached | .removed => modifyEntry id fun e => { e with start, stop, reach := stop }

end Update

section Order

variable [LT κ] [DecidableLT κ]

/-- Whether `[start, stop)` overlaps `[lo, hi)`. -/
def overlaps (start stop lo hi : κ) : Bool := start < hi && lo < stop

/-- Whether the interval overlaps `[lo, hi)`. -/
def Entry.overlaps (e : Entry κ) (lo hi : κ) : Bool :=
  RecordTree.overlaps e.start e.stop lo hi

/-- The larger of two keys. -/
def larger (a b : κ) : κ := if a < b then b else a

/-- Orders two records by the start of their intervals. -/
def compareStart [DecidableEq κ] [Spanned ρ κ] (a b : ρ) : Ordering :=
  compareOfLessAndEq (Spanned.entry a).start (Spanned.entry b).start

end Order

end RecordTree
