import RecordTree.Store

/-!
# `RecordTree.Update`: computations on a store

Three layers of effects are built on a store.

* `Query σ` may consult the caller, through a comparator that can read and change the
  caller's context `σ`, but leaves every record alone.
* `Update ρ σ` also changes records, one at a time and by id.
* `Guarded ρ σ` may be turned down by a guard. The store and the context as they were at
  the rejection stay in place.

A fault ends any of them, and what they did so far with it.
-/

set_option autoImplicit false

namespace RecordTree

variable {ρ σ α : Type}

/-- A computation that may consult the caller's context. -/
abbrev Query (σ : Type) := StateT σ (Except Fault)

/-- A computation that may change records. -/
abbrev Update (ρ σ : Type) := StateT (Store ρ) (Query σ)

/-- A computation that a guard may turn down. -/
abbrev Guarded (ρ σ : Type) := ExceptT Rejection (Update ρ σ)

/-- Orders two records, and may read and change the caller's context on the way. -/
abbrev Comparator (ρ σ : Type) := ρ → ρ → σ → Ordering × σ

/-- Orders a record against a sought key. -/
abbrev Probe (ρ σ : Type) := ρ → σ → Ordering × σ

/-- The comparator that only looks at the records. -/
def Comparator.of (order : ρ → ρ → Ordering) : Comparator ρ σ :=
  fun a b c => (order a b, c)

/-- The probe that only looks at the record. -/
def Probe.of (order : ρ → Ordering) : Probe ρ σ :=
  fun a c => (order a, c)

/-- The caller's answer to a question put to its context. -/
def Query.ask (question : σ → α × σ) : Query σ α :=
  fun c => .ok (question c)

/-- A reading of the records, which cannot depend on the caller. -/
def Query.read (reading : Except Fault α) : Query σ α :=
  fun c => reading.map fun a => (a, c)

namespace Update

/-- Puts a query to the records as they are now. -/
def query (q : Store ρ → Query σ α) : Update ρ σ α :=
  fun s c => (q s c).map fun (a, c) => ((a, s), c)

/-- Reads the records as they are now. -/
def read (reading : Store ρ → Except Fault α) : Update ρ σ α :=
  fun s c => (reading s).map fun a => ((a, s), c)

/-- The record `id` as it is now. -/
def record (id : RecordId) : Update ρ σ ρ := read (·.fetch id)

/-- Changes the record `id` by `f`. -/
def modifyRecord (id : RecordId) (f : ρ → ρ) : Update ρ σ Unit :=
  fun s c => (s.modifyAt id f).map fun s => (((), s), c)

/-- Adds a record to the store. Returns its id. -/
def push (r : ρ) : Update ρ σ RecordId :=
  fun s c => .ok ((s.size, s.push r), c)

/-- Changes the caller's context by `f`. -/
def tell (f : σ → σ) : Update ρ σ Unit :=
  fun s c => .ok (((), s), f c)

variable [Linked ρ]

/-- The node of record `id` as it is now. -/
def node (id : RecordId) : Update ρ σ Node := read (·.node id)

/-- Changes the node of record `id` by `f`. -/
def modifyNode (id : RecordId) (f : Node → Node) : Update ρ σ Unit :=
  modifyRecord id fun r => Linked.withNode r (f (Linked.node r))

/-- Colours the node of record `id`. -/
def paint (id : RecordId) (color : Color) : Update ρ σ Unit :=
  modifyNode id fun n => { n with color }

/-- Colours the node of record `id`, if there is one. -/
def paint? (id : Option RecordId) (color : Color) : Update ρ σ Unit :=
  match id with
  | none => pure ()
  | some id => paint id color

/-- Puts record `id`, if there is one, under `parent`. -/
def setParent (id : Option RecordId) (parent : Option RecordId) : Update ρ σ Unit :=
  match id with
  | none => pure ()
  | some id => modifyNode id fun n => { n with parent }

/-- The colour of record `id`. An empty position counts as black. -/
def colorOf (id : Option RecordId) : Update ρ σ Color :=
  match id with
  | none => pure .black
  | some id => return (← node id).color

end Update

/-- An update that no guard stands in front of. -/
def Guarded.update (u : Update ρ σ α) : Guarded ρ σ α := ExceptT.lift u

end RecordTree
