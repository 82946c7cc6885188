import RecordTree.Node

/-!
# `RecordTree.Diagnosis`: what can go wrong, and its wording

Three kinds of trouble are kept apart by type.

* A `Rejection` is a guard's answer to a caller that links a node which is still linked or
  deletes one which is not. The call changes nothing and its caller gets the cause.
* A `Defect` is what a validation found broken in a tree.
* A `Fault` ends a computation: an id that the store does not have, or a walk that cannot
  end because the links form a cycle.

Each cause has one `message`. `Kind` is the heading under which a cause is reported.
-/

set_option autoImplicit false

namespace RecordTree

/-- The heading of a reported cause. -/
inductive Kind where
  /-- A tree was found broken. -/
  | fatal
  /-- A node that is still linked was to be linked. -/
  | doubleInsert
  /-- A node that is not linked was to be deleted. -/
  | doubleDelete
deriving DecidableEq

namespace Kind

/-- The heading's name in a report. -/
def name : Kind → String
  | fatal => "Fatal"
  | doubleInsert => "DoubleInsert"
  | doubleDelete => "DoubleDelete"

/-- The report of `message` under this heading. -/
def report (kind : Kind) (message : String) : String :=
  s!"{kind.name}: {message}"

/-- The report of `message` with the place where the cause was met in front. -/
def reportAt (kind : Kind) (place message : String) : String :=
  place ++ " " ++ kind.report message

end Kind

/-- An optional value as messages write it. -/
def optionText {α : Type} [ToString α] : Option α → String
  | none => "None"
  | some a => s!"Some({a})"

/-- A state as messages write it. -/
def State.text : State → String
  | detached => "Detached"
  | linked => "Linked"
  | removed => "Removed"

/-- Why a guard turned a call down. -/
inductive Rejection where
  /-- The slot under `parent` already holds the node. -/
  | slotHolds (parent : Option RecordId) (id : RecordId)
  /-- The node is part of a tree, under `parent`. -/
  | stillLinked (id : RecordId) (parent : Option RecordId)
  /-- The node to delete has already left its tree. -/
  | alreadyRemoved (id : RecordId)
  /-- The node to delete was never part of a tree. -/
  | neverInserted (id : RecordId)
deriving DecidableEq

namespace Rejection

/-- The heading a rejection is reported under. -/
def kind : Rejection → Kind
  | slotHolds .. | stillLinked .. => .doubleInsert
  | alreadyRemoved _ | neverInserted _ => .doubleDelete

/-- The wording of a rejection. -/
def message : Rejection → String
  | slotHolds parent id =>
    s!"rb_insert corruption parent:{optionText parent} slot already holds node {id}"
  | stillLinked id parent =>
    s!"rb_insert corruption node {id} is still linked under {optionText parent}"
  | alreadyRemoved id => s!"rb_delete corruption node {id} is already removed"
  | neverInserted id => s!"rb_delete corruption node {id} was never inserted"

end Rejection

/-- What a validation found broken. -/
inductive Defect where
  /-- The root is not black. -/
  | redRoot (id : RecordId)
  /-- A node of the tree is not marked as part of one. -/
  | notLinked (id : RecordId) (state : State)
  /-- A node's parent link is not the way by which it was reached. -/
  | wrongParent (id : RecordId) (stored expected : Option RecordId)
  /-- A red node has a red parent. -/
  | redUnderRed (parent : Option RecordId) (id : RecordId)
  /-- The paths below the two children of `id` differ in their blacks. -/
  | unevenBlacks (left right : Nat) (id : RecordId)
  /-- A left child orders after its parent. -/
  | leftOutOfOrder (left parent : RecordId)
  /-- A right child orders before its parent. -/
  | rightOutOfOrder (right parent : RecordId)
  /-- The cached left-most node is not the left-most one. -/
  | wrongLeftmost (cached actual : Option RecordId)
deriving DecidableEq

/-- The wording of a defect. -/
def Defect.message : Defect → String
  | redRoot id => s!"root {id} is red"
  | notLinked id state => s!"node {id} in tree is {state.text}"
  | wrongParent id stored expected =>
    s!"node {id} parent {optionText stored} expected {optionText expected}"
  | redUnderRed parent id => s!"consecutive reds {optionText parent} {id}"
  | unevenBlacks left right id => s!"unbalanced blacks {left} {right} at {id}"
  | leftOutOfOrder left parent => s!"sort left:{left} parent:{parent}"
  | rightOutOfOrder right parent => s!"sort right:{right} parent:{parent}"
  | wrongLeftmost cached actual =>
    s!"cached {optionText cached} left-most {optionText actual}"

/-- What ends a computation without a result. -/
inductive Fault where
  /-- The store has `size` records, and `id` is not one of them. -/
  | outOfRange (size : Nat) (id : RecordId)
  /-- The range of a record was to change while the record orders a tree. -/
  | rangeInUse
  /-- More steps were taken than there are records: the links form a cycle. -/
  | endless
deriving DecidableEq

/-- The wording of a fault. -/
def Fault.message : Fault → String
  | outOfRange size id => s!"index out of bounds: the len is {size} but the index is {id}"
  | rangeInUse => "set_range on a linked node"
  | endless => "the links form a cycle"

/-- What a log holds of one report. -/
structure LogEntry where
  level : String
  text : String
deriving DecidableEq

/-- The log's share of a report: one error entry if a logger listens, and nothing
otherwise. -/
def logEntries (listening : Bool) (report : String) : List LogEntry :=
  if listening then [⟨"ERROR", report⟩] else []

/-- The caller's context `σ` takes note of what the guards turn down. -/
class Listener (σ : Type) where
  /-- The context after a rejection was reported to it. -/
  hear : Rejection → σ → σ

/-- A caller without a context hears nothing. -/
instance : Listener Unit := ⟨fun _ u => u⟩

end RecordTree
