/-!
# `RecordTree.Node`: the link fields of a record

A tree of this library holds no data of its own. Each record embeds a `Node`: the ids of
its parent and children, its colour, and where it stands in its life (`State`). Ids are
indices into the store that holds the records.

`Side` names the two child positions, so that a rule and its counterpart on the other side
are one definition with the side as an argument. `Linked ρ` is how the tree code reaches the node
inside a record of any type `ρ`; `LawfulLinked ρ` says that reaching it is a lens.
-/

set_option autoImplicit false

namespace RecordTree

/-- A record's index in its store. -/
abbrev RecordId := Nat

/-- One of the two child positions of a node. -/
inductive Side where
  | left
  | right
deriving DecidableEq, Inhabited

/-- The other child position. -/
def Side.flip : Side → Side
  | left => right
  | right => left

/-- The other side of left is right. -/
@[simp] theorem Side.flip_left : Side.left.flip = .right := rfl

/-- The other side of right is left. -/
@[simp] theorem Side.flip_right : Side.right.flip = .left := rfl

/-- The other side of the other side is the side itself. -/
@[simp] theorem Side.flip_flip (side : Side) : side.flip.flip = side := by
  cases side <;> rfl

/-- The colour of a node. A new node is red. -/
inductive Color where
  | red
  | black
deriving DecidableEq, Inhabited

/-- Where a node stands in its life. -/
inductive State where
  /-- Made by its owner, never put into a tree. -/
  | detached
  /-- Part of a tree. -/
  | linked
  /-- Taken out of a tree, and free to be put into one again. -/
  | removed
deriving DecidableEq, Inhabited

/-- An empty child position, where a node can be linked. Without a parent it is the root
position of an empty tree. -/
structure Slot where
  parent : Option RecordId
  side : Side
deriving DecidableEq

/-- The root position of an empty tree. -/
def Slot.root : Slot := ⟨none, .left⟩

/-- The link fields of a record. -/
structure Node where
  parent : Option RecordId := none
  left : Option RecordId := none
  right : Option RecordId := none
  color : Color := .red
  state : State := .detached
deriving DecidableEq, Inhabited

namespace Node

/-- The child at `side`. -/
def child (n : Node) : Side → Option RecordId
  | .left => n.left
  | .right => n.right

/-- Puts `child` at `side`. -/
def setChild (n : Node) (side : Side) (child : Option RecordId) : Node :=
  match side with
  | .left => { n with left := child }
  | .right => { n with right := child }

/-- The side at which `n` holds `child`, right unless it is the left child. -/
def sideOf (n : Node) (child : Option RecordId) : Side :=
  if n.left = child then .left else .right

/-- Puts `new` in the child position that holds `old`, the right one unless `old` is the
left child. -/
def swapChild (n : Node) (old : RecordId) (new : Option RecordId) : Node :=
  n.setChild (n.sideOf (some old)) new

/-- A node that has left its tree: no links, red, `State.removed`. -/
def removed : Node := { state := .removed }

/-- The node of a red leaf at `slot`. -/
def leafAt (slot : Slot) : Node := { parent := slot.parent, state := .linked }

/-- A change of a child link leaves the state alone. -/
@[simp] theorem state_setChild (n : Node) (side : Side) (c : Option RecordId) :
    (n.setChild side c).state = n.state := by
  cases side <;> rfl

end Node

/-- Records of type `ρ` embed a `Node`. -/
class Linked (ρ : Type) where
  /-- The embedded node. -/
  node : ρ → Node
  /-- The record with another node in it. -/
  withNode : ρ → Node → ρ

/-- The node of a record is a field of its own: reading and writing it are a lens. -/
class LawfulLinked (ρ : Type) [Linked ρ] : Prop where
  node_withNode (r : ρ) (n : Node) : Linked.node (Linked.withNode r n) = n
  withNode_node (r : ρ) : Linked.withNode r (Linked.node r) = r
  withNode_withNode (r : ρ) (n m : Node) :
    Linked.withNode (Linked.withNode r n) m = Linked.withNode r m

attribute [simp] LawfulLinked.node_withNode LawfulLinked.withNode_node
  LawfulLinked.withNode_withNode

/-- A node is a record of its own. -/
instance : Linked Node := ⟨id, fun _ n => n⟩

instance : LawfulLinked Node := ⟨fun _ _ => rfl, fun _ => rfl, fun _ _ _ => rfl⟩

end RecordTree
