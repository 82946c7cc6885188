import RecordTree.Tree.Basic

/-!
# `RecordTree.Shape`: a tree as a value

A `Shape` is what the links of a tree spell out: a binary tree whose nodes carry an id and a
colour. `Tree.shape` reads it off the store by following child links. Questions about a tree
as a whole, such as its `height` or the list of its nodes in some order, are plain recursive
functions on its shape.

* `Shape.Balanced h`: no red node has a red child, and every path down to an empty position
  has `h` black nodes.
* `Represents s parent position shape`: the records of `s` below `position` are linked as
  `shape` says, with `parent` above them.
-/

set_option autoImplicit false

namespace RecordTree

/-- A binary tree of coloured ids. -/
inductive Shape where
  | leaf
  | node (color : Color) (left : Shape) (id : RecordId) (right : Shape)
deriving DecidableEq, Inhabited

namespace Shape

/-- The number of nodes. -/
def size : Shape → Nat
  | leaf => 0
  | node _ l _ r => l.size + 1 + r.size

/-- The number of nodes on the longest path down. -/
def height : Shape → Nat
  | leaf => 0
  | node _ l _ r => 1 + max l.height r.height

/-- The nodes from left to right. -/
def inorder : Shape → List RecordId
  | leaf => []
  | node _ l id r => l.inorder ++ id :: r.inorder

/-- The nodes, each before its children. -/
def preorder : Shape → List RecordId
  | leaf => []
  | node _ l id r => id :: (l.preorder ++ r.preorder)

/-- The nodes, each after its children. -/
def postorder : Shape → List RecordId
  | leaf => []
  | node _ l id r => l.postorder ++ (r.postorder ++ [id])

/-- From left to right a shape has as many nodes as its size says. -/
@[simp] theorem length_inorder (t : Shape) : t.inorder.length = t.size := by
  induction t with
  | leaf => rfl
  | node c l id r ihl ihr => simp [inorder, size, ihl, ihr]; omega

/-- In post-order a shape has as many nodes as its size says. -/
@[simp] theorem length_postorder (t : Shape) : t.postorder.length = t.size := by
  induction t with
  | leaf => rfl
  | node c l id r ihl ihr => simp [postorder, size, ihl, ihr]; omega

/-- The id at the top. -/
def root? : Shape → Option RecordId
  | leaf => none
  | node _ _ id _ => some id

/-- The colour at the top. An empty position counts as black. -/
def color : Shape → Color
  | leaf => .black
  | node c _ _ _ => c

/-- No red node has a red child, and each path down has `h` black nodes. -/
inductive Balanced : Nat → Shape → Prop where
  | leaf : Balanced 0 leaf
  | red {h : Nat} {l r : Shape} {id : RecordId} : Balanced h l → Balanced h r →
      l.color = .black → r.color = .black → Balanced h (node .red l id r)
  | black {h : Nat} {l r : Shape} {id : RecordId} : Balanced h l → Balanced h r →
      Balanced (h + 1) (node .black l id r)

end Shape

variable {ρ : Type} [Linked ρ]

/-- The records below `position` are linked as `shape` says, and hang under `parent`. -/
inductive Represents (s : Store ρ) : Option RecordId → Option RecordId → Shape → Prop where
  | leaf (parent : Option RecordId) : Represents s parent none .leaf
  | node {parent : Option RecordId} {id : RecordId} {n : Node} {l r : Shape} :
      s.node id = .ok n → n.parent = parent → n.state = .linked →
      Represents s (some id) n.left l → Represents s (some id) n.right r →
      Represents s parent (some id) (.node n.color l id r)

/-- Reads the shape below `position`. -/
def Store.shapeFrom (s : Store ρ) : Nat → Option RecordId → Except Fault Shape
  | _, none => pure .leaf
  | 0, some _ => .error .endless
  | depth + 1, some id => do
    let n ← s.node id
    let l ← s.shapeFrom depth n.left
    let r ← s.shapeFrom depth n.right
    pure (.node n.color l id r)

/-- The shape of the tree. -/
def Tree.shape (t : Tree) (s : Store ρ) : Except Fault Shape :=
  s.shapeFrom s.walkLimit t.root

end RecordTree
