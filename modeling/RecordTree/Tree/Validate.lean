import RecordTree.Tree.Basic

/-!
# `RecordTree.Tree.Validate`: checking a tree against its rules

`Tree.validate` follows the child links from the root and checks

* the root is black and has no parent,
* each node is linked, and its parent link agrees with the child link that led to it,
* no red node has a red child,
* both children of a node have the same number of blacks on every path below,
* a child is ordered against its parent as its side demands.

The answer is the black height of the tree, or the first `Defect` met. The recursion cannot
go deeper than there are records, because a node that is met again on one path has another
parent expected of it.
-/

set_option autoImplicit false

namespace RecordTree

variable {ρ σ α : Type} [Linked ρ]

/-- A check that may consult the caller's context and may find a defect. -/
abbrev Check (σ : Type) := ExceptT Defect (Query σ)

namespace Check

/-- A query as a part of a check. -/
def query (q : Query σ α) : Check σ α := ExceptT.lift q

/-- Finds `defect` where `bad` holds. -/
def refuse (bad : Prop) [Decidable bad] (defect : Defect) : Check σ Unit :=
  if bad then throw defect else pure ()

end Check

namespace Tree

/-- Checks that `child`, if there is one, does not order against `parent` as `wrong`. -/
def validateSide (s : Store ρ) (compare : Comparator ρ σ) (wrong : Ordering)
    (defect : RecordId → RecordId → Defect) (child : Option RecordId) (parent : RecordId) :
    Check σ Unit :=
  match child with
  | none => pure ()
  | some child => do
    let below ← Check.query (Query.read (s.fetch child))
    let above ← Check.query (Query.read (s.fetch parent))
    let answer ← Check.query (Query.ask (compare below above))
    Check.refuse (answer = wrong) (defect child parent)

/-- The black height under a position that is expected to hang under `parent`. -/
def validateFrom (s : Store ρ) (compare : Comparator ρ σ) :
    Nat → Option RecordId → Option RecordId → Check σ Nat
  | _, none, _ => pure 0
  | 0, some _, _ => Check.query (throw .endless)
  | depth + 1, some id, parent => do
    let n ← Check.query (Query.read (s.node id))
    Check.refuse (n.state ≠ .linked) (.notLinked id n.state)
    Check.refuse (n.parent ≠ parent) (.wrongParent id n.parent parent)
    match n.color, parent with
    | .red, some above => do
      let p ← Check.query (Query.read (s.node above))
      Check.refuse (p.color = .red) (.redUnderRed parent id)
    | _, _ => pure ()
    let left ← validateFrom s compare depth n.left (some id)
    let right ← validateFrom s compare depth n.right (some id)
    Check.refuse (left ≠ right) (.unevenBlacks left right id)
    validateSide s compare .gt .leftOutOfOrder n.left id
    validateSide s compare .lt .rightOutOfOrder n.right id
    match n.color with
    | .red => pure left
    | .black => pure (left + 1)

/-- The black height of the tree, if it keeps all rules. -/
def validate (t : Tree) (s : Store ρ) (compare : Comparator ρ σ) : Check σ Nat := do
  match t.root with
  | none => pure ()
  | some root => do
    let n ← Check.query (Query.read (s.node root))
    Check.refuse (n.color = .red) (.redRoot root)
  validateFrom s compare s.walkLimit t.root none

end Tree

end RecordTree
