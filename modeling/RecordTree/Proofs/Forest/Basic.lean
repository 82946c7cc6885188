import Mathlib.Logic.Function.Basic
import RecordTree.Tree.Erase
import RecordTree.Tree.Insert
import RecordTree.Tree.Replace

/-!
# `RecordTree.Proofs.Forest.Basic`: any number of handles over one store

A `Forest` is a store of records, the handles of the trees that live in it, and the caller's
context. A `Call` is what a caller can do through one of the handles, and `Forest.call` does it.

`Forest.Permits` is what a caller has to see to: it names records of the store, it links at
positions that are vacant, and it deletes and replaces through the handle that holds the node.
A call that the guards turn down is permitted as well; those that they let pass are the ones
that `Forest.Admits` lists. `Forest.Reachable` collects the states
that permitted calls lead to, from records with new nodes and empty handles. In between the
caller may change whatever the nodes do not hold, and add records.
-/

set_option autoImplicit false

namespace RecordTree

variable {ι ρ σ : Type} [Linked ρ]

/-- The records below `position`, along child links. -/
inductive Store.Reaches (s : Store ρ) : Option RecordId → RecordId → Prop where
  | here {id : RecordId} {n : Node} : s.node id = .ok n → Reaches s (some id) id
  | child {id j : RecordId} {n : Node} (side : Side) :
      s.node id = .ok n → Reaches s (n.child side) j → Reaches s (some id) j

/-- What a caller can do through the handle of a tree. -/
inductive Call (ρ σ : Type) where
  | insert (id : RecordId) (compare : Comparator ρ σ)
  | link (slot : Slot) (id : RecordId)
  | delete (id : RecordId)
  | replace (old new : RecordId)
  | clear

/-- Makes the call through the handle `t`. -/
def Call.run [Listener σ] (t : Tree) : Call ρ σ → Guarded ρ σ Tree
  | insert id compare => t.insert id compare
  | link slot id => t.link slot id
  | delete id => t.delete id
  | replace old new => t.replace old new
  | clear => do
    let (t, _) ← Guarded.update t.clear
    pure t

/-- The handles of any number of trees, the store of their records, and the caller's context. -/
structure Forest (ι ρ σ : Type) where
  store : Store ρ
  trees : ι → Tree
  context : σ

namespace Forest

/-- The tree at `i` has the node `id`. -/
def Holds (f : Forest ι ρ σ) (i : ι) (id : RecordId) : Prop :=
  f.store.Reaches (f.trees i).root id

/-- The slot is an empty position of the tree at `i`. -/
def Vacant (f : Forest ι ρ σ) (i : ι) (slot : Slot) : Prop :=
  match slot.parent with
  | none => (f.trees i).root = none
  | some parent => f.Holds i parent ∧
      ∃ n, f.store.node parent = .ok n ∧ n.child slot.side = none

/-- No tree has the node `id`. -/
def Free (f : Forest ι ρ σ) (id : RecordId) : Prop := ∀ i, ¬ f.Holds i id

/-- The calls that do what they say: they take out a node that the tree at `i` has, or put in one
that is in no tree, at a position that is empty. -/
def Admits (f : Forest ι ρ σ) (i : ι) : Call ρ σ → Prop
  | .insert id _ => id < f.store.size ∧ f.Free id
  | .link slot id => id < f.store.size ∧ f.Vacant i slot ∧ f.Free id
  | .delete id => f.Holds i id
  | .replace old new => f.Holds i old ∧ new < f.store.size ∧ f.Free new
  | .clear => True

variable [DecidableEq ι] [Listener σ]

/-- Makes a call through the handle at `i`. Returns what turned it down, if a guard did. -/
def call (f : Forest ι ρ σ) (i : ι) (c : Call ρ σ) :
    Except Fault (Option Rejection × Forest ι ρ σ) := do
  let ((outcome, store), context) ← (c.run (f.trees i)).run f.store f.context
  match outcome with
  | .ok tree => pure (none, ⟨store, Function.update f.trees i tree, context⟩)
  | .error r => pure (some r, ⟨store, f.trees, context⟩)

/-- The guards turn the call down. -/
def Rejects (f : Forest ι ρ σ) (i : ι) (c : Call ρ σ) : Prop :=
  ∃ r f', f.call i c = .ok (some r, f')

/-- The calls that a caller may make through the handle at `i`. -/
def Permits (f : Forest ι ρ σ) (i : ι) : Call ρ σ → Prop
  | .insert id _ => id < f.store.size
  | .link slot id => id < f.store.size ∧ f.Vacant i slot ∨ f.Rejects i (.link slot id)
  | .delete id => f.Holds i id ∨ f.Rejects i (.delete id)
  | .replace old new => f.Holds i old ∧ new < f.store.size ∨ f.Rejects i (.replace old new)
  | .clear => True

/-- The states that permitted calls lead to. -/
inductive Reachable : Forest ι ρ σ → Prop where
  /-- All records have new nodes, and no handle has a tree. -/
  | start {f : Forest ι ρ σ} :
      (∀ id n, f.store.node id = .ok n → n = {}) → (∀ i, f.trees i = .empty) → Reachable f
  | call {f f' : Forest ι ρ σ} {i : ι} {c : Call ρ σ} {outcome : Option Rejection} :
      Reachable f → f.Permits i c → f.call i c = .ok (outcome, f') → Reachable f'
  /-- The caller changes what the nodes do not hold. -/
  | edit {f : Forest ι ρ σ} {s : Store ρ} (context : σ) :
      Reachable f → s.node = f.store.node → Reachable { f with store := s, context }
  /-- The caller adds a record with a new node. -/
  | push {f : Forest ι ρ σ} {r : ρ} :
      Reachable f → Linked.node r = {} → Reachable { f with store := f.store.push r }

end Forest

end RecordTree
