import RecordTree.Proofs.Cached.Run
import RecordTree.Proofs.Interval.Twin

/-!
# `RecordTree.Proofs.Grove.Basic`: handles of all kinds over one store

A `Grove` is a store of records, handles of trees that live in it, and the caller's context. Each
handle is of the `Variety` that its place has: a plain tree, a cached one, or one of intervals.
`Grove.call` makes a call through one of the handles. `Grove.Permits` is what a caller has to see
to, and `Grove.Reachable` collects the states that permitted calls lead to.

Each handle has a plain tree in it (`Grove.forest`), and each call has a plain one in it as well
(`Variety.toPlain`). What a call names (`Call.args`), and whether it suits the state
(`Forest.Suits`), is said of these.

Records with a node and no interval are covered too, as ones with an interval over keys of which
there is but one (`Spanned.ofLinked`).
-/

set_option autoImplicit false

namespace RecordTree

variable {ι ρ σ κ : Type}

/-- A record with a node has an interval over keys that do not tell it from any other one. -/
abbrev Spanned.ofLinked [Linked ρ] : Spanned ρ Unit where
  entry r := ⟨Linked.node r, (), (), ()⟩
  withEntry r e := Linked.withNode r e.node

/-- Intervals over keys of which there is but one are lawful. -/
theorem LawfulSpanned.ofLinked [Linked ρ] [LawfulLinked ρ] :
    @LawfulSpanned ρ Unit Spanned.ofLinked :=
  @LawfulSpanned.mk ρ Unit Spanned.ofLinked (fun r e =>
      congrArg (Entry.mk · () () ()) (LawfulLinked.node_withNode r e.node))
    (fun r => LawfulLinked.withNode_node r) fun r _ _ => LawfulLinked.withNode_withNode r _ _

/-! ### Calls on plain trees -/

section Plain

variable [Linked ρ]

/-- The records that the call is to put in, take out, or exchange. -/
def Call.args : Call ρ σ → List RecordId
  | insert id _ | link _ id | delete id => [id]
  | replace old new => [old, new]
  | clear => []

/-- The call names records of the store and links at vacant slots, and what it takes out is of its
own tree, unless a guard turns it down. -/
def Forest.Suits (f : Forest ι ρ σ) (i : ι) : Call ρ σ → Prop
  | .insert id _ => id < f.store.size
  | .link slot id => id < f.store.size ∧ f.Vacant i slot
  | .delete id => id < f.store.size ∧ (f.store.isLinked id → f.Holds i id)
  | .replace old new => old < f.store.size ∧ new < f.store.size ∧
      (f.store.isLinked old → f.store.isLinked new ∨ f.Holds i old)
  | .clear => True

/-- The call makes no callbacks. -/
def CachedCall.Bare : CachedCall ρ σ → Prop
  | insert aug _ _ | link aug _ _ | delete aug _ => aug = .none
  | replace _ _ | clear => True

/-- The call on the tree in a cached tree. -/
def CachedCall.plain : CachedCall ρ σ → Call ρ σ
  | insert _ id compare => .insert id compare
  | link _ vacancy id => .link vacancy.slot id
  | delete _ id => .delete id
  | replace old new => .replace old new
  | clear => .clear

end Plain

/-! ### Calls on trees of all kinds -/

/-- The kinds of trees. -/
inductive Variety where
  | plain
  | cached
  | interval
deriving DecidableEq

namespace Variety

/-- The handle of a tree of the kind. -/
def Handle : Variety → Type
  | plain => Tree
  | cached => CachedTree
  | interval => IntervalTree

/-- What a caller can do through such a handle. -/
def Call (ρ σ : Type) : Variety → Type
  | plain => RecordTree.Call ρ σ
  | cached => CachedCall ρ σ
  | interval => IntervalCall

/-- The handle of an empty tree. -/
def empty : (v : Variety) → v.Handle
  | plain => Tree.empty
  | cached => CachedTree.empty
  | interval => IntervalTree.empty

/-- The plain tree in the handle. -/
def tree : (v : Variety) → v.Handle → Tree
  | plain, t => t
  | cached, t => t.tree
  | interval, t => t.plain

/-- The call makes no callbacks but for reaches. -/
def Bare [Linked ρ] : (v : Variety) → v.Call ρ σ → Prop
  | cached, c => c.Bare
  | plain, _ | interval, _ => True

section Run

variable [Spanned ρ κ] [LT κ] [DecidableLT κ] [DecidableEq κ]

/-- The call on the plain tree in the handle. -/
def toPlain : (v : Variety) → v.Call ρ σ → RecordTree.Call ρ σ
  | plain, c => c
  | cached, c => CachedCall.plain c
  | interval, c => IntervalCall.plain c

/-- Makes the call through the handle. Clearing answers how many nodes the tree had. -/
def run [Listener σ] :
    (v : Variety) → v.Handle → v.Call ρ σ → Guarded ρ σ (v.Handle × Option Nat)
  | plain, t, .clear => do
    let (t, released) ← Guarded.update (Tree.clear t)
    pure (t, some released)
  | plain, t, c => do pure (← RecordTree.Call.run t c, none)
  | cached, t, .clear => do
    let (t, released) ← Guarded.update (CachedTree.clear t)
    pure (t, some released)
  | cached, t, c => do pure (← CachedCall.run t c, none)
  | interval, t, .clear => do
    let (t, released) ← Guarded.update (IntervalTree.clear t)
    pure (t, some released)
  | interval, t, c => do pure (← IntervalCall.run t c, none)

end Run

end Variety

/-! ### States -/

/-- Handles of trees of all kinds, the store of their records, and the caller's context. -/
structure Grove (kind : ι → Variety) (ρ σ : Type) where
  store : Store ρ
  handles : (i : ι) → (kind i).Handle
  context : σ

namespace Grove

variable {kind : ι → Variety}

/-- The plain trees in the handles. -/
def forest (f : Grove kind ρ σ) : Forest ι ρ σ :=
  ⟨f.store, fun i => (kind i).tree (f.handles i), f.context⟩

variable [Spanned ρ κ]

/-- The tree at `i` has the node `id`. -/
def Holds (f : Grove kind ρ σ) (i : ι) (id : RecordId) : Prop := f.forest.Holds i id

variable [LT κ] [DecidableLT κ] [DecidableEq κ]

/-- The calls that a caller may make through the handle at `i`. -/
def Permits (f : Grove kind ρ σ) (i : ι) (c : (kind i).Call ρ σ) : Prop :=
  (kind i).Bare c ∧ f.forest.Suits i ((kind i).toPlain c)

variable [DecidableEq ι] [Listener σ]

/-- Makes a call through the handle at `i`. Returns what turned it down, if a guard did, or what
it answers. -/
def call (f : Grove kind ρ σ) (i : ι) (c : (kind i).Call ρ σ) :
    Except Fault (Except Rejection (Option Nat) × Grove kind ρ σ) := do
  let ((outcome, store), context) ← ((kind i).run (f.handles i) c).run f.store f.context
  match outcome with
  | .ok (handle, answer) =>
    pure (.ok answer, ⟨store, Function.update f.handles i handle, context⟩)
  | .error r => pure (.error r, ⟨store, f.handles, context⟩)

/-- The states that permitted calls lead to. -/
inductive Reachable : Grove kind ρ σ → Prop where
  /-- All records have new nodes, and no handle has a tree. -/
  | start {f : Grove kind ρ σ} : (∀ id n, f.store.node id = .ok n → n = {}) →
      (∀ i, f.handles i = (kind i).empty) → Reachable f
  | call {f f' : Grove kind ρ σ} {i : ι} {c : (kind i).Call ρ σ}
      {outcome : Except Rejection (Option Nat)} :
      Reachable f → f.Permits i c → f.call i c = .ok (outcome, f') → Reachable f'
  /-- The caller changes what the nodes do not hold, and what the intervals of interval trees do
  not hold either. -/
  | edit {f : Grove kind ρ σ} {s : Store ρ} (context : σ) : Reachable f →
      s.node = f.store.node →
      (∀ i id, kind i = .interval → f.Holds i id → s.entry id = f.store.entry id) →
      Reachable { f with store := s, context }
  /-- The caller adds a record with a new node. -/
  | push {f : Grove kind ρ σ} {r : ρ} : Reachable f → Linked.node r = {} →
      Reachable { f with store := f.store.push r }

end Grove

end RecordTree
