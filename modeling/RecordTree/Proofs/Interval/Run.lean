import RecordTree.Proofs.Forest.Invariant
import RecordTree.Proofs.Interval.Tree
import RecordTree.Proofs.Walk.Cursor

/-!
# `RecordTree.Proofs.Interval.Run`: runs on an interval tree

`Intervals` is a store of records, the handle of an interval tree over some of them, and the
caller's context. `Intervals.Reachable` collects the states that calls through the handle lead to
from an empty tree over records that are not linked. In between the caller may give other
intervals to records that are not linked, and change whatever the tree does not hold, as long
as no other record becomes linked.

* `Intervals.Keeps.returns_call`: the step. A permitted call returns, and either a guard turned it
  down and nothing changed, or the tree's list of nodes went where the call takes it.
* `Intervals.exact_of_reachable`: the run. In every reachable state the reaches are exact and the
  starts ascend.
-/

set_option autoImplicit false

namespace RecordTree

variable {ρ σ κ : Type} [Spanned ρ κ]

/-- What a caller can do through the handle of an interval tree. -/
inductive IntervalCall where
  | insert (id : RecordId)
  | delete (id : RecordId)
  | clear
deriving DecidableEq

/-- Makes the call through the handle `t`. -/
def IntervalCall.run [LT κ] [DecidableLT κ] [DecidableEq κ] [Listener σ] (t : IntervalTree) :
    IntervalCall → Guarded ρ σ IntervalTree
  | insert id => t.insert id
  | delete id => t.delete id
  | clear => do
    let (t, _) ← Guarded.update t.clear
    pure t

/-- Where a call that no guard turns down takes the nodes of the tree, from left to right. -/
def IntervalCall.Takes [LT κ] [DecidableLT κ] [DecidableEq κ] (s : Store ρ) :
    IntervalCall → List RecordId → List RecordId → Prop
  | insert id, old, new => ∃ l r, old = l ++ r ∧ new = l ++ id :: r ∧
      (∀ j ∈ l, ¬ s.OrdersBefore compareStart id j) ∧ ∀ j ∈ r, s.OrdersBefore compareStart id j
  | delete id, old, new => ∃ l r, old = l ++ id :: r ∧ new = l ++ r
  | clear, _, new => new = []

/-- The handle of an interval tree, the store of its records, and the caller's context. -/
structure Intervals (ρ σ : Type) where
  store : Store ρ
  tree : IntervalTree
  context : σ

/-- What another interval for a record comes to, where the guard lets it through. -/
theorem Update.eq_of_setRange {s s' : Store ρ} {id : RecordId} {start stop : κ} {x x' : σ}
    (hrun : (Update.setRange id start stop).run s x = .ok (((), s'), x')) :
    ∃ e, s.entry id = .ok e ∧ e.node.state ≠ .linked ∧
      s' = s.modifyEntry id (fun e => { e with start, stop, reach := stop }) ∧ x' = x := by
  have hreturns : (Update.setRange id start stop : Update ρ σ Unit).Returns s x
      fun _ t y => t = s' ∧ y = x' := ⟨(), s', x', hrun, rfl, rfl⟩
  simp only [Update.setRange, Update.returns_bind, Update.returns_entry] at hreturns
  obtain ⟨e, he, hrest⟩ := hreturns
  refine ⟨e, he, ?_⟩
  cases hstate : e.node.state with
  | linked =>
    -- The range of a linked interval is not set.
    rw [hstate] at hrest
    obtain ⟨_, _, _, hthrow, -⟩ := hrest
    cases hthrow
  | detached =>
    rw [hstate] at hrest
    obtain ⟨-, hs, hx⟩ := Update.returns_modifyEntry.mp hrest
    exact ⟨by decide, hs.symm, hx.symm⟩
  | removed =>
    rw [hstate] at hrest
    obtain ⟨-, hs, hx⟩ := Update.returns_modifyEntry.mp hrest
    exact ⟨by decide, hs.symm, hx.symm⟩

/-- The reach of the record is the largest stop in the subtree below it. -/
def Store.ReachExact [LE κ] (s : Store ρ) (id : RecordId) : Prop :=
  ∃ e, s.entry id = .ok e ∧
    (∃ j d, s.Reaches (some id) j ∧ s.entry j = .ok d ∧ d.stop = e.reach) ∧
    ∀ j d, s.Reaches (some id) j → s.entry j = .ok d → d.stop ≤ e.reach

section ReachExact

variable [LawfulSpanned ρ] [LinearOrder κ] {s : Store ρ} {up : Option RecordId} {c : Color}
  {l r t : Shape} {id : RecordId}

/-- In a tree, the reach of a node is the largest stop below it exactly if it is that of the
shape. -/
theorem Spells.reachExact_iff (h : Spells s up (.node c l id r)) :
    s.ReachExact id ↔ Payloads.reachAt s.payload id =
      (Shape.node c l id r).farthest (Payloads.stopAt s.payload) := by
  obtain ⟨e, he, -⟩ := Store.exists_entry (spells_node.mp h).1
  have hreaches : ∀ j, s.Reaches (some id) j ↔ j ∈ (Shape.node c l id r).inorder :=
    fun j => h.reaches_iff j
  rw [(Store.payload_of_entry he).2.2]
  constructor
  · rintro ⟨e', he', ⟨j, d, hj, hd, hstop⟩, hle⟩
    rw [he] at he'
    cases he'
    -- The reach is one of the stops, and none of them is larger.
    refine le_antisymm ?_ (Shape.farthest_le.mpr fun k hk => ?_)
    · rw [← hstop, ← (Store.payload_of_entry hd).2.1]
      exact Shape.farthest_le.mp le_rfl j ((hreaches j).mp hj)
    · obtain ⟨n, hn, -⟩ := h.exists_linked hk
      obtain ⟨d', hd', -⟩ := Store.exists_entry hn
      rw [(Store.payload_of_entry hd').2.1]
      exact WithBot.coe_le_coe.mpr (hle k d' ((hreaches k).mpr hk) hd')
  · intro htop
    refine ⟨e, he, ?_, fun j d hj hd => ?_⟩
    · -- The largest stop is that of some node.
      have hne : Shape.node c l id r ≠ .leaf := by simp
      obtain ⟨j, hj, hstop⟩ := Shape.exists_stop_eq (Payloads.stopAt s.payload) hne
      obtain ⟨n, hn, -⟩ := h.exists_linked hj
      obtain ⟨d, hd, -⟩ := Store.exists_entry hn
      rw [← htop, (Store.payload_of_entry hd).2.1, WithBot.coe_inj] at hstop
      exact ⟨j, d, (hreaches j).mpr hj, hd, hstop⟩
    · have hle := Shape.farthest_le.mp htop.ge j ((hreaches j).mp hj)
      rwa [(Store.payload_of_entry hd).2.1, WithBot.coe_le_coe] at hle

/-- The reaches in a tree are exact if each of its records has an exact one. -/
theorem Spells.exact_iff (h : Spells s up t) :
    Exact s.payload t ↔ ∀ j ∈ t.inorder, s.ReachExact j := by
  induction t generalizing up with
  | leaf => simp [Shape.inorder]
  | node c l id r ihl ihr =>
    obtain ⟨-, hl, hr⟩ := spells_node.mp h
    rw [Exact, ← h.reachExact_iff, ihl hl, ihr hr]
    simp only [Shape.inorder, List.mem_append, List.mem_cons]
    constructor
    · rintro ⟨hid, hl, hr⟩ j (hj | rfl | hj)
      · exact hl j hj
      · exact hid
      · exact hr j hj
    · intro hall
      exact ⟨hall id (.inr (.inl rfl)), fun j hj => hall j (.inl hj),
        fun j hj => hall j (.inr (.inr hj))⟩

end ReachExact

namespace Intervals

/-- The tree has the node `id`. -/
def Holds (f : Intervals ρ σ) (id : RecordId) : Prop :=
  f.store.Reaches f.tree.cached.tree.root id

/-- The nodes of the ascending walk. -/
def walk (f : Intervals ρ σ) : Except Fault (List RecordId) :=
  f.tree.cached.ascending.toList f.store

section Calls

variable [LT κ] [DecidableLT κ] [DecidableEq κ] [Listener σ]

/-- Makes a call. Returns what turned it down, if a guard did. -/
def call (f : Intervals ρ σ) (c : IntervalCall) :
    Except Fault (Option Rejection × Intervals ρ σ) := do
  let ((outcome, store), context) ← (c.run f.tree).run f.store f.context
  match outcome with
  | .ok tree => pure (none, ⟨store, tree, context⟩)
  | .error r => pure (some r, ⟨store, f.tree, context⟩)

/-- The calls that a caller may make: it names records of the store, and deletes nodes that the
tree has, or that the guard turns down. -/
def Permits (f : Intervals ρ σ) : IntervalCall → Prop
  | .insert id => id < f.store.size
  | .delete id => f.Holds id ∨ ∃ r f', f.call (.delete id) = .ok (some r, f')
  | .clear => True

/-- The calls that do what they say. -/
def Admits (f : Intervals ρ σ) : IntervalCall → Prop
  | .insert id => ∃ n, f.store.node id = .ok n ∧ n.state ≠ .linked
  | .delete id => f.Holds id
  | .clear => True

/-- The states that permitted calls lead to. -/
inductive Reachable : Intervals ρ σ → Prop where
  | start {f : Intervals ρ σ} : f.tree = .empty →
      (∀ id n, f.store.node id = .ok n → n.state ≠ .linked) → Reachable f
  | call {f f' : Intervals ρ σ} {c : IntervalCall} {outcome : Option Rejection} :
      Reachable f → f.Permits c → f.call c = .ok (outcome, f') → Reachable f'
  /-- The caller gives a record that is not linked another interval. -/
  | setRange {f : Intervals ρ σ} {id : RecordId} {start stop : κ} {s : Store ρ} {x : σ} :
      Reachable f → (Update.setRange id start stop).run f.store f.context = .ok (((), s), x) →
      Reachable { f with store := s, context := x }
  /-- The caller changes what the tree does not hold. -/
  | edit {f : Intervals ρ σ} {s : Store ρ} (context : σ) :
      Reachable f → (∀ id, f.Holds id → s.entry id = f.store.entry id) →
      (∀ id n, s.node id = .ok n → n.state = .linked → f.Holds id) →
      Reachable { f with store := s, context }

end Calls

/-! ### The step -/

variable [LinearOrder κ] {f f' : Intervals ρ σ} {shape : Shape}

/-- The invariant of a run: the handle keeps the tree, and only its nodes are linked. -/
structure Keeps (f : Intervals ρ σ) (shape : Shape) : Prop extends
    f.tree.Keeps f.store shape where
  mem_of_linked : ∀ id n, f.store.node id = .ok n → n.state = .linked → id ∈ shape.inorder

/-- The tree has exactly the nodes of its shape. -/
theorem Keeps.holds_iff (h : f.Keeps shape) {id : RecordId} : f.Holds id ↔ id ∈ shape.inorder :=
  h.cached.keeps.represents.reaches_iff id

/-- The walk starts at the cached node, which is the first one. -/
theorem Keeps.walk_eq (h : f.Keeps shape) : f.walk = .ok shape.inorder := by
  have hkeeps := h.cached.keeps
  rw [walk, CachedTree.ascending, h.cached.leftmost_eq]
  exact Cursor.toList_eq hkeeps.visits_ascending hkeeps.length_le

section Step

variable [Listener σ] {c : IntervalCall} {id : RecordId}

/-- What is made of the outcome of a call. -/
theorem call_of_returns {Q : IntervalTree → Store ρ → σ → Prop} {R : Rejection → Store ρ → σ → Prop}
    (h : (c.run f.tree).Returns f.store f.context Q R) :
    (∃ t s x, f.call c = .ok (none, ⟨s, t, x⟩) ∧ Q t s x) ∨
      ∃ r s x, f.call c = .ok (some r, ⟨s, f.tree, x⟩) ∧ R r s x := by
  obtain ⟨outcome, s, x, hrun, hout⟩ := h
  cases outcome with
  | ok t =>
    refine .inl ⟨t, s, x, ?_, hout⟩
    rw [call, hrun]
    rfl
  | error r =>
    refine .inr ⟨r, s, x, ?_, hout⟩
    rw [call, hrun]
    rfl

/-- A deletion that the guard turns down leaves the store as it was. -/
theorem rejectsSilently_delete (t : IntervalTree) (id : RecordId) :
    (t.delete id : Guarded ρ σ IntervalTree).RejectsSilently :=
  (t.cached.rejectsSilently_deleteWith reachSummary id).bind_pure

/-- What a permitted call leaves: if a guard turned it down, the same store and handle, and else
the tree with its nodes where the call takes them. Of the records that are neither in the tree
nor named by the call, nothing changes, and of the others only nodes and reaches. -/
def Outcome (f : Intervals ρ σ) (shape : Shape) (c : IntervalCall) :
    Option Rejection → Intervals ρ σ → Prop
  | none, f' => f.Admits c ∧ Payloads.span f'.store.payload = Payloads.span f.store.payload ∧
      ∃ shape', f'.Keeps shape' ∧ c.Takes f.store shape.inorder shape'.inorder
  | some _, f' => ¬ f.Admits c ∧ f'.store = f.store ∧ f'.tree = f.tree

variable [LawfulSpanned ρ]

/-- An insertion of a record of the store returns, with the outcome of one. -/
theorem Keeps.returns_insert (h : f.Keeps shape) (hid : id < f.store.size) :
    ∃ outcome f', f.call (.insert id) = .ok (outcome, f') ∧
      f.Outcome shape (.insert id) outcome f' := by
  obtain ⟨n, hn⟩ := Store.exists_node_of_lt hid
  have hinsert := IntervalTree.returns_insert (x := f.context) h.toKeeps hn
  rcases call_of_returns (c := .insert id) hinsert with
    ⟨t, s, x, hcall, hstate, l, r, shape', hold, hl, hr, hs, hkeeps, hres⟩ |
    ⟨r, s, x, hcall, hstate, -, rfl⟩
  · exact ⟨none, _, hcall, ⟨n, hn, hstate⟩, hres.span_eq, shape',
      ⟨hkeeps, fun _ _ => hs.mem_of_linked h.mem_of_linked⟩, l, r, hold, hs.inorder, hl, hr⟩
  · refine ⟨some r, _, hcall, ?_, rfl, rfl⟩
    rintro ⟨m, hm, hm'⟩
    rw [hn] at hm
    cases hm
    exact hm' hstate

/-- A deletion of a node returns, with the outcome of one. -/
theorem Keeps.returns_delete (h : f.Keeps shape) (hholds : f.Holds id) :
    ∃ outcome f', f.call (.delete id) = .ok (outcome, f') ∧
      f.Outcome shape (.delete id) outcome f' := by
  obtain ⟨l, r, hlist⟩ := List.append_of_mem (h.holds_iff.mp hholds)
  have hdelete := IntervalTree.returns_delete (x := f.context) h.toKeeps hlist
  rcases call_of_returns (c := .delete id) hdelete with
    ⟨t, s, x, hcall, shape', hs, hkeeps, hres⟩ | ⟨_, _, _, -, hfalse⟩
  · exact ⟨none, _, hcall, hholds, hres.span_eq, shape',
      ⟨hkeeps, fun _ _ => hs.mem_of_linked h.mem_of_linked⟩, l, r, hlist, hs.inorder⟩
  · exact hfalse.elim

/-- Clearing returns, with the outcome of one. -/
theorem Keeps.returns_clear (h : f.Keeps shape) :
    ∃ outcome f', f.call .clear = .ok (outcome, f') ∧ f.Outcome shape .clear outcome f' := by
  have hclear : (IntervalCall.clear.run f.tree).Returns f.store f.context
      (fun t s _ => t = .empty ∧ s.payload = f.store.payload ∧
        Settled f.store shape.inorder [] t.cached.tree s .leaf) fun _ _ _ => False := by
    simp only [IntervalCall.run, Guarded.returns_bind, Guarded.returns_update, Guarded.returns_pure]
    refine (IntervalTree.returns_clear (x := f.context) h.toKeeps).mono ?_
    rintro ⟨t, n⟩ s x ⟨ht, -, -, hpayload, hs⟩
    exact ⟨ht, hpayload, hs⟩
  rcases call_of_returns hclear with ⟨t, s, x, hcall, rfl, hpayload, hs⟩ | ⟨_, _, _, -, hfalse⟩
  · exact ⟨none, _, hcall, trivial, by rw [hpayload], .leaf,
      ⟨IntervalTree.keeps_empty s, fun _ _ => hs.mem_of_linked h.mem_of_linked⟩, rfl⟩
  · exact hfalse.elim

omit [Listener σ] in
/-- Another interval for a record that is not linked leaves all nodes and the tree's intervals
alone. -/
theorem Keeps.setRange (h : f.Keeps shape) {start stop : κ} {s : Store ρ} {x : σ}
    (hrun : (Update.setRange id start stop).run f.store f.context = .ok (((), s), x)) :
    Keeps { f with store := s, context := x } shape := by
  -- The guard of `setRange` is what keeps it from the nodes of the tree.
  obtain ⟨e, he, hstate, rfl, -⟩ := Update.eq_of_setRange hrun
  have hn : f.store.node id = .ok e.node := by
    rw [Store.node_eq_entry, he]
    rfl
  have hnode : (f.store.modifyEntry id fun e => { e with start, stop, reach := stop }).node =
      f.store.node := Store.node_modifyEntry fun _ => rfl
  refine ⟨h.toKeeps.congr ?_, fun j n hj => h.mem_of_linked j n ?_⟩
  · intro j hj
    have hne : j ≠ id := by
      rintro rfl
      exact hstate (h.cached.keeps.state_eq hj hn)
    rw [Store.entry, Store.entry, Store.fetch_modifyEntry_of_ne hne]
  · exact (congrFun hnode j).symm.trans hj

/-- The step: a permitted call returns and has an outcome. -/
theorem Keeps.returns_call (h : f.Keeps shape) (hc : f.Permits c) :
    ∃ outcome f', f.call c = .ok (outcome, f') ∧ f.Outcome shape c outcome f' := by
  cases c with
  | insert id => exact h.returns_insert hc
  | delete id =>
    by_cases hholds : f.Holds id
    · exact h.returns_delete hholds
    · -- What the guards turn down they turn down before anything is written.
      obtain ⟨r, f', hcall⟩ := hc.resolve_left hholds
      refine ⟨some r, f', hcall, hholds, ?_⟩
      unfold call at hcall
      obtain ⟨⟨⟨outcome, s⟩, x⟩, hrun, hout⟩ := except_bind_eq_ok.mp hcall
      cases outcome with
      | ok t => cases hout
      | error e =>
        cases hout
        exact ⟨rejectsSilently_delete f.tree id f.store f.context r s x hrun, rfl⟩
  | clear => exact h.returns_clear

/-- A permitted call that returned has an outcome. -/
theorem Keeps.outcome (h : f.Keeps shape) (hc : f.Permits c) {outcome : Option Rejection}
    (hcall : f.call c = .ok (outcome, f')) : f.Outcome shape c outcome f' := by
  obtain ⟨outcome', f'', hcall', hout⟩ := h.returns_call hc
  rw [hcall] at hcall'
  cases hcall'
  exact hout

omit [LawfulSpanned ρ] [Listener σ] in
/-- Whatever a permitted call leaves keeps the invariant. -/
theorem Outcome.exists_keeps (h : f.Keeps shape) {outcome : Option Rejection}
    (hout : f.Outcome shape c outcome f') : ∃ shape', f'.Keeps shape' := by
  cases outcome with
  | none =>
    obtain ⟨-, -, shape', hkeeps, -⟩ := hout
    exact ⟨shape', hkeeps⟩
  | some r =>
    obtain ⟨-, hstore, htree⟩ := hout
    refine ⟨shape, ?_, ?_⟩
    · rw [hstore, htree]
      exact h.toKeeps
    · rw [hstore]
      exact h.mem_of_linked

/-- The run: the invariant holds in every reachable state. -/
theorem Reachable.exists_keeps (h : f.Reachable) : ∃ shape, f.Keeps shape := by
  induction h with
  | @start f hempty hfree =>
    refine ⟨.leaf, ?_, fun id n hn hstate => absurd hstate (hfree id n hn)⟩
    rw [hempty]
    exact IntervalTree.keeps_empty f.store
  | call _ hp hcall ih =>
    obtain ⟨shape, hkeeps⟩ := ih
    exact (hkeeps.outcome hp hcall).exists_keeps hkeeps
  | setRange _ hrun ih =>
    obtain ⟨shape, hkeeps⟩ := ih
    exact ⟨shape, hkeeps.setRange hrun⟩
  | edit context _ hs hlinked ih =>
    obtain ⟨shape, hkeeps⟩ := ih
    exact ⟨shape, hkeeps.toKeeps.congr fun j hj => hs j (hkeeps.holds_iff.mpr hj),
      fun id n hn hstate => hkeeps.holds_iff.mp (hlinked id n hn hstate)⟩

omit [Listener σ] in
/-- The reach of a node of the tree is the largest stop below it. -/
theorem Keeps.reach_eq (h : f.Keeps shape) (hholds : f.Holds id) : f.store.ReachExact id :=
  h.cached.keeps.spells.exact_iff.mp h.exact id (h.holds_iff.mp hholds)

omit [Listener σ] [LawfulSpanned ρ] in
/-- Exactly the nodes of the tree are linked. -/
theorem Keeps.linked_iff (h : f.Keeps shape) {n : Node} (hn : f.store.node id = .ok n) :
    n.state = .linked ↔ f.Holds id := by
  rw [h.holds_iff]
  exact ⟨h.mem_of_linked id n hn, fun hin => h.cached.keeps.state_eq hin hn⟩

/-- In every reachable state the linked records are the nodes of the tree. Each of them has the
largest stop below it as its reach, and the ascending walk goes through them by ascending start.
There, every permitted call returns, and is turned down exactly if the tree does not admit it. -/
theorem exact_of_reachable (h : f.Reachable) :
    (∀ id n, f.store.node id = .ok n → (n.state = .linked ↔ f.Holds id)) ∧
    (∀ id, f.Holds id → ∃ e, f.store.entry id = .ok e ∧
      (∃ j d, f.store.Reaches (some id) j ∧ f.store.entry j = .ok d ∧ d.stop = e.reach) ∧
      ∀ j d, f.store.Reaches (some id) j → f.store.entry j = .ok d → d.stop ≤ e.reach) ∧
    (∃ l, f.walk = .ok l ∧ l.Nodup ∧ (∀ id, id ∈ l ↔ f.Holds id) ∧
      l.Pairwise fun a b => ∃ d e, f.store.entry a = .ok d ∧ f.store.entry b = .ok e ∧
        d.start ≤ e.start) ∧
    ∀ c, f.Permits c → ∃ outcome f', f.call c = .ok (outcome, f') ∧
      (outcome = none ↔ f.Admits c) := by
  obtain ⟨shape, hkeeps⟩ := h.exists_keeps
  refine ⟨fun id n hn => hkeeps.linked_iff hn, fun id hholds => hkeeps.reach_eq hholds,
    ⟨shape.inorder, hkeeps.walk_eq, hkeeps.cached.keeps.nodup, fun id => hkeeps.holds_iff.symm,
      Store.sorted_compareStart.mp hkeeps.sorted⟩, fun c hc => ?_⟩
  obtain ⟨outcome, f', hcall, hout⟩ := hkeeps.returns_call hc
  refine ⟨outcome, f', hcall, ?_⟩
  cases outcome with
  | none => exact iff_of_true rfl hout.1
  | some r => exact iff_of_false (Option.some_ne_none r) hout.1

end Step

/-- Two intervals, of which the first reaches past the second. -/
def sample : Intervals (Entry Nat) Unit where
  store := #[⟨{ right := some 1, color := .black, state := .linked }, 1, 5, 5⟩,
    ⟨{ parent := some 0, state := .linked }, 2, 3, 3⟩]
  tree := ⟨⟨⟨some 0⟩, some 0⟩⟩
  context := ()

/-- The intervals of `sample` before their insertion, the first with a reach from before. -/
def sampleBare : Intervals (Entry Nat) Unit where
  store := #[⟨{}, 1, 5, 7⟩, .of 2 3]
  tree := .empty
  context := ()

/-- The intervals of `sample` before the second insertion. -/
def sampleHalf : Intervals (Entry Nat) Unit where
  store := #[⟨{ color := .black, state := .linked }, 1, 5, 5⟩, .of 2 3]
  tree := ⟨⟨⟨some 0⟩, some 0⟩⟩
  context := ()

/-- Two insertions lead to `sample`. -/
theorem reachable_sample : sample.Reachable := by
  have hbare : sampleBare.Reachable := .start rfl (Store.forall_node (by decide))
  have hfirst : sampleBare.call (.insert 0) = .ok (none, sampleHalf) := rfl
  have hhalf : sampleHalf.Reachable := hbare.call (c := .insert 0) (show 0 < 2 by decide) hfirst
  have hsecond : sampleHalf.call (.insert 1) = .ok (none, sample) := rfl
  exact hhalf.call (c := .insert 1) (show 1 < 2 by decide) hsecond

/-- The two intervals are walked by their starts, and the first one reaches as far as it stops. -/
theorem exact_sample : sample.walk = .ok [0, 1] ∧
    ∃ e, sample.store.entry 0 = .ok e ∧ e.reach = 5 ∧
      ∀ j d, sample.store.Reaches (some 0) j → sample.store.entry j = .ok d → d.stop ≤ 5 := by
  obtain ⟨-, hreach, -, -⟩ := exact_of_reachable reachable_sample
  obtain ⟨e, he, -, hle⟩ := hreach 0 (.here rfl)
  cases he
  exact ⟨rfl, _, rfl, rfl, hle⟩

end Intervals

end RecordTree
