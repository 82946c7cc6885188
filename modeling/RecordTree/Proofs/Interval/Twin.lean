import RecordTree.Proofs.Cached.Run
import RecordTree.Proofs.Interval.Run
import RecordTree.Proofs.Oblivious

/-!
# `RecordTree.Proofs.Interval.Twin`: an interval tree and a plain tree that are driven alike

An interval tree does more than a plain tree that is ordered by start: it resets the reach of a
record before it inserts it, makes callbacks, and reads on to the next node when it deletes the
first one. None of this shows in a view of all but the reaches (`View.reachless`), so each call is
followed by the plain one (`IntervalCall.tracks_plain`). `Intervals.Twins` pairs the states that
the same operations lead to, on both sides.

* `Intervals.Twins.agree`: the run. Twins have the same links, colours and states, and every
  permitted call returns on both sides, with the same outcome.
-/

set_option autoImplicit false

namespace RecordTree

variable {ρ σ κ γ : Type}

section Plain

variable [Linked ρ] [Listener σ]

/-- A beginning that changes nothing that is seen need not be followed. -/
theorem Guarded.tracks_after {α β : Type} {V : View ρ σ α β} {u : Update ρ σ γ}
    (hu : u.Leaves V.seen) {τ : Type} {f : γ → Guarded ρ σ τ} {g : Guarded ρ σ τ} {P : τ → Prop}
    (h : ∀ a, Tracks V.alignment (f a) g P) :
    Tracks V.alignment (Guarded.update u >>= f) g P := by
  intro s x s₀ x₀ hseen out s₂ x₂ hrun
  rw [Guarded.run_update_bind] at hrun
  obtain ⟨⟨⟨a, s₁⟩, x₁⟩, hfirst, hrest⟩ := except_bind_eq_ok.mp hrun
  exact h a s₁ x₁ s₀ x₀ (hseen.trans (hu s x a s₁ x₁ hfirst).symm) out s₂ x₂ hrest

omit [Linked ρ] [Listener σ] in
/-- Two updates in sequence are two guarded computations in sequence. -/
theorem Guarded.update_bind {α β : Type} (u : Update ρ σ α) (f : α → Update ρ σ β) :
    Guarded.update (u >>= f) = Guarded.update u >>= fun a => Guarded.update (f a) := by
  refine ExceptT.ext ?_
  simp [Guarded.update]

omit [Linked ρ] [Listener σ] in
/-- An update that returns a value is a guarded computation that does. -/
theorem Guarded.update_pure {α : Type} (a : α) :
    Guarded.update (pure a : Update ρ σ α) = pure a := by
  refine ExceptT.ext ?_
  simp [Guarded.update]

namespace CachedTree

variable (aug : Augmentation ρ σ) (t : CachedTree)

/-- But for its cache, a cached tree is linked to as its tree is. -/
theorem tree_linkWith (vacancy : Vacancy) (id : RecordId) :
    tree <$> t.linkWith aug vacancy id = t.tree.linkWith aug vacancy.slot id := by
  simp [linkWith]

/-- An insertion into a cached tree, without the cache, is an insertion into the tree inside. -/
theorem tree_insertWith (id : RecordId) (compare : Comparator ρ σ) :
    tree <$> t.insertWith aug id compare = t.tree.insertWith aug id compare := by
  simp only [insertWith, map_bind, tree_linkWith]
  rfl

variable {aug t} in
/-- Where the next node can be read, a node of a cached tree is deleted as one of its tree is. -/
theorem run_tree_deleteWith {s : Store ρ} {id : RecordId}
    (hnext : t.leftmost = some id → ∃ next, s.next id = .ok next) (x : σ) :
    (tree <$> t.deleteWith aug id).run s x = (t.tree.deleteWith aug id).run s x := by
  unfold deleteWith
  by_cases hleftmost : t.leftmost = some id
  · obtain ⟨next, hnext⟩ := hnext hleftmost
    have hread : (Update.read (·.next id) : Update ρ σ _) s x = .ok ((next, s), x) := by
      rw [Update.read, hnext]
      rfl
    rw [if_pos hleftmost, map_bind, Guarded.run_update_bind, hread]
    show (tree <$> (t.tree.deleteWith aug id >>= fun tree => pure ⟨tree, next⟩)).run s x = _
    simp
  · rw [if_neg hleftmost]
    simp

/-- But for the look at the next node, which may be due for the cache, a node of a cached tree is
deleted as one of its tree is. -/
theorem tracks_tree_deleteWith {α β : Type} {V : View ρ σ α β} {aug aug' : Augmentation ρ σ}
    (h : aug.Tracks Set.univ V.alignment aug') (id : RecordId) :
    Guarded.Tracks V.alignment (tree <$> t.deleteWith aug id) (t.tree.deleteWith aug' id)
      (·.Inside Set.univ) := by
  have hdelete : Guarded.Tracks V.alignment (t.tree.deleteWith aug id) (t.tree.deleteWith aug' id)
      (·.Inside Set.univ) := V.lockstep.deleteWith V.hears h RecordTree.inside_univ trivial
  unfold deleteWith
  split_ifs
  · rw [map_bind]
    refine Guarded.tracks_after (Update.leaves_read _) fun next => ?_
    simpa using hdelete
  · simpa using hdelete

end CachedTree

end Plain

/-- The plain tree in an interval tree. -/
def IntervalTree.plain (t : IntervalTree) : Tree := t.cached.tree

/-- The call on a plain tree that is ordered by start. -/
def IntervalCall.plain [Spanned ρ κ] [LT κ] [DecidableLT κ] [DecidableEq κ] :
    IntervalCall → Call ρ σ
  | insert id => .insert id (.of compareStart)
  | delete id => .delete id
  | clear => .clear

section Twins

variable [Spanned ρ κ] [LawfulSpanned ρ] [Listener σ]

/-- The view of all that records hold but their reaches, and of all of the context. -/
def View.reachless : View ρ σ ρ σ where
  record r := Spanned.withEntry r { Spanned.entry r with reach := (Spanned.entry r).stop }
  context x := x
  node_eq h := by
    have hnode := congrArg (fun r => (Spanned.entry r).node) h
    simpa [Linked.node] using hnode
  withNode_eq n h := by
    have hentry := congrArg Spanned.entry h
    simp only [LawfulSpanned.entry_withEntry, Entry.mk.injEq] at hentry
    have hrest := congrArg (fun r => Spanned.withEntry r
      { Spanned.entry r with node := n }) h
    simpa [Linked.withNode] using hrest
  hear_eq r h := congrArg (Listener.hear r) h

/-- Reaches are not seen. -/
theorem View.reachless_setReach (s : Store ρ) (id : RecordId) (reach : κ) (x : σ) :
    reachless.seen (s.setReach id reach) x = reachless.seen s x := by
  refine Prod.ext (Array.ext ?_ ?_) rfl
  · simp [seen]
  · intro j hj₀ hj
    by_cases heq : id = j
    · subst heq
      simp [seen, reachless, Store.setReach, Store.modifyEntry, Array.getElem_modify]
    · simp [seen, reachless, Store.setReach, Store.modifyEntry, Array.getElem_modify, heq]

/-- Another interval for a record looks alike where the record did. -/
theorem View.seen_setRange {s s₀ : Store ρ} {x x₀ : σ}
    (h : reachless.seen s₀ x₀ = reachless.seen s x) (id : RecordId) (start stop : κ) :
    reachless.seen (s₀.modifyEntry id fun e => { e with start, stop, reach := stop }) x₀ =
      reachless.seen (s.modifyEntry id fun e => { e with start, stop, reach := stop }) x := by
  refine seen_modify (fun r r₀ hr => ?_) h id
  have hrange := congrArg (fun r => Spanned.withEntry r
    { Spanned.entry r with start, stop, reach := stop }) hr
  simpa [reachless] using hrange

variable [LinearOrder κ]

omit [LawfulSpanned ρ] [Listener σ] [LinearOrder κ] in
/-- A view that does not show reaches is the same after one was reset. -/
theorem IntervalTree.leaves_resetReach {view : Store ρ → σ → γ}
    (hview : ∀ (s : Store ρ) (id : RecordId) (reach : κ) (x : σ),
      view (s.setReach id reach) x = view s x) (id : RecordId) : (resetReach id).Leaves view := by
  intro s x a s' x' hrun
  have hreturns : (resetReach id).Returns s x fun _ t y => t = s' ∧ y = x' :=
    ⟨a, s', x', hrun, rfl, rfl⟩
  have hread := hreturns
  simp only [resetReach, Update.returns_bind, Update.returns_entry] at hread
  obtain ⟨e, he, -⟩ := hread
  obtain ⟨rfl, rfl⟩ := (returns_resetReach he).mp hreturns
  split_ifs
  · rfl
  · exact hview s id e.stop x

/-- The order by start does not look at reaches. -/
theorem View.suffices_compareStart :
    (reachless (ρ := ρ) (σ := σ)).Suffices (.of compareStart) := by
  intro a b a₀ b₀ x x₀ ha hb hx
  have hstart {r r₀ : ρ} (h : reachless.record (σ := σ) r₀ = reachless.record (σ := σ) r) :
      (Spanned.entry r₀).start = (Spanned.entry r).start := by
    simpa [reachless] using congrArg (fun r => (Spanned.entry r).start) h
  refine ⟨?_, hx⟩
  show compareStart a₀ b₀ = compareStart a b
  rw [compareStart, compareStart, hstart ha, hstart hb]

/-- All that a call does to the plain tree in an interval tree, the plain call does as well. -/
theorem IntervalCall.tracks_plain (t : IntervalTree) (c : IntervalCall) :
    Guarded.Tracks (View.reachless (ρ := ρ) (σ := σ)).alignment (IntervalTree.plain <$> c.run t)
      (c.plain.run t.plain) (·.Inside Set.univ) := by
  have L := (View.reachless (ρ := ρ) (σ := σ)).lockstep
  have hears := (View.reachless (ρ := ρ) (σ := σ)).hears
  have haug := (leaves_reachSummary (View.reachless_setReach (ρ := ρ) (σ := σ))).tracks_none
  have hplain : t.plain.Inside Set.univ := inside_univ
  cases c with
  | insert id =>
    show Guarded.Tracks _ (IntervalTree.plain <$> t.insert id) _ _
    -- Before the insertion the reach is reset, which the plain tree does not see.
    have hinsert : (IntervalTree.plain <$> t.insert id : Guarded ρ σ Tree) = (do
        Guarded.update (IntervalTree.resetReach id)
        t.plain.insertWith reachSummary id (.of compareStart)) := by
      rw [IntervalTree.plain, ← CachedTree.tree_insertWith]
      simp [IntervalTree.insert]
      rfl
    rw [hinsert]
    refine Guarded.tracks_after (IntervalTree.leaves_resetReach View.reachless_setReach id)
      fun _ => ?_
    exact L.insertWith hears haug View.suffices_compareStart.agrees hplain trivial
  | delete id =>
    have hdelete : (IntervalTree.plain <$> t.delete id : Guarded ρ σ Tree) =
        CachedTree.tree <$> t.cached.deleteWith reachSummary id := by
      simp [IntervalTree.delete]
      rfl
    show Guarded.Tracks _ (IntervalTree.plain <$> t.delete id) _ _
    rw [hdelete]
    exact t.cached.tracks_tree_deleteWith haug id
  | clear =>
    have hclear : (IntervalTree.plain <$> IntervalCall.clear.run t : Guarded ρ σ Tree) =
        Call.clear.run t.plain := by
      simp only [IntervalCall.run, Call.run, IntervalTree.clear, CachedTree.clear,
        Guarded.update_bind, Guarded.update_pure, map_bind, map_pure, bind_assoc, pure_bind]
      rfl
    rw [hclear]
    refine (Guarded.tracks_update (L.clear hplain)).bind fun out hout => ?_
    exact Guarded.tracks_pure hout

namespace Intervals

/-- An interval tree and a plain tree that the same operations were carried out on: insertions by
start, deletions and clearings, and in between changes of intervals and of whatever the interval
tree does not hold. -/
inductive Twins : Intervals ρ σ → Session Tree ρ σ → Prop where
  | start {f : Intervals ρ σ} {g : Session Tree ρ σ} : f.tree = .empty → g.handle = .empty →
      (∀ id n, f.store.node id = .ok n → n.state ≠ .linked) →
      View.reachless.seen g.store g.context = View.reachless.seen f.store f.context → Twins f g
  | call {f f' : Intervals ρ σ} {g g' : Session Tree ρ σ} {c : IntervalCall}
      {outcome outcome' : Option Rejection} :
      Twins f g → f.Permits c → f.call c = .ok (outcome, f') →
      g.make c.plain.run = .ok (outcome', g') → Twins f' g'
  | setRange {f : Intervals ρ σ} {g : Session Tree ρ σ} {id : RecordId} {start stop : κ}
      {s s' : Store ρ} {x x' : σ} : Twins f g →
      (Update.setRange id start stop).run f.store f.context = .ok (((), s), x) →
      (Update.setRange id start stop).run g.store g.context = .ok (((), s'), x') →
      Twins { f with store := s, context := x } { g with store := s', context := x' }
  /-- The caller changes what the tree does not hold, and on both sides alike. -/
  | edit {f : Intervals ρ σ} {g : Session Tree ρ σ} {s s' : Store ρ} {x x' : σ} : Twins f g →
      (∀ id, f.Holds id → s.entry id = f.store.entry id) →
      (∀ id n, s.node id = .ok n → n.state = .linked → f.Holds id) →
      View.reachless.seen s' x' = View.reachless.seen s x →
      Twins { f with store := s, context := x } { g with store := s', context := x' }

namespace Twins

variable {f : Intervals ρ σ} {g : Session Tree ρ σ}

/-- The step: where a call on the interval tree returns, the plain call returns the same, and the
states look alike again. -/
theorem returns_plain (hhandle : g.handle = f.tree.plain)
    (hseen : View.reachless.seen g.store g.context = View.reachless.seen f.store f.context)
    {c : IntervalCall} {outcome : Option Rejection} {f' : Intervals ρ σ}
    (hcall : f.call c = .ok (outcome, f')) :
    ∃ g', g.make c.plain.run = .ok (outcome, g') ∧ g'.handle = f'.tree.plain ∧
      View.reachless.seen g'.store g'.context = View.reachless.seen f'.store f'.context := by
  obtain ⟨⟨⟨out, s⟩, x⟩, hrun, hout⟩ := except_bind_eq_ok.mp hcall
  -- The same call, with the plain tree of the handle that it returns.
  have hplain : (IntervalTree.plain <$> c.run f.tree).run f.store f.context =
      .ok ((out.map IntervalTree.plain, s), x) := by
    rw [← bind_pure_comp, Guarded.run_bind_pure]
    exact except_map_eq_ok.mpr ⟨_, hrun, rfl⟩
  obtain ⟨out₀, s₀, x₀, hrun₀, heq, hseen', -⟩ := c.tracks_plain f.tree f.store f.context g.store
    g.context hseen _ s x hplain
  subst heq
  rw [← hhandle] at hrun₀
  cases out with
  | ok t =>
    cases hout
    exact ⟨⟨s₀, t.plain, x₀⟩, except_bind_eq_ok.mpr ⟨_, hrun₀, rfl⟩, rfl, hseen'⟩
  | error r =>
    cases hout
    exact ⟨⟨s₀, g.handle, x₀⟩, except_bind_eq_ok.mpr ⟨_, hrun₀, rfl⟩, hhandle, hseen'⟩

/-- The run: twins look alike but for their reaches, and the interval tree went through a run. -/
theorem reachable_and_seen (h : Twins f g) : f.Reachable ∧ g.handle = f.tree.plain ∧
    View.reachless.seen g.store g.context = View.reachless.seen f.store f.context := by
  induction h with
  | start hf hg hfree hseen =>
    refine ⟨.start hf hfree, ?_, hseen⟩
    rw [hf, hg]
    rfl
  | call _ hp hcall hmake ih =>
    obtain ⟨hreach, hhandle, hseen⟩ := ih
    obtain ⟨g'', hmake', hhandle', hseen'⟩ := returns_plain hhandle hseen hcall
    rw [hmake] at hmake'
    cases hmake'
    exact ⟨hreach.call hp hcall, hhandle', hseen'⟩
  | setRange _ hrun hrun' ih =>
    obtain ⟨hreach, hhandle, hseen⟩ := ih
    obtain ⟨-, -, -, rfl, rfl⟩ := Update.eq_of_setRange hrun
    obtain ⟨-, -, -, rfl, rfl⟩ := Update.eq_of_setRange hrun'
    exact ⟨hreach.setRange hrun, hhandle, View.seen_setRange hseen _ _ _⟩
  | edit _ hs hlinked hseen ih => exact ⟨ih.1.edit _ hs hlinked, ih.2.1, hseen⟩

/-- Twins have the same links, colours and states, and every permitted call returns on both sides,
with the same outcome. -/
theorem agree (h : Twins f g) : f.Reachable ∧ g.handle = f.tree.plain ∧
    g.store.node = f.store.node ∧ g.context = f.context ∧
    ∀ c, f.Permits c → ∃ outcome f' g', f.call c = .ok (outcome, f') ∧
      g.make c.plain.run = .ok (outcome, g') ∧ Twins f' g' := by
  obtain ⟨hreach, hhandle, hseen⟩ := h.reachable_and_seen
  refine ⟨hreach, hhandle, View.node_eq_of_seen hseen, (Prod.mk.inj hseen).2, fun c hc => ?_⟩
  obtain ⟨shape, hkeeps⟩ := hreach.exists_keeps
  obtain ⟨outcome, f', hcall, -⟩ := hkeeps.returns_call hc
  obtain ⟨g', hmake, -, -⟩ := returns_plain hhandle hseen hcall
  exact ⟨outcome, f', g', hcall, hmake, h.call hc hcall hmake⟩

end Twins

end Intervals

end Twins

/-! ### Requests as calls -/

section Requests

variable [Linked ρ]

/-- The request as a call on a tree without callbacks. -/
def Request.call : Request ρ σ → Call ρ σ
  | insert id compare => .insert id compare
  | link vacancy id => .link vacancy.slot id
  | delete id => .delete id
  | replace old new => .replace old new

/-- The request as a call on a cached tree without callbacks. -/
def Request.cachedCall : Request ρ σ → CachedCall ρ σ
  | insert id compare => .insert .none id compare
  | link vacancy id => .link .none vacancy id
  | delete id => .delete .none id
  | replace old new => .replace old new

end Requests

end RecordTree
