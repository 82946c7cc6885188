import RecordTree.Proofs.Watched.Calls

/-!
# `RecordTree.Proofs.Watched.Protocol`: which callbacks a call makes, and in which order

`Request.Protocol` lists the callbacks of a request that the guards let through. A link first has
the summaries brought up to date from the parent of the leaf. A deletion first does the same for
what came into the place of the node, which takes up to three callbacks (`Removal`). Rotations come
last, two or three of them at most. A replacement makes no callback, and neither does a request that
is turned down.

* `Request.Shown.protocol`: what a log shows of a request is by the protocol.
* `Forest.Reachable.request`, `Intervals.Reachable.toCached`: calls with callbacks that spare nodes
  lead to no other trees than calls without, and those of an interval tree to no other trees than
  those of a cached one.
* `callbacks_follow_protocol`: all requests of reachable trees follow the protocol.
-/

set_option autoImplicit false

namespace RecordTree

variable {ρ σ τ : Type}

/-! ### The protocol -/

/-- Rotations only, and no more than `limit`. -/
def Rotations (limit : Nat) (notices : List Notice) : Prop :=
  notices.length ≤ limit ∧ ∀ notice ∈ notices, ∃ old new, notice = .rotate old new

section Protocol

variable [Linked ρ]

/-- The callbacks that go with taking `id` out of the tree, before any rotation. -/
inductive Removal (s : Store ρ) (t : Tree) (id : RecordId) : List Notice → Prop where
  /-- The node has one child at most. -/
  | child {n : Node} : s.node id = .ok n → n.left = none ∨ n.right = none →
      Removal s t id [.propagate n.parent none]
  /-- The node that follows it in the walk is its right child. -/
  | next {n : Node} {succ : RecordId} {l r : List RecordId} : s.node id = .ok n → n.left ≠ none →
      n.right = some succ → t.walk s .ascending = .ok (l ++ id :: succ :: r) →
      Removal s t id [.copy id succ, .propagate (some succ) none]
  /-- The node that follows it in the walk is further down. -/
  | deep {n m : Node} {succ : RecordId} {l r : List RecordId} : s.node id = .ok n →
      n.left ≠ none → n.right ≠ none → n.right ≠ some succ →
      t.walk s .ascending = .ok (l ++ id :: succ :: r) → s.node succ = .ok m →
      Removal s t id
        [.copy id succ, .propagate m.parent (some succ), .propagate (some succ) none]

/-- The callbacks of a request that is let through. -/
def Request.Protocol (s : Store ρ) (t : Tree) (x : σ) : Request ρ σ → List Notice → Prop
  | insert id compare, notices => ∃ vacancy x' rotations,
      (t.descend s id compare) x = .ok (vacancy, x') ∧ Rotations 2 rotations ∧
        notices = .propagate vacancy.slot.parent none :: rotations
  | link vacancy _, notices => ∃ rotations, Rotations 2 rotations ∧
      notices = .propagate vacancy.slot.parent none :: rotations
  | delete id, notices => ∃ removal rotations, Removal s t id removal ∧ Rotations 3 rotations ∧
      notices = removal ++ rotations
  | replace .., notices => notices = []

/-! ### Logs -/

section Logs

variable {P : Payloads ρ → Shape → Prop} {s s' : Store ρ} {t : Tree} {first last shape : Shape}
  {id : RecordId} {log : List (Sighting ρ)}

/-- All callbacks after the first ones are calls for rotations. -/
theorem Turned.rotate_of_mem (h : Turned P s first log s' last) {w : Sighting ρ} (hw : w ∈ log) :
    ∃ old new, w.notice = .rotate old new := by
  induction h with
  | start => cases hw
  | turn _ hturn ih =>
    rcases List.mem_append.mp hw with hw | hw
    · exact ih hw
    · obtain ⟨-, -, -, -, -, -, -, old, new, hnotice, -⟩ := hturn.turned
      rw [List.mem_singleton.mp hw]
      exact ⟨old, new, hnotice⟩

/-- A log begins with what comes first, and has nothing but rotations after that. -/
theorem Shows.exists_rotations {First : List (Sighting ρ) → Store ρ → Shape → Prop} {k limit : Nat}
    (h : Shows P First k log shape) (hk : k ≤ limit) :
    ∃ start s first rotations, First start s first ∧ Rotations limit rotations ∧
      log.map Sighting.notice = start.map Sighting.notice ++ rotations := by
  obtain ⟨start, rotations, s, _, first, _, rfl, hlength, hfirst, hturned, -⟩ := h
  refine ⟨start, s, first, rotations.map Sighting.notice, hfirst, ⟨?_, ?_⟩, List.map_append⟩
  · rw [List.length_map, hlength]
    exact hk
  · intro notice hnotice
    obtain ⟨w, hw, rfl⟩ := List.mem_map.mp hnotice
    exact hturned.rotate_of_mem hw

omit [Linked ρ] in
/-- The node in a position is not the top of a tree that has nodes above the position. -/
theorem Context.root?_fill_ne {C : Context} {above : RecordId} {c : Color} {l r : Shape}
    (habove : C.parent = some above) (hnodup : (C.fill (.node c l id r)).inorder.Nodup) :
    (C.fill (.node c l id r)).root? ≠ some id := by
  obtain ⟨-, -, hdisj⟩ := Context.nodup_fill.mp hnodup
  cases C with
  | top => cases habove
  | under side d p sibling up =>
    intro hroot
    rw [Context.root?_fill_under _ _ _ _ _ _ .leaf] at hroot
    have hin := Shape.mem_of_root? hroot
    rw [Context.inorder_fill_leaf] at hin
    exact hdisj (by simp [Shape.inorder]) hin

/-- What a log shows of a node that was taken out is by the protocol. -/
theorem TakenOut.removal (h : t.Keeps s shape) (hlog : TakenOut shape id log s' first) :
    Removal s t id (log.map Sighting.notice) := by
  have hwalk := h.walk_ascending
  cases hlog with
  | @child C side c a _ _ hshape =>
    subst hshape
    have hempty : (Node.placed C.parent side a.root? Shape.leaf.root? c).left = none ∨
        (Node.placed C.parent side a.root? Shape.leaf.root? c).right = none := by
      cases side
      · exact .inr rfl
      · exact .inl rfl
    have hremoval := Removal.child (t := t) h.node_top hempty
    rwa [Node.parent_placed] at hremoval
  | @next C c d l r succ _ _ _ _ hl hshape =>
    subst hshape
    have hnode := h.toHasShape
    rw [← Shape.join_left] at hnode
    refine .next hnode.node_top (Shape.root?_ne_none hl) rfl (l := C.before ++ l.inorder)
      (r := r.inorder ++ C.after) ?_
    rw [hwalk, Context.inorder_fill_node]
    rfl
  | @deep C spine c d l r succ above _ _ _ _ _ hl habove hbefore hshape =>
    subst hshape
    have hnode := h.toHasShape
    rw [← Shape.join_left] at hnode
    -- The node that follows is some way down on the right.
    have hright : (spine.fill (.node d .leaf succ r)).inorder.Nodup :=
      (Shape.nodup_join.mp (Context.nodup_fill.mp hnode.nodup).1).2.2.2.1
    have hmem : succ ∈ (spine.fill (.node d .leaf succ r)).inorder := by simp [Shape.inorder]
    have hne : spine.fill (.node d .leaf succ r) ≠ .leaf := by
      intro hleaf
      rw [hleaf] at hmem
      cases hmem
    have hsucc := h.toHasShape
    rw [Context.fill_right, ← Shape.join_left] at hsucc
    have hparent := hsucc.node_top
    have hsplit : t.walk s .ascending = .ok ((C.before ++ l.inorder) ++ id :: succ ::
        (r.inorder ++ spine.after ++ C.after)) := by
      rw [hwalk, Context.inorder_fill_node, Context.inorder_fill, hbefore]
      simp [Shape.inorder]
    have hremoval := Removal.deep hnode.node_top (Shape.root?_ne_none hl)
      (Shape.root?_ne_none hne) (Context.root?_fill_ne habove hright) hsplit hparent
    rwa [Node.parent_placed, Context.parent_inside, habove] at hremoval

/-- What a log shows of a request is by the protocol. -/
theorem Request.Shown.protocol {x : σ} {q : Request ρ σ} {shape' : Shape} (h : t.Keeps s shape)
    (hshown : q.Shown P s t x shape log shape') : q.Protocol s t x (log.map Sighting.notice) := by
  cases hshown with
  | insert _ hdesc hk _ hshows =>
    obtain ⟨_, _, _, rotations, hfirst, hrotations, hlog⟩ := hshows.exists_rotations hk
    cases hfirst
    exact ⟨_, _, rotations, hdesc, hrotations, hlog⟩
  | link _ hslot hk _ hshows =>
    obtain ⟨_, _, _, rotations, hfirst, hrotations, hlog⟩ := hshows.exists_rotations hk
    cases hfirst
    refine ⟨rotations, hrotations, ?_⟩
    rw [hslot.1]
    exact hlog
  | delete _ hk _ hshows =>
    obtain ⟨_, _, _, rotations, hfirst, hrotations, hlog⟩ := hshows.exists_rotations hk
    exact ⟨_, rotations, hfirst.removal h, hrotations, hlog⟩
  | replace => rfl

end Logs

/-! ### Runs -/

section Runs

variable [LawfulLinked ρ] [Listener σ]

/-- The view of nodes, and of nothing else. -/
def View.nodes : View ρ σ Node Unit where
  record := Linked.node
  context _ := ()
  node_eq h := h
  withNode_eq n _ := by simp [LawfulLinked.node_withNode]
  hear_eq _ _ := rfl

/-- States with the same nodes look alike where nodes are seen only. -/
theorem View.nodes_seen {s s' : Store ρ} (h : s'.node = s.node) (x x' : σ) :
    View.nodes.seen s' x' = View.nodes.seen s x := by
  refine Prod.ext (Array.ext ?_ ?_) rfl
  · simpa [seen] using Store.size_eq_of_node h
  · intro j hj' hj
    simp only [seen, Array.size_map] at hj hj'
    have hnode := congrFun h j
    rw [Store.node_of_lt hj, Store.node_of_lt hj'] at hnode
    simpa [seen, nodes] using hnode

/-- Callbacks that spare nodes are hidden where nodes are seen only. -/
theorem Augmentation.Spares.hiddenFrom {aug : Augmentation ρ σ} (h : aug.Spares) :
    aug.HiddenFrom View.nodes where
  propagate _ _ := fun _ _ _ _ _ hrun => View.nodes_seen (h.propagate _ _ _ _ _ _ _ hrun) _ _
  copy _ _ := fun _ _ _ _ _ hrun => View.nodes_seen (h.copy _ _ _ _ _ _ _ hrun) _ _
  rotate _ _ := fun _ _ _ _ _ hrun => View.nodes_seen (h.rotate _ _ _ _ _ _ _ hrun) _ _

/-- Without callbacks a request has the same outcome, if they spare nodes, and leaves the same
nodes. -/
theorem Request.run_none {q : Request ρ σ} {aug : Augmentation ρ σ} (haug : aug.Spares)
    {t : Tree} {s s' : Store ρ} {x x' : σ} {out : Except Rejection Tree}
    (hrun : (q.onTree aug t).run s x = .ok ((out, s'), x')) :
    ∃ s₀ x₀, (q.onTree .none t).run s x = .ok ((out, s₀), x₀) ∧ s₀.node = s'.node := by
  -- Only an insertion asks a comparator, and that is before all callbacks.
  have hagrees {q : Request ρ σ} (hq : q.Agrees View.nodes.alignment q) {x : σ}
      (hrun : (q.onTree aug t).run s x = .ok ((out, s'), x')) :
      ∃ s₀ x₀, (q.onTree .none t).run s x = .ok ((out, s₀), x₀) ∧ s₀.node = s'.node := by
    obtain ⟨_, s₀, x₀, hrun₀, rfl, hseen, -⟩ := View.nodes.lockstep.request View.nodes.hears
      haug.hiddenFrom.tracks_none hq t s x s x rfl _ _ _ hrun
    exact ⟨s₀, x₀, hrun₀, View.node_eq_of_seen hseen⟩
  cases q with
  | insert id compare =>
    simp only [onTree, Tree.insertWith, Guarded.run_update_bind] at hrun ⊢
    obtain ⟨⟨⟨vacancy, s₁⟩, x₁⟩, hdesc, hlink⟩ := except_bind_eq_ok.mp hrun
    obtain ⟨⟨_, _⟩, -, heq⟩ := except_map_eq_ok.mp hdesc
    cases heq
    obtain ⟨s₀, x₀, hlink₀, hnode⟩ := hagrees (q := .link vacancy id) .link hlink
    exact ⟨s₀, x₀, except_bind_eq_ok.mpr ⟨_, hdesc, hlink₀⟩, hnode⟩
  | link vacancy id => exact hagrees .link hrun
  | delete id => exact hagrees .delete hrun
  | replace old new => exact hagrees .replace hrun

/-- What a request leaves of a forest. -/
def Forest.after {ι : Type} [DecidableEq ι] (f : Forest ι ρ σ) (i : ι)
    (out : Except Rejection Tree) (s : Store ρ) (x : σ) : Forest ι ρ σ where
  store := s
  trees := match out with
    | .ok t => Function.update f.trees i t
    | .error _ => f.trees
  context := x

/-- Requests with callbacks that spare nodes lead to states that calls without callbacks lead to. -/
theorem Forest.Reachable.request {ι : Type} [DecidableEq ι] {f : Forest ι ρ σ} {i : ι}
    {q : Request ρ σ} {aug : Augmentation ρ σ} (h : f.Reachable) (hq : f.Permits i q.call)
    (haug : aug.Spares) {out : Except Rejection Tree} {s : Store ρ} {x : σ}
    (hrun : (q.onTree aug (f.trees i)).run f.store f.context = .ok ((out, s), x)) :
    (f.after i out s x).Reachable := by
  obtain ⟨s₀, x₀, hrun₀, hnode⟩ := Request.run_none haug hrun
  have hrun₀ : (q.call.run (f.trees i)).run f.store f.context = .ok ((out, s₀), x₀) := by
    cases q <;> exact hrun₀
  have hcall : ∃ outcome, f.call i q.call = .ok (outcome, f.after i out s₀ x₀) := by
    cases out with
    | ok t => exact ⟨none, except_bind_eq_ok.mpr ⟨_, hrun₀, rfl⟩⟩
    | error r => exact ⟨some r, except_bind_eq_ok.mpr ⟨_, hrun₀, rfl⟩⟩
  obtain ⟨outcome, hcall⟩ := hcall
  exact (h.call hq hcall).edit x hnode.symm

end Runs

end Protocol

namespace Intervals

variable {κ : Type} [Spanned ρ κ] [LawfulSpanned ρ] [Listener σ]

/-- The cached tree of an interval tree. -/
def toCached (f : Intervals ρ σ) : Cached ρ σ := ⟨f.store, f.tree.cached, f.context⟩

variable [LinearOrder κ] {f f' : Intervals ρ σ} {outcome : Option Rejection}

/-- But for the reset of the reach, an insertion is one into the cached tree. -/
theorem toCached_insert {id : RecordId} (h : f.call (.insert id) = .ok (outcome, f')) :
    ∃ s x, s.node = f.store.node ∧ Cached.call ⟨s, f.tree.cached, x⟩
      (.insert reachSummary id (.of compareStart)) = .ok (outcome, f'.toCached) := by
  obtain ⟨⟨⟨out, s'⟩, x'⟩, hrun, hout⟩ := except_bind_eq_ok.mp h
  simp only [IntervalCall.run, IntervalTree.insert, Guarded.run_update_bind] at hrun
  obtain ⟨⟨⟨u, s⟩, x⟩, hreset, hrun⟩ := except_bind_eq_ok.mp hrun
  rw [Guarded.run_bind_pure] at hrun
  obtain ⟨⟨⟨out₀, _⟩, _⟩, hinsert, heq⟩ := except_map_eq_ok.mp hrun
  cases heq
  have hleaves : (IntervalTree.resetReach id).Leaves fun (s : Store ρ) (_ : σ) => s.node :=
    IntervalTree.leaves_resetReach (fun s id reach _ => s.node_setReach id reach) id
  have hnode : s.node = f.store.node := hleaves _ _ _ _ _ hreset
  refine ⟨s, x, hnode, except_bind_eq_ok.mpr ⟨_, hinsert, ?_⟩⟩
  cases out₀ <;> cases hout <;> rfl

omit [LawfulSpanned ρ] in
/-- A deletion from an interval tree is one from its cached tree, with callbacks for the reaches. -/
theorem toCached_delete {id : RecordId} (h : f.call (.delete id) = .ok (outcome, f')) :
    f.toCached.call (.delete reachSummary id) = .ok (outcome, f'.toCached) := by
  obtain ⟨⟨⟨out, s'⟩, x'⟩, hrun, hout⟩ := except_bind_eq_ok.mp h
  simp only [IntervalCall.run, IntervalTree.delete] at hrun
  rw [Guarded.run_bind_pure] at hrun
  obtain ⟨⟨⟨out₀, _⟩, _⟩, hdelete, heq⟩ := except_map_eq_ok.mp hrun
  cases heq
  refine except_bind_eq_ok.mpr ⟨_, hdelete, ?_⟩
  cases out₀ <;> cases hout <;> rfl

omit [LawfulSpanned ρ] in
/-- A clearing of an interval tree is one of its cached tree. -/
theorem toCached_clear (h : f.call .clear = .ok (outcome, f')) :
    f.toCached.call .clear = .ok (outcome, f'.toCached) := by
  obtain ⟨⟨⟨out, s'⟩, x'⟩, hrun, hout⟩ := except_bind_eq_ok.mp h
  simp only [IntervalCall.run, Guarded.run_update_bind] at hrun
  obtain ⟨⟨⟨⟨t, n⟩, s⟩, x⟩, hclear, hrun⟩ := except_bind_eq_ok.mp hrun
  obtain ⟨⟨⟨⟨cached, m⟩, _⟩, _⟩, hcached, heq⟩ := except_bind_eq_ok.mp hclear
  cases heq
  cases hrun
  cases hout
  simp only [Cached.call, CachedCall.run, Guarded.run_update_bind]
  exact except_bind_eq_ok.mpr ⟨_, except_bind_eq_ok.mpr ⟨_, hcached, rfl⟩, rfl⟩

/-- The cached tree of an interval tree goes through a run of a cached tree. -/
theorem Reachable.toCached (h : f.Reachable) : f.toCached.Reachable := by
  have hspares : (reachSummary : Augmentation ρ σ).Spares := spares_reachSummary
  induction h with
  | start hempty _ => exact .start (congrArg IntervalTree.cached hempty)
  | @call f f' c outcome _ hc hcall ih =>
    cases c with
    | insert id =>
      -- The reach is reset before the insertion, an edit that changes no node.
      obtain ⟨s, x, hnode, hinsert⟩ := toCached_insert hcall
      have hid : id < s.size := Store.size_eq_of_node hnode ▸ hc
      exact (ih.edit (s := s) x fun _ _ => congrFun hnode _).call
        (c := .insert reachSummary id (.of compareStart)) (.inl ⟨hspares, hid⟩) hinsert
    | delete id =>
      refine ih.call (c := .delete reachSummary id) (hc.imp (fun hholds => ⟨hspares, hholds⟩) ?_)
        (toCached_delete hcall)
      rintro ⟨r, f₁, hrejected⟩
      exact ⟨r, _, toCached_delete hrejected⟩
    | clear => exact ih.call (c := .clear) (.inl ⟨trivial, trivial⟩) (toCached_clear hcall)
  | @setRange f id start stop s x _ hrun ih =>
    obtain ⟨-, -, -, rfl, rfl⟩ := Update.eq_of_setRange hrun
    refine ih.edit _ fun j _ => congrFun ?_ j
    exact Store.node_modifyEntry (s := f.store) (f := fun e : Entry κ =>
      { e with start, stop, reach := stop }) fun _ => rfl
  | edit context _ hs _ ih =>
    refine ih.edit context fun id hid => ?_
    show Store.node _ id = Store.node _ id
    rw [Store.node_eq_entry, Store.node_eq_entry, hs id hid]
    rfl

end Intervals

/-! ### All calls -/

section FollowsProtocol

variable [Linked ρ] [Listener σ]

/-- With the callbacks `aug`, the request returns if callbacks that would fail are skipped. Whenever
it returns, the callbacks that it makes are by the protocol, and it makes none if a guard turns it
down. -/
def FollowsProtocol
    (on : ∀ {σ : Type} [Listener σ], Augmentation ρ σ → Request ρ σ → Guarded ρ σ τ)
    (s : Store ρ) (t : Tree) (x : σ) (aug : Augmentation ρ σ) (q : Request ρ σ) : Prop :=
  (∃ out, (on aug.orSkip q).run s x = .ok out) ∧
  ∀ out s' x', (on aug q).run s x = .ok ((out, s'), x') → ∃ log,
    (on aug.watched q.watched).run s ([], x) = .ok ((out, s'), (log, x')) ∧
    match out with
    | .ok _ => q.Protocol s t x (log.map Sighting.notice)
    | .error _ => log = []

/-- A request follows the protocol if its watched runs show what came of the tree. -/
theorem FollowsProtocol.of_shown
    {on : ∀ {σ : Type} [Listener σ], Augmentation ρ σ → Request ρ σ → Guarded ρ σ τ}
    (tree : τ → Tree) {s : Store ρ} {t : Tree} {x : σ} {aug : Augmentation ρ σ} {q : Request ρ σ}
    {shape : Shape} (hon : InStep (ρ := ρ) on) (h : t.Keeps s shape)
    (hshown : (on aug.orSkip.watched q.watched).Returns s ([], x)
      (fun t' s' x' => ∃ shape', (tree t').Keeps s' shape' ∧
        q.Shown (fun _ _ => True) s t x shape x'.1 shape')
      fun _ _ x' => x'.1 = []) : FollowsProtocol on s t x aug q := by
  obtain ⟨hreturns, hlogs⟩ := hon.exists_log aug.approximates_orSkip hshown
  refine ⟨hreturns, fun out s' x' hrun => ?_⟩
  obtain ⟨log, hwatched, hlog⟩ := hlogs out s' x' hrun
  refine ⟨log, hwatched, ?_⟩
  cases out with
  | ok t' =>
    obtain ⟨shape', -, hshown⟩ := hlog
    exact hshown.protocol h
  | error r => exact hlog

end FollowsProtocol

/-- In every reachable state, and with any callbacks that spare nodes, all requests follow the
protocol, through the handles of trees and of cached trees. Interval trees are cached trees, and the
calls of theirs that make callbacks are those of the cached tree. Calls with callbacks
lead to no other states of a tree than calls without. -/
theorem callbacks_follow_protocol {ι κ : Type} [Linked ρ] [LawfulLinked ρ] [Listener σ]
    [Spanned ι κ] [LawfulSpanned ι] [LinearOrder κ] :
    (∀ {τ : Type} [DecidableEq τ] (f : Forest τ ρ σ) (i : τ) (q : Request ρ σ)
      (aug : Augmentation ρ σ), f.Reachable → f.Permits i q.call → aug.Spares →
      FollowsProtocol (fun aug q => q.onTree aug (f.trees i)) f.store (f.trees i) f.context aug q ∧
      ∀ out s x, (q.onTree aug (f.trees i)).run f.store f.context = .ok ((out, s), x) →
        (f.after i out s x).Reachable) ∧
    (∀ (f : Cached ρ σ) (q : Request ρ σ) (aug : Augmentation ρ σ), f.Reachable →
      f.Permits q.cachedCall → aug.Spares →
      FollowsProtocol (fun aug q => q.onCached aug f.tree) f.store f.tree.tree f.context aug q) ∧
    ∀ f : Intervals ι σ, f.Reachable → f.toCached.Reachable := by
  refine ⟨fun f i q aug h hq haug => ⟨?_, fun out s x hrun => h.request hq haug hrun⟩,
    fun f q aug h hq haug => ?_, fun f h => h.toCached⟩
  · obtain ⟨shape, hkeeps, hshown⟩ := h.shown hq haug
    exact .of_shown id (f.trees i).inStep hkeeps hshown
  · obtain ⟨shape, hkeeps, hshown⟩ := h.shown hq haug
    exact .of_shown CachedTree.tree f.tree.inStep hkeeps hshown

namespace Cached

/-- The tree of `sample` after its third record was inserted, which took a rotation. -/
def sampleFull : Cached (Entry Nat) Unit where
  store := #[⟨{ left := some 2, right := some 1, color := .black, state := .linked }, 1, 2, 4⟩,
    ⟨{ parent := some 0, state := .linked }, 3, 4, 4⟩,
    ⟨{ parent := some 0, state := .linked }, 0, 1, 1⟩]
  tree := ⟨⟨some 0⟩, some 2⟩
  context := ()

/-- The insertion that led to `sampleFull` makes one rotation. In a deletion of the root from there,
the right child comes into its place. -/
theorem protocol_sample :
    (∃ out log, (Request.onCached reachSummary.watched sample.tree
        (Request.insert 2 (.of compareStart) : Request (Entry Nat) Unit).watched).run sample.store
          ([], ()) = .ok (out, (log, ())) ∧
      log.map Sighting.notice = [.propagate (some 0) none, .rotate 1 0]) ∧
    ∃ out log, (Request.onCached reachSummary.watched sampleFull.tree
        (Request.delete 0 : Request (Entry Nat) Unit).watched).run sampleFull.store ([], ()) =
          .ok (out, (log, ())) ∧
      log.map Sighting.notice = [.copy 0 1, .propagate (some 1) none] := by
  have hspares : (reachSummary : Augmentation (Entry Nat) Unit).Spares := spares_reachSummary
  obtain ⟨-, hcached, -⟩ := callbacks_follow_protocol (ρ := Entry Nat) (σ := Unit)
    (ι := Entry Nat) (κ := Nat)
  have hinsert : sample.call (.insert reachSummary 2 (.of compareStart)) =
      .ok (none, sampleFull) := rfl
  have hfull : sampleFull.Reachable := reachable_sample.call
    (c := .insert reachSummary 2 _) (.inl ⟨hspares, show 2 < 3 by decide⟩) hinsert
  constructor
  · obtain ⟨-, hlog⟩ := hcached sample (.insert 2 (.of compareStart)) reachSummary reachable_sample
      (.inl ⟨Augmentation.spares_none, show 2 < 3 by decide⟩) hspares
    obtain ⟨log, hwatched, -⟩ := hlog _ _ _ rfl
    refine ⟨_, log, hwatched, ?_⟩
    cases hwatched
    rfl
  · obtain ⟨-, hlog⟩ := hcached sampleFull (.delete 0) reachSummary hfull
      (.inl ⟨Augmentation.spares_none, .here rfl⟩) hspares
    obtain ⟨log, hwatched, -⟩ := hlog _ _ _ rfl
    refine ⟨_, log, hwatched, ?_⟩
    cases hwatched
    rfl

end Cached

end RecordTree
