import RecordTree.Proofs.Tree.Repair
import RecordTree.Proofs.Watched.Calls

/-!
# `RecordTree.Proofs.Watched.Answers`: callbacks that return where the tree code makes them

An augmentation can only be relied on for what it is asked. The tree code makes its callbacks for
records of the store, and with links around them that a summary can follow: from the node that a
climb starts at, the parent links lead to `stop` or to the top, by way of different records
(`Store.Climbs`), and the children of these are records too (`Store.Intact`). Callbacks that return
under these conditions answer (`Augmentation.Answers`). The summary of reaches does, whatever the
reaches are (`answers_reachSummary`).

* `Spells.exists_climbs`: in a part of a tree the climb from any position is of that kind, also
  while the links above the part are still to be changed.
* `Augmentation.Answers.turns`, `.grows`, `.shrinks`: callbacks that answer and spare nodes keep the
  contracts, with nothing to keep right.
* `calls_oblivious`: calls do not depend on summaries, neither one by one nor over runs.
-/

set_option autoImplicit false

namespace RecordTree

variable {ρ σ κ τ : Type}

/-! ### Links that a summary can follow -/

section Climbs

variable [Linked ρ]

namespace Store

/-- The record is there, and its children are. -/
def Intact (s : Store ρ) (id : RecordId) : Prop :=
  ∃ n, s.node id = .ok n ∧ ∀ side j, n.child side = some j → j < s.size

/-- The climb from a position by parent links visits the records in the list, which are intact. It
ends at `stop`, or above the top. -/
inductive Climbs (s : Store ρ) (stop : Option RecordId) :
    Option RecordId → List RecordId → Prop where
  | top : Climbs s stop none []
  | stop {id : RecordId} : some id = stop → id < s.size → Climbs s stop (some id) []
  | step {id : RecordId} {n : Node} {path : List RecordId} :
      some id ≠ stop → s.Intact id → s.node id = .ok n → Climbs s stop n.parent path →
      Climbs s stop (some id) (id :: path)

end Store

variable {s s' : Store ρ} {stop up position : Option RecordId} {path : List RecordId}
  {C : Context} {side : Side} {c : Color} {a b u : Shape} {id : RecordId}

/-- A record is intact as long as the nodes are what they were. -/
theorem Store.Intact.congr (h : s.Intact id) (hnode : s'.node = s.node) : s'.Intact id := by
  obtain ⟨n, hn, hchild⟩ := h
  refine ⟨n, (congrFun hnode id).trans hn, fun side j hj => ?_⟩
  rw [Store.size_eq_of_node hnode]
  exact hchild side j hj

/-- An intact record is one of the store. -/
theorem Store.Intact.lt_size (h : s.Intact id) : id < s.size := by
  obtain ⟨n, hn, -⟩ := h
  exact Store.lt_of_node hn

/-- A climb that visits no record twice is not longer than the store. -/
theorem Store.Climbs.length_le (h : s.Climbs stop position path) (hnodup : path.Nodup) :
    path.length ≤ s.size := by
  refine Store.length_le_size hnodup ?_
  clear hnodup
  induction h with
  | top | stop => simp
  | step _ hintact _ _ ih =>
    intro j hj
    rcases List.mem_cons.mp hj with rfl | hj
    · exact hintact.lt_size
    · exact ih j hj

/-- The node at the top of a part of a tree is intact. -/
theorem Spells.intact (h : Spells s up (.join side c a id b)) : s.Intact id := by
  obtain ⟨hn, ha, hb⟩ := spells_join.mp h
  have hroot {u : Shape} (hu : Spells s (some id) u) {j : RecordId} (hj : u.root? = some j) :
      j < s.size := by
    obtain ⟨m, hm, -⟩ := hu.exists_linked (Shape.mem_of_root? hj)
    exact Store.lt_of_node hm
  refine ⟨_, hn, fun side' j hj => ?_⟩
  have hside : side' = side ∨ side' = side.flip := by
    cases side <;> cases side' <;> decide
  rcases hside with rfl | rfl
  · rw [Node.child_placed] at hj
    exact hroot ha hj
  · rw [Node.child_flip_placed] at hj
    exact hroot hb hj

/-- From the node above a position the climb leads to the top of the part that is spelled. It ends
there if `stop` is above the part, and not in it. -/
theorem Spells.exists_climbs (h : Spells s up (C.fill u)) (hnodup : C.ids.Nodup)
    (hup : ∀ j, up = some j → up = stop ∧ j < s.size) (hstop : ∀ j ∈ C.ids, some j ≠ stop) :
    ∃ path, s.Climbs stop (C.parent.or up) path ∧ path.Nodup ∧ ∀ j ∈ path, j ∈ C.ids := by
  -- By induction on the context, which is the way up.
  induction C generalizing u with
  | top =>
    refine ⟨[], ?_, List.nodup_nil, by simp⟩
    show s.Climbs stop up []
    cases up with
    | none => exact .top
    | some j =>
      obtain ⟨hj, hlt⟩ := hup j rfl
      exact .stop hj hlt
  | under side c id sibling above ih =>
    obtain ⟨-, hout, -, habove, -⟩ := Context.nodup_ids_under.mp hnodup
    simp only [Context.mem_ids_under] at hstop
    obtain ⟨path, hclimbs, hpath, hmem⟩ := ih h habove fun j hj => hstop j (.inr (.inr hj))
    have hjoin : Spells s (above.parent.or up) (.join side c u id sibling) :=
      Spells.of_fill (C := above) h
    have hn := (spells_join.mp hjoin).1
    refine ⟨id :: path, ?_, ?_, ?_⟩
    · refine .step (hstop id (.inl rfl)) hjoin.intact hn ?_
      rwa [Node.parent_placed]
    · exact List.nodup_cons.mpr ⟨fun hid => hout (hmem id hid), hpath⟩
    · intro j hj
      rw [Context.mem_ids_under]
      rcases List.mem_cons.mp hj with rfl | hj
      · exact .inl rfl
      · exact .inr (.inr (hmem j hj))

/-- In a tree the climb from any position leads to the root. -/
theorem Tree.HasShape.exists_climbs {t : Tree} (h : t.HasShape s (C.fill u)) :
    ∃ path, s.Climbs none C.parent path ∧ path.Nodup := by
  have hids := (Context.nodup_fill.mp h.nodup).2.1
  obtain ⟨path, hclimbs, hpath, -⟩ : ∃ path, s.Climbs none (C.parent.or none) path ∧ path.Nodup ∧
      ∀ j ∈ path, j ∈ C.ids :=
    h.spells.exists_climbs hids (by simp) fun j _ => Option.some_ne_none j
  rw [Option.or_none] at hclimbs
  exact ⟨path, hclimbs, hpath⟩

end Climbs

/-! ### Callbacks that answer -/

section Answers

variable [Linked ρ]

/-- The callbacks return where the tree code makes them: a recomputation, for a climb by way of
different records that are intact; a copy, for two records; and the call for a rotation, for two
records of which the one that was rotated down is intact. What the records hold, besides their
nodes, is left open. -/
structure Augmentation.Answers (aug : Augmentation ρ σ) : Prop where
  propagate {s : Store ρ} {node stop : Option RecordId} {path : List RecordId} (x : σ) :
    s.Climbs stop node path → path.Nodup → ∃ out, aug.propagate node stop s x = .ok out
  copy {s : Store ρ} {old new : RecordId} (x : σ) :
    old < s.size → new < s.size → ∃ out, aug.copy old new s x = .ok out
  rotate {s : Store ρ} {old new : RecordId} (x : σ) :
    s.Intact old → new < s.size → ∃ out, aug.rotate old new s x = .ok out

/-- A callback that spares nodes and returns leaves all nodes alone. -/
theorem Update.Spares.returns {u : Update ρ σ Unit} (h : u.Spares) {s : Store ρ} {x : σ}
    (hreturns : ∃ out, u s x = .ok out) :
    u.Returns s x fun _ s' _ => s'.node = s.node ∧ True := by
  obtain ⟨⟨⟨a, s'⟩, x'⟩, hrun⟩ := hreturns
  exact ⟨a, s', x', hrun, h s x a s' x' hrun, trivial⟩

namespace Augmentation.Answers

variable {aug : Augmentation ρ σ} (h : aug.Answers) (hspares : aug.Spares)
include h hspares

/-- A recomputation from the node above a position of a tree. -/
theorem returns_propagate {s : Store ρ} {t : Tree} {C : Context} {u : Shape}
    (hshape : t.HasShape s (C.fill u)) (x : σ) :
    (aug.propagate C.parent Option.none).Returns s x fun _ s' _ => s'.node = s.node ∧ True := by
  obtain ⟨path, hclimbs, hpath⟩ := hshape.exists_climbs
  exact (hspares.propagate _ _).returns (h.propagate x hclimbs hpath)

/-- Callbacks that answer go with every rotation of a tree. -/
theorem turns : aug.Turns fun _ _ _ _ => True where
  recolor _ _ := trivial
  rotate {k s x t C side c d a b e id up} hshape _ := by
    have hup : up < s.size := hshape.lt_size (by simp)
    -- The node that went down stands in the position of `up`, at the side to which it went.
    have hid := Spells.intact (hshape.spells.of_fill (C := .under side d up e C))
    exact (hspares.rotate id up).returns (h.rotate x hid hup)

/-- Callbacks that answer go with a link: the recomputation climbs from the parent of the new
node. -/
theorem grows (id : RecordId) : aug.Grows id (fun _ _ _ => True) fun _ _ _ => True where
  propagate hshape _ := h.returns_propagate hspares hshape _

/-- Callbacks that answer go when a node is taken out: the recomputations climb from its place, and
from that of the successor. -/
theorem shrinks (id : RecordId) : aug.Shrinks id (fun _ _ _ => True) fun _ _ _ => True where
  child hshape _ := h.returns_propagate hspares hshape _
  next {s x t C c d l r succ} _ hshape _ := by
    have hid : id < s.size := hshape.lt_size (by simp [← Shape.join_left])
    have hsucc : succ < s.size := hshape.lt_size (by simp [← Shape.join_left])
    refine ((hspares.copy id succ).returns (h.copy x hid hsucc)).mono ?_
    rintro _ s₁ x₁ ⟨hnode, -⟩
    refine ⟨hnode, fun t₂ s₂ _ hshape₂ => ?_⟩
    rw [← Shape.join_left] at hshape₂
    exact h.returns_propagate hspares (C := .under .left c succ r C) hshape₂ x₁
  deep {s x C spine c d l r succ above} _ habove hbefore hid hsucc hnodup hspells _ := by
    refine ((hspares.copy id succ).returns (h.copy x hid hsucc)).mono ?_
    rintro _ s₁ x₁ ⟨hnode, -⟩
    refine ⟨hnode, ?_⟩
    -- The right subtree already hangs on the successor, which is where the climb is to stop.
    obtain ⟨hjoin, -, -⟩ := Context.nodup_fill.mp hnodup
    rw [← Shape.join_left] at hjoin
    obtain ⟨-, hout, -, hright, -⟩ := Shape.nodup_join.mp hjoin
    have hspells₁ := hspells.congr fun j _ => congrFun hnode j
    have hends : ∀ j, some succ = some j → some succ = some succ ∧ j < s₁.size := by
      rintro j ⟨⟩
      exact ⟨rfl, Store.size_eq_of_node hnode ▸ hsucc⟩
    have hbelow : ∀ j ∈ spine.ids, some j ≠ some succ := by
      rintro j hj ⟨⟩
      exact hout (Context.mem_fill.mpr (.inr hj))
    obtain ⟨path, hclimbs, hpath, -⟩ :=
      hspells₁.exists_climbs (Context.nodup_fill.mp hright).2.1 hends hbelow
    rw [habove] at hclimbs
    refine ((hspares.propagate _ _).returns (h.propagate x₁ hclimbs hpath)).mono ?_
    rintro _ s₂ x₂ ⟨hnode₂, -⟩
    refine ⟨hnode₂, fun t₃ s₃ _ hshape₃ => ?_⟩
    rw [← Shape.join_left] at hshape₃
    exact h.returns_propagate hspares (C := .under .left c succ (spine.fill r) C) hshape₃ x₂

end Augmentation.Answers

end Answers

/-! ### The summary of reaches -/

section Reaches

variable [Spanned ρ κ] [LawfulSpanned ρ] [LinearOrder κ]

omit [LawfulSpanned ρ] in
/-- An intact record has a reach to compute. -/
theorem Store.Intact.exists_reachOf {s : Store ρ} {id : RecordId} (h : s.Intact id) :
    ∃ y, s.reachOf id = .ok y := by
  obtain ⟨n, hn, hchild⟩ := h
  exact Store.exists_reachOf hn fun side j hj => Store.exists_node_of_lt (hchild side j hj)

/-- Reaches are recomputed along any climb, whatever they were. -/
theorem returns_raise_of_climbs {s s' : Store ρ} {stop node : Option RecordId}
    {path : List RecordId} {steps : Nat} (h : s.Climbs stop node path)
    (hsteps : path.length < steps) (hnode : s'.node = s.node) (x : σ) :
    (raiseReachFrom stop steps node).Returns s' x fun _ _ _ => True := by
  -- Reaches change on the way, and nodes do not.
  induction h generalizing s' steps with
  | top =>
    unfold raiseReachFrom
    exact Update.returns_pure.mpr trivial
  | stop hid _ =>
    obtain ⟨steps, rfl⟩ := Nat.exists_eq_add_one.mpr hsteps
    unfold raiseReachFrom
    rw [if_pos hid]
    exact Update.returns_pure.mpr trivial
  | @step id n path hid hintact hn _ ih =>
    obtain ⟨steps, rfl⟩ := Nat.exists_eq_add_one.mpr (Nat.zero_lt_of_lt hsteps)
    have hn' : s'.node id = .ok n := (congrFun hnode id).trans hn
    obtain ⟨y, hy⟩ := (hintact.congr hnode).exists_reachOf
    obtain ⟨e, he, rfl⟩ := Store.exists_entry hn'
    unfold raiseReachFrom
    rw [if_neg hid]
    simp only [Update.returns_bind, Update.returns_read, Update.returns_entry, Update.returns_ite,
      Update.returns_pure, Update.returns_setReach]
    refine ⟨y, hy, e, he, fun _ => trivial, fun _ => ⟨Store.lt_of_node hn', ?_⟩⟩
    refine ih ?_ ((Store.node_setReach s' id y).trans hnode)
    simp only [List.length_cons] at hsteps
    omega

/-- The summary of reaches answers. -/
theorem answers_reachSummary : (reachSummary : Augmentation ρ σ).Answers where
  propagate {s node stop path} x hclimbs hpath := by
    have hle := hclimbs.length_le hpath
    have hlimit : s.size < s.repairLimit := by
      unfold Store.repairLimit
      nlinarith
    obtain ⟨a, s', x', hrun, -⟩ :=
      returns_raise_of_climbs hclimbs (Nat.lt_of_le_of_lt hle hlimit) rfl x
    exact ⟨_, hrun⟩
  copy {s old new} x hold hnew := by
    obtain ⟨n, hn⟩ := Store.exists_node_of_lt hold
    obtain ⟨e, he, -⟩ := Store.exists_entry hn
    obtain ⟨a, s', x', hrun, -⟩ : (copyReach old new).Returns s x fun _ _ _ => True :=
      returns_copyReach.mpr ⟨e, he, hnew, trivial⟩
    exact ⟨_, hrun⟩
  rotate {s old new} x hold hnew := by
    obtain ⟨n, hn, hchild⟩ := hold
    obtain ⟨a, s', x', hrun, -⟩ := returns_rotate_reachSummary hn
      (fun side j hj => Store.exists_node_of_lt (hchild side j hj)) hnew x
    exact ⟨_, hrun⟩

end Reaches

/-! ### Calls that return -/

/-- A call that comes to an end does so through a handle. -/
theorem Session.exists_make {f : Session τ ρ σ} {call : τ → Guarded ρ σ τ}
    (h : ∃ out, (call f.handle).run f.store f.context = .ok out) :
    ∃ out g, f.make call = .ok (out, g) := by
  obtain ⟨⟨⟨outcome, s⟩, x⟩, hrun⟩ := h
  cases outcome with
  | ok handle => exact ⟨none, ⟨s, handle, x⟩, except_bind_eq_ok.mpr ⟨_, hrun, rfl⟩⟩
  | error r => exact ⟨some r, ⟨s, f.handle, x⟩, except_bind_eq_ok.mpr ⟨_, hrun, rfl⟩⟩

section Unmoved

variable {α β : Type} [Linked ρ] [Listener σ]

/-- The call returns with the callbacks `aug`, and it returns with none. It comes to the same end
both times: the same handle or rejection, a state that looks alike, and the same nodes. -/
def Session.Unmoved (f : Session τ ρ σ) (V : View ρ σ α β)
    (call : Augmentation ρ σ → τ → Guarded ρ σ τ) (aug : Augmentation ρ σ) : Prop :=
  ∃ out f' g', f.make (call aug) = .ok (out, f') ∧ f.make (call .none) = .ok (out, g') ∧
    V.Same f' g' ∧ g'.store.node = f'.store.node

/-- The request does not depend on callbacks that are hidden. Wherever it returns with such
callbacks, it comes to the same end without them. In reachable states, where it is permitted, it
does return if the callbacks answer. -/
structure Request.IgnoresSummaries (V : View ρ σ α β) (q : Request ρ σ) : Prop where
  tree : Oblivious V fun aug t => q.onTree aug t
  cached : Oblivious V fun aug t => q.onCached aug t
  ofForest {ι : Type} [DecidableEq ι] {f : Forest ι ρ σ} {i : ι} {aug : Augmentation ρ σ} :
    f.Reachable → f.Permits i q.call → aug.HiddenFrom V → aug.Answers →
      Session.Unmoved ⟨f.store, f.trees i, f.context⟩ V (fun aug t => q.onTree aug t) aug
  ofCached {f : Cached ρ σ} {aug : Augmentation ρ σ} :
    f.Reachable → f.Permits q.cachedCall → aug.HiddenFrom V → aug.Answers →
      Session.Unmoved ⟨f.store, f.tree, f.context⟩ V (fun aug t => q.onCached aug t) aug

variable {V : View ρ σ α β} {q : Request ρ σ} {aug : Augmentation ρ σ}

/-- A call that returns, and that does not depend on hidden callbacks. -/
theorem Oblivious.unmoved {call : Augmentation ρ σ → τ → Guarded ρ σ τ} (h : Oblivious V call)
    (haug : aug.HiddenFrom V) {f : Session τ ρ σ}
    (hreturns : ∃ out, (call aug f.handle).run f.store f.context = .ok out) :
    f.Unmoved V call aug := by
  obtain ⟨out, f', hmake⟩ := Session.exists_make hreturns
  obtain ⟨g', hmake', hsame, hnode⟩ := h aug haug f f ⟨rfl, rfl⟩ out f' hmake
  exact ⟨out, f', g', hmake, hmake', hsame, hnode⟩

variable [LawfulLinked ρ]

/-- With callbacks that answer and spare nodes, a request that suits the tree is watched to its
end. -/
theorem Request.returns_of_answers (hanswers : aug.Answers) (hspares : aug.Spares) {s : Store ρ}
    {t : Tree} {x : σ} {shape : Shape} (h : t.Keeps s shape) (hq : q.Suits s t x shape) :
    (q.watched.onTree aug.watched t).Returns s ([], x) (fun _ _ _ => True) fun _ _ _ => True :=
  (returns_watched (P := fun _ _ => True) (hanswers.turns hspares) (hanswers.grows hspares)
    (hanswers.shrinks hspares) (fun _ _ _ _ _ => trivial) h hq q.needs_true).mono
    (fun _ _ _ _ => trivial) fun _ _ _ _ => trivial

/-- A request that goes by what is seen of the records does not depend on hidden callbacks, and
returns with those that answer. -/
theorem Request.ignoresSummaries (hq : q.GoesBy V) : q.IgnoresSummaries V where
  tree := (q.oblivious hq).1
  cached := (q.oblivious hq).2
  ofForest {ι _ f i aug} hreach hpermits hhidden hanswers := by
    obtain ⟨shapes, hshaped⟩ := hreach.exists_shaped
    have hreturns := returns_of_answers hanswers hhidden.spares_of_seen (hshaped.keeps i)
      (hshaped.suits hpermits)
    refine (q.oblivious hq).1.unmoved hhidden ?_
    exact (InStep.exists_log (f.trees i).inStep (.refl aug) hreturns).1
  ofCached {f aug} hreach hpermits hhidden hanswers := by
    obtain ⟨shape, hkeeps⟩ := hreach.exists_keeps
    have hreturns := returns_of_answers hanswers hhidden.spares_of_seen hkeeps.keeps
      (Cached.suits hkeeps hpermits)
    refine (q.oblivious hq).2.unmoved hhidden ?_
    exact (InStep.exists_log f.tree.inStep (.refl aug)
      (returns_onCached_of_tree hkeeps hreturns)).1

end Unmoved

/-! ### All calls -/

/-- No call depends on a summary. Let a request go by a view of records and contexts, and let
callbacks change nothing of what the view shows. Wherever the call with these callbacks returns,
the call with none comes to the same end: the same handle or rejection and the same nodes. In
reachable states both return, if the callbacks do where they are made, as the summary of reaches
does. The view may show a log of the questions to the comparator, so these are the same as well.
Over any run, an interval tree has the same links, colours and states as a plain tree that the same
operations were carried out on. -/
theorem calls_oblivious {ι κ : Type} [Linked ρ] [LawfulLinked ρ] [Listener σ] [Spanned ι κ]
    [LawfulSpanned ι] [LinearOrder κ] {α β : Type} :
    (∀ (V : View ρ σ α β) (q : Request ρ σ), q.GoesBy V → q.IgnoresSummaries V) ∧
    (∀ (V : View ρ σ α β) (id : RecordId) (compare : Comparator ρ σ), V.Suffices compare →
      Request.IgnoresSummaries V.withLog (.insert id (V.logged compare))) ∧
    ((reachSummary : Augmentation ι σ).Answers ∧
      (reachSummary : Augmentation ι σ).HiddenFrom View.reachless) ∧
    ∀ (f : Intervals ι σ) (g : Session Tree ι σ), f.Twins g →
      f.Reachable ∧ g.handle = f.tree.plain ∧ g.store.node = f.store.node ∧
      ∀ c, f.Permits c → ∃ outcome f' g', f.call c = .ok (outcome, f') ∧
        g.make c.plain.run = .ok (outcome, g') ∧ f'.Twins g' := by
  refine ⟨fun V q hq => q.ignoresSummaries hq, fun V id compare hcompare => ?_,
    ⟨answers_reachSummary, leaves_reachSummary View.reachless_setReach⟩, fun f g h => ?_⟩
  · exact Request.ignoresSummaries (q := .insert id (V.logged compare)) hcompare.logged
  · obtain ⟨hreach, hhandle, hnode, -, hcalls⟩ := h.agree
    exact ⟨hreach, hhandle, hnode, hcalls⟩

namespace Intervals

/-- The context of a caller that only keeps a log of what its comparator is asked. -/
abbrev SampleLog := List (Entry Nat × Entry Nat × Ordering) × Unit

/-- The plain tree in `sample`, with a third record, and a caller that keeps a log. -/
def sampleLogged : Session Tree (Entry Nat) SampleLog where
  store := sample.store.push (.of 4 9)
  handle := sample.tree.plain
  context := ([], ())

/-- The tree of `sampleLogged` after its third record was inserted. -/
def sampleGrown : Session Tree (Entry Nat) SampleLog where
  store := #[⟨{ parent := some 1, state := .linked }, 1, 5, 5⟩,
    ⟨{ left := some 0, right := some 2, color := .black, state := .linked }, 2, 3, 9⟩,
    ⟨{ parent := some 1, state := .linked }, 4, 9, 9⟩]
  handle := ⟨some 1⟩
  context := ([(.of 4 9, ⟨{ right := some 1, color := .black, state := .linked }, 1, 5, 5⟩, .gt),
    (.of 4 9, ⟨{ parent := some 0, state := .linked }, 2, 3, 3⟩, .gt)], ())

/-- The insertion takes a rotation, and changes a reach. The links and the questions are those of
the insertion without callbacks. Into the cached tree of another sample the insertion returns with
the callbacks, and so does the deletion of its root. The first of the insertions that led to
`sample` returns on a plain tree as well. -/
theorem oblivious_sample :
    let V : View (Entry Nat) Unit (Entry Nat) Unit := .reachless
    (∃ g, sampleLogged.make (Tree.insertWith .none · 2 (V.logged (.of compareStart))) =
        .ok (none, g) ∧
      g.handle = sampleGrown.handle ∧ g.store.node = sampleGrown.store.node ∧
      g.context = sampleGrown.context) ∧
    (∀ q ∈ [Request.insert 2 (.of compareStart), .delete 1],
      Session.Unmoved ⟨Cached.sample.store, Cached.sample.tree, ()⟩ V
        (fun aug t => q.onCached aug t) reachSummary) ∧
    ∃ outcome f g, sampleBare.call (.insert 0) = .ok (outcome, f) ∧
      Session.make ⟨sampleBare.store, .empty, ()⟩ (IntervalCall.insert 0).plain.run =
        .ok (outcome, g) := by
  intro V
  obtain ⟨hgoes, hlogged, ⟨hanswers, hhidden⟩, htwins⟩ := calls_oblivious (ρ := Entry Nat)
    (σ := Unit) (α := Entry Nat) (β := Unit) (ι := Entry Nat) (κ := Nat)
  refine ⟨?_, fun q hq => ?_, ?_⟩
  · have hview (s : Store (Entry Nat)) (id : RecordId) (reach : Nat) (x : SampleLog) :
        V.withLog.seen (s.setReach id reach) x = V.withLog.seen s x := by
      have hseen : V.seen (s.setReach id reach) () = V.seen s () :=
        View.reachless_setReach s id reach ()
      exact Prod.ext (Prod.mk.inj hseen).1 rfl
    have hmake : sampleLogged.make
        (Tree.insertWith reachSummary · 2 (V.logged (.of compareStart))) =
          .ok (none, sampleGrown) := rfl
    -- The log of the comparator is what shows that both runs ask the same.
    have hoblivious := (hlogged V 2 (.of compareStart) View.suffices_compareStart).tree
    obtain ⟨g, hmake', hsame, hnode⟩ := hoblivious reachSummary (leaves_reachSummary hview)
      sampleLogged sampleLogged ⟨rfl, rfl⟩ none sampleGrown hmake
    exact ⟨g, hmake', hsame.handle_eq, hnode, (Prod.mk.inj hsame.seen_eq).2⟩
  · simp only [List.mem_cons, List.not_mem_nil, or_false] at hq
    rcases hq with rfl | rfl
    · have hsuffices : V.Suffices (.of compareStart) := View.suffices_compareStart
      exact (hgoes V (.insert 2 (.of compareStart)) hsuffices).ofCached Cached.reachable_sample
        (.inl ⟨Augmentation.spares_none, show 2 < 3 by decide⟩) hhidden hanswers
    · exact (hgoes V (.delete 1) trivial).ofCached Cached.reachable_sample
        (.inl ⟨Augmentation.spares_none, .here rfl⟩) hhidden hanswers
  · have hstart : sampleBare.Twins ⟨sampleBare.store, .empty, ()⟩ := by
      refine .start rfl rfl ?_ rfl
      intro id n hn
      have hid : id < 2 := Store.lt_of_node hn
      rcases Nat.le_one_iff_eq_zero_or_eq_one.mp (Nat.le_of_lt_succ hid) with rfl | rfl
      · cases hn
        decide
      · cases hn
        decide
    obtain ⟨-, -, -, hcalls⟩ := htwins _ _ hstart
    obtain ⟨outcome, f, g, hcall, hmake, -⟩ := hcalls (.insert 0) (show 0 < 2 by decide)
    exact ⟨outcome, f, g, hcall, hmake⟩

end Intervals

end RecordTree
