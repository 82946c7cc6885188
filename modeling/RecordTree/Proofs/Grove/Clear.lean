import RecordTree.Proofs.Grove.Apart
import RecordTree.Proofs.Guards

/-!
# `RecordTree.Proofs.Grove.Clear`: what clearing leaves

Clearing takes a tree of any kind apart, and touches no record but those of its nodes.

* `Store.Wiped`: what it leaves of the records, and `Settled.wiped`: that it does.
* `Grove.Kept.returns_insert`: a record that no tree has can go into any tree. No guard turns it
  down, since the guards of an insertion look at nothing but the state of its record.
* `Grove.AcceptsAll`: so can several, one after the other.
* `clear_of_reachable`: all this of the states that calls lead to.
-/

set_option autoImplicit false

namespace RecordTree

variable {ι ρ σ κ : Type}

/-! ### Wiped records -/

/-- In `s'` the records of `l` have no links, are red, and are marked as removed. They are as they
were in `s` besides, and so are all other records altogether. -/
structure Store.Wiped [Linked ρ] (s : Store ρ) (l : List RecordId) (s' : Store ρ) : Prop where
  fetch_of_mem : ∀ j ∈ l, ∃ r, s.fetch j = .ok r ∧ s'.fetch j = .ok (Linked.withNode r .removed)
  fetch_of_not_mem : ∀ j, j ∉ l → s'.fetch j = s.fetch j

/-- A wiped record has the node that a removal leaves. -/
theorem Store.Wiped.node_eq [Linked ρ] [LawfulLinked ρ] {s s' : Store ρ} {l : List RecordId}
    (h : s.Wiped l s') {j : RecordId} (hj : j ∈ l) : s'.node j = .ok .removed := by
  obtain ⟨r, -, hr⟩ := h.fetch_of_mem j hj
  rw [Store.node, hr]
  exact congrArg Except.ok (LawfulLinked.node_withNode r .removed)

/-- A call that leaves the tree empty and no record changed but in its node, wipes the nodes. -/
theorem Settled.wiped [Linked ρ] [LawfulLinked ρ] {s s' : Store ρ} {l : List RecordId} {t : Tree}
    {shape : Shape} (h : Settled s l [] t s' shape) (hpayload : s'.payload = s.payload)
    (hlt : ∀ j ∈ l, j < s.size) : s.Wiped l s' where
  fetch_of_mem j hj := by
    obtain ⟨r, hr⟩ := Store.exists_fetch_of_lt (hlt j hj)
    obtain ⟨r', hr', hnode⟩ := except_functor_map_eq_ok.mp (h.gone j hj List.not_mem_nil)
    refine ⟨r, hr, ?_⟩
    rw [hr', Store.record_eq_of_payload hr hr' (congrFun hpayload j), hnode]
  fetch_of_not_mem j hj :=
    Store.fetch_congr (h.frame j hj List.not_mem_nil) (congrFun hpayload j)

/-! ### Clearing -/

namespace Variety

variable [Spanned ρ κ] [LinearOrder κ] [Listener σ] {v : Variety} {h : v.Handle} {s : Store ρ}
  {shape : Shape} {x : σ}

/-- The call that clears. -/
def clear : (v : Variety) → v.Call ρ σ
  | plain => (RecordTree.Call.clear : RecordTree.Call ρ σ)
  | cached => (CachedCall.clear : CachedCall ρ σ)
  | interval => IntervalCall.clear

variable [LawfulSpanned ρ]

/-- Clearing empties the handle, whatever a cache says, and answers how many nodes there were. -/
theorem returns_clear (hkeeps : (v.tree h).Keeps s shape) :
    (v.run h v.clear).Returns s x
      (fun out s' x' => out = (v.empty, some shape.inorder.length) ∧ x' = x ∧
        s'.payload = s.payload ∧ Settled s shape.inorder [] .empty s' .leaf)
      fun _ _ _ => False := by
  have hclear := Tree.returns_clear (x := x) hkeeps
  -- Handles of the three kinds differ in what they wrap around the tree.
  cases v with
  | plain | cached | interval =>
    simp only [clear, run, IntervalTree.clear, CachedTree.clear, Guarded.returns_bind,
      Guarded.returns_update, Guarded.returns_pure, Update.returns_bind, Update.returns_pure]
    refine hclear.mono ?_
    rintro ⟨t, n⟩ s' x' ⟨rfl, rfl, hx, hpayload, hs⟩
    exact ⟨rfl, hx, hpayload, hs⟩

/-! ### Insertions -/

/-- An insertion of a record that is not linked is not turned down. -/
theorem not_rejected_insert {c : v.Call ρ σ} {id : RecordId} {compare : Comparator ρ σ}
    (hinsert : v.toPlain c = .insert id compare) (hstate : s.isLinked id = false) {r : Rejection}
    {s' : Store ρ} {x' : σ} : (v.run h c).run s x ≠ .ok ((.error r, s'), x') := by
  intro hrun
  -- Whatever the kind, the call ends in an insertion that goes by the state of the record.
  have hverdict : (if s.isLinked id then some Kind.doubleInsert else none) = some r.kind := by
    cases v with
    | plain =>
      obtain rfl : c = RecordTree.Call.insert id compare := hinsert
      have hdecides := ((Request.insert id compare).decides s).1 h
      exact (hdecides.bind_pure (·, none) _ .none x _ _ _ hrun).1
    | cached =>
      cases c with
      | insert aug j compare' =>
        cases hinsert
        have hdecides : Guarded.Decides (fun aug => CachedTree.insertWith aug h id compare) s _ :=
          CachedTree.decides_insertWith h id compare s
        exact (hdecides.bind_pure (·, none) _ aug x _ _ _ hrun).1
      | link aug vacancy j | delete aug j | replace old new | clear => cases hinsert
    | interval =>
      cases c with
      | insert j =>
        cases hinsert
        have hdecides : Guarded.Decides (σ := σ) (fun aug => IntervalTree.insertWith aug h id) s
            _ := IntervalTree.decides_insertWith h id s
        exact (hdecides.bind_pure (·, none) _ reachSummary x _ _ _ hrun).1
      | delete j | clear => cases hinsert
  rw [hstate] at hverdict
  cases hverdict

end Variety

namespace Grove

variable [Spanned ρ κ] [LinearOrder κ] {kind : ι → Variety} {f f' : Grove kind ρ σ}
  {shapes : ι → Shape} {i k : ι} [DecidableEq ι] [Listener σ]

/-- The records can go in one after the other, each into whichever tree, and at whichever place its
comparator says. -/
def AcceptsAll (f : Grove kind ρ σ) : List RecordId → Prop
  | [] => True
  | id :: ids => ∀ k (c : (kind k).Call ρ σ) compare, (kind k).Bare c →
      (kind k).toPlain c = .insert id compare →
      ∃ answer f', f.call k c = .ok (.ok answer, f') ∧ f'.Holds k id ∧ f'.AcceptsAll ids

omit [DecidableEq ι] [Listener σ] in
/-- Clearing is permitted in every state. -/
theorem permits_clear (f : Grove kind ρ σ) (i : ι) : f.Permits i (kind i).clear := by
  have hclear : ∀ v : Variety, v.Bare (v.clear (ρ := ρ) (σ := σ)) ∧
      v.toPlain (v.clear (ρ := ρ) (σ := σ)) = .clear := by
    intro v
    cases v <;> exact ⟨trivial, rfl⟩
  obtain ⟨hbare, hplain⟩ := hclear (kind i)
  refine ⟨hbare, ?_⟩
  rw [hplain]
  trivial

variable [LawfulSpanned ρ]

/-- A record that is in no tree can go into any of them. -/
theorem Kept.returns_insert (h : f.Kept shapes) {c : (kind k).Call ρ σ} {id : RecordId}
    {compare : Comparator ρ σ} (hbare : (kind k).Bare c)
    (hinsert : (kind k).toPlain c = .insert id compare) (hid : id < f.store.size)
    (hfree : ∀ j, ¬ f.Holds j id) :
    ∃ answer f' shapes', f.call k c = .ok (.ok answer, f') ∧ f'.Kept shapes' ∧ f'.Holds k id ∧
      f'.store.size = f.store.size ∧ ∀ i j, f'.Holds i j → f.Holds i j ∨ j = id := by
  have hpermits : f.Permits k c := ⟨hbare, by rw [hinsert]; exact hid⟩
  obtain ⟨out, f', hcall, hout⟩ := h.returns_call hpermits
  cases out with
  | error r =>
    -- A guard would have found the record linked, and then it would be in some tree.
    obtain ⟨n, hn⟩ := Store.exists_node_of_lt hid
    have hstate : f.store.isLinked id = false := by
      rw [Store.isLinked_of_node hn, decide_eq_false_iff_not]
      exact (h.shaped.free_iff hn).mp hfree
    obtain ⟨⟨⟨outcome, s⟩, x⟩, hrun, heq⟩ := except_bind_eq_ok.mp hcall
    cases outcome with
    | ok answer => cases heq
    | error r' => exact absurd hrun (Variety.not_rejected_insert hinsert hstate)
  | ok answer =>
    obtain ⟨handle, shape, hs, hhandles⟩ := hout
    obtain ⟨s', handles', x'⟩ := f'
    obtain rfl : handles' = Function.update f.handles k handle := hhandles
    have hkept := h.settle hs x'
    have hmem : ∀ j, j ∈ shape.inorder ↔ j = id ∨ j ∈ (shapes k).inorder := by
      intro j
      rw [hs.mem_iff (h.shaped.keeps k).nodup, hinsert]
      simp [Call.puts, Call.Removes]
    refine ⟨answer, _, _, hcall, hkept, ?_, hs.settled.size, ?_⟩
    · rw [hkept.holds_iff, Function.update_self, hmem]
      exact .inl rfl
    · intro i j hj
      rw [hkept.holds_iff] at hj
      by_cases hi : i = k
      · subst hi
        rw [Function.update_self, hmem] at hj
        exact hj.symm.imp_left h.holds_iff.mpr
      · rw [Function.update_of_ne hi] at hj
        exact .inl (h.holds_iff.mpr hj)

/-- Records that are in no tree can go in, all of them. -/
theorem Kept.acceptsAll {ids : List RecordId} (h : f.Kept shapes) (hids : ids.Nodup)
    (hfree : ∀ id ∈ ids, id < f.store.size ∧ ∀ j, ¬ f.Holds j id) : f.AcceptsAll ids := by
  -- Those still to come are in no tree either, after the first one has gone in.
  induction ids generalizing f shapes with
  | nil => trivial
  | cons id ids ih =>
    obtain ⟨hid, hids⟩ := List.nodup_cons.mp hids
    obtain ⟨hlt, hnot⟩ := hfree id List.mem_cons_self
    intro k c compare hbare hinsert
    obtain ⟨answer, f', shapes', hcall, hkept, hholds, hsize, hold⟩ :=
      h.returns_insert hbare hinsert hlt hnot
    refine ⟨answer, f', hcall, hholds, ih hkept hids fun j hj => ?_⟩
    obtain ⟨hjlt, hjnot⟩ := hfree j (List.mem_cons_of_mem id hj)
    refine ⟨hsize ▸ hjlt, fun i hi => ?_⟩
    rcases hold i j hi with hi | rfl
    · exact hjnot i hi
    · exact hid hj

/-- Clearing a tree of any kind wipes its nodes. -/
theorem Kept.returns_clear (h : f.Kept shapes) (i : ι) :
    ∃ s', f.call i (kind i).clear = .ok (.ok (some (shapes i).inorder.length),
        ⟨s', Function.update f.handles i (kind i).empty, f.context⟩) ∧
      f.store.Wiped (shapes i).inorder s' := by
  obtain ⟨out, s', x', hrun, hout⟩ :=
    Variety.returns_clear (x := f.context) (v := kind i) (h := f.handles i) (h.shaped.keeps i)
  cases out with
  | error r => exact hout.elim
  | ok out =>
    obtain ⟨rfl, rfl, hpayload, hs⟩ := hout
    refine ⟨s', except_bind_eq_ok.mpr ⟨_, hrun, rfl⟩, hs.wiped hpayload fun j hj => ?_⟩
    exact (h.shaped.keeps i).lt_size hj

end Grove

/-! ### Cached trees with callbacks -/

namespace Cached

variable [Linked ρ] [LawfulLinked ρ] [Listener σ] {f : Cached ρ σ} {shape : Shape}

omit [LawfulLinked ρ] in
/-- A clearing that returns is a call that no guard turned down. -/
theorem call_clear {s : Store ρ} {t : CachedTree} {n : Nat} {x : σ}
    (hrun : f.tree.clear f.store f.context = .ok (((t, n), s), x)) :
    f.call .clear = .ok (none, ⟨s, t, x⟩) := by
  have hreturns : (CachedCall.clear.run f.tree : Guarded ρ σ CachedTree).Returns f.store f.context
      (fun t' s' x' => t' = t ∧ s' = s ∧ x' = x) fun _ _ _ => False := by
    simp only [CachedCall.run, Guarded.returns_bind, Guarded.returns_update, Guarded.returns_pure]
    exact ⟨_, _, _, hrun, rfl, rfl, rfl⟩
  obtain ⟨outcome, s', x', hcall, hout⟩ := hreturns
  cases outcome with
  | error r => exact hout.elim
  | ok t' =>
    obtain ⟨rfl, rfl, rfl⟩ := hout
    exact except_bind_eq_ok.mpr ⟨_, hcall, rfl⟩

/-- A record that is not linked can go into a cached tree, with callbacks that spare nodes. -/
theorem returns_insert_of_state (h : f.tree.Keeps f.store shape) {aug : Augmentation ρ σ}
    (hspares : aug.Spares) (compare : Comparator ρ σ) {id : RecordId} {n : Node}
    (hn : f.store.node id = .ok n) (hstate : n.state ≠ .linked) :
    ∃ f', f.call (.insert aug.orSkip id compare) = .ok (none, f') ∧ f'.Holds id := by
  obtain ⟨outcome, s, x, hrun, hout⟩ := CachedTree.returns_insertWith (x := f.context)
    hspares.turns (hspares.grows id) compare h hn fun _ _ => trivial
  cases outcome with
  | error r => exact absurd hout.1 hstate
  | ok t =>
    obtain ⟨-, C, -, -, k, -, shape', hs, hleftmost, -⟩ := hout
    refine ⟨⟨s, t, x⟩, except_bind_eq_ok.mpr ⟨_, hrun, rfl⟩, ?_⟩
    rw [holds_iff ⟨hs.keeps, hleftmost⟩, hs.inorder]
    exact List.mem_append_right C.before List.mem_cons_self

omit [Listener σ] in
/-- Clearing the tree wipes its nodes. -/
theorem returns_clear (h : f.tree.Keeps f.store shape) :
    ∃ s', f.tree.clear f.store f.context = .ok (((.empty, shape.inorder.length), s'), f.context) ∧
      f.store.Wiped shape.inorder s' := by
  obtain ⟨⟨t, n⟩, s', x', hrun, rfl, rfl, rfl, hpayload, hs⟩ :=
    CachedTree.returns_clear (x := f.context) h
  exact ⟨s', hrun, hs.wiped hpayload fun j hj => h.keeps.lt_size hj⟩

end Cached

/-! ### Reachable states -/

/-- In every reachable state, clearing a tree of any kind returns, and answers how many nodes the
tree had. Its handle is empty then, with no cached node if it has a cache. The nodes of the tree are
wiped, and no other record and no other handle has changed. All records that were wiped can go in
again, one after the other, into whichever trees.

So it is with a cached tree that is kept with callbacks that spare nodes. There, a record that was
wiped can go in again with such callbacks, if they are skipped where they would fail. -/
theorem clear_of_reachable {ι κ : Type} [Linked ρ] [LawfulLinked ρ] [Listener σ] [Spanned ι κ]
    [LawfulSpanned ι] [LinearOrder κ] :
    (∀ {τ : Type} [DecidableEq τ] {kind : τ → Variety} (f : Grove kind ι σ) (i : τ), f.Reachable →
      ∃ l f', (f.forest.trees i).walk f.store .ascending = .ok l ∧ l.Nodup ∧
        (∀ j, j ∈ l ↔ f.Holds i j) ∧
        f.call i (kind i).clear = .ok (.ok (some l.length), f') ∧
        f'.handles = Function.update f.handles i (kind i).empty ∧ f'.context = f.context ∧
        f.store.Wiped l f'.store ∧ f'.Reachable ∧
        ∀ ids, ids.Nodup → ids ⊆ l → f'.AcceptsAll ids) ∧
    ∀ f : Cached ρ σ, f.Reachable →
      ∃ l s', f.tree.tree.walk f.store .ascending = .ok l ∧ l.Nodup ∧ (∀ j, j ∈ l ↔ f.Holds j) ∧
        f.tree.clear f.store f.context = .ok (((.empty, l.length), s'), f.context) ∧
        f.store.Wiped l s' ∧ Cached.Reachable ⟨s', .empty, f.context⟩ ∧
        ∀ id ∈ l, ∀ (aug : Augmentation ρ σ) compare, aug.Spares →
          ∃ f', Cached.call ⟨s', .empty, f.context⟩ (.insert aug.orSkip id compare) =
            .ok (none, f') ∧ f'.Holds id := by
  constructor
  · intro τ _ kind f i hreachable
    obtain ⟨shapes, hkept⟩ := hreachable.exists_kept
    have hkeeps := hkept.shaped.keeps i
    obtain ⟨s', hcall, hwiped⟩ := hkept.returns_clear i
    have hreachable' := hreachable.call (f.permits_clear i) hcall
    refine ⟨_, _, hkeeps.walk_ascending, hkeeps.nodup, fun j => hkept.holds_iff.symm, hcall, rfl,
      rfl, hwiped, hreachable', fun ids hids hsub => ?_⟩
    obtain ⟨shapes', hkept'⟩ := hreachable'.exists_kept
    -- What is marked as removed is not linked, so no tree of the new state has it.
    refine hkept'.acceptsAll hids fun id hid => ?_
    have hnode := hwiped.node_eq (hsub hid)
    refine ⟨Store.lt_of_node hnode, (hkept'.shaped.free_iff hnode).mpr (by decide)⟩
  · intro f hreachable
    obtain ⟨shape, hkeeps⟩ := hreachable.exists_keeps
    obtain ⟨s', hclear, hwiped⟩ := Cached.returns_clear hkeeps
    have hcall := Cached.call_clear hclear
    refine ⟨_, s', hkeeps.keeps.walk_ascending, hkeeps.keeps.nodup,
      fun j => (Cached.holds_iff hkeeps).symm, hclear, hwiped,
      hreachable.call (c := .clear) (.inl ⟨trivial, trivial⟩) hcall, ?_⟩
    intro id hid aug compare hspares
    exact Cached.returns_insert_of_state (CachedTree.keeps_empty s') hspares compare
      (hwiped.node_eq hid) (by decide)

/-- The interval of the tree at `true` of `Grove.sample` is wiped when that is cleared, and can go
into the other tree then. So can the first node of `Cached.sample` go in again. -/
theorem clear_sample :
    (∃ f', Grove.sample.call true IntervalCall.clear = .ok (.ok (some 1), f') ∧
      f'.store.node 0 = .ok .removed ∧
      ∃ answer f'', f'.call false (Call.insert 0 (.of compareStart)) = .ok (.ok answer, f'') ∧
        f''.Holds false 0) ∧
    ∃ s', Cached.sample.tree.clear Cached.sample.store () = .ok (((.empty, 2), s'), ()) ∧
      ∃ f', Cached.call ⟨s', .empty, ()⟩ (.insert (.orSkip .none) 0 (.of compareStart)) =
        .ok (none, f') ∧ f'.Holds 0 := by
  obtain ⟨hgrove, -⟩ :=
    clear_of_reachable (ρ := Node) (σ := Unit) (ι := Entry Nat) (κ := Nat)
  obtain ⟨-, hcached⟩ :=
    clear_of_reachable (ρ := Entry Nat) (σ := Unit) (ι := Entry Nat) (κ := Nat)
  constructor
  · obtain ⟨l, f', hwalk, -, -, hclear, -, -, hwiped, -, haccepts⟩ :=
      hgrove Grove.sample true Grove.reachable_sample
    obtain rfl : l = [0] := (Except.ok.inj hwalk).symm
    -- What was cleared away may go into the other tree.
    have hagain := haccepts [0] (List.nodup_singleton 0) (List.Subset.refl _)
    obtain ⟨answer, f'', hcall, hholds, -⟩ :=
      hagain false (Call.insert 0 (.of compareStart)) _ trivial rfl
    exact ⟨f', hclear, hwiped.node_eq (by decide), answer, f'', hcall, hholds⟩
  · obtain ⟨l, s', hwalk, -, -, hclear, -, -, hagain⟩ :=
      hcached Cached.sample Cached.reachable_sample
    obtain rfl : l = [0, 1] := (Except.ok.inj hwalk).symm
    exact ⟨s', hclear, hagain 0 (by decide) .none (.of compareStart) Augmentation.spares_none⟩

end RecordTree
