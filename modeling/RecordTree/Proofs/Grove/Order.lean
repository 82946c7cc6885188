import RecordTree.Proofs.Grove.Invariant
import RecordTree.Proofs.Walk.SharedChild

/-!
# `RecordTree.Proofs.Grove.Order`: trees that collect their nodes in order

`Grove.Collects` is a run on one tree of a grove by insertions under a total preorder of the
records, deletions and clearing, while anything at all goes on in the other trees. It keeps more
than other runs do (`Grove.Ordered`): the nodes are sorted, and a cache names the first one.

* `Grove.Ordered.of_call`: the step. An insertion puts its node where a descent through a sorted
  tree ends, and calls on other trees touch nothing of this one.
* `Grove.Collects.exists_ordered`: the run.
-/

set_option autoImplicit false

namespace RecordTree

open Std

variable {ι ρ σ κ : Type}

/-- The calls that keep a tree sorted. -/
def Call.Gathers (order : ρ → ρ → Ordering) : Call ρ σ → Prop
  | insert _ compare => compare.Answers order
  | delete _ | clear => True
  | link _ _ | replace _ _ => False

/-- Sorted lists stay so while their records stay. -/
theorem Store.Sorted.of_fetch_eq {s s' : Store ρ} {order : ρ → ρ → Ordering} {l : List RecordId}
    (h : s.Sorted order l) (hs : ∀ j ∈ l, s'.fetch j = s.fetch j) : s'.Sorted order l := by
  refine List.Pairwise.imp_of_mem (fun {a b} ha hb hab => ?_) h
  rwa [hs a ha, hs b hb]

namespace Variety

/-- The node that the handle has cached. -/
def leftmost : (v : Variety) → v.Handle → Option RecordId
  | plain, _ => none
  | cached, t => CachedTree.leftmost t
  | interval, t => (IntervalTree.cached t).leftmost

variable [Spanned ρ κ] [LinearOrder κ] [LawfulSpanned ρ] {v : Variety} {f : Forest ι ρ σ}
  {shapes : ι → Shape} {i : ι} {s : Store ρ} {shape : Shape} {order : ρ → ρ → Ordering}

omit [LawfulSpanned ρ] in
/-- A call that gathers keeps a tree sorted. -/
theorem Settles.sorted [TransCmp order] (hblind : ∀ r n, order (Linked.withNode r n) r = .eq)
    {c : RecordTree.Call ρ σ} {h : v.Handle} (hs : v.Settles f shapes i c h s shape)
    (hv : v ≠ interval) (hf : f.Shaped shapes) (hc : f.Suits i c) (hgathers : c.Gathers order)
    (hsorted : f.store.Sorted order (shapes i).inorder) : s.Sorted order shape.inorder := by
  have hpayload := hs.payload_eq hv
  have hnew : f.store.Sorted order shape.inorder := by
    have htakes := hs.takes
    cases c with
    | insert id compare =>
      obtain ⟨l, r, hold, hnew, hplace⟩ := htakes
      obtain ⟨hl, hr⟩ := hplace order hgathers (hsorted.pairwise_ordersBefore id)
      rw [hold] at hsorted
      rw [hnew]
      refine hsorted.insert hc (fun j hj => (hf.keeps i).lt_size ?_) hl hr
      rw [hold]
      exact List.mem_append_left r hj
    | delete id =>
      obtain ⟨l, r, hold, hnew⟩ := htakes
      rw [hold] at hsorted
      rw [hnew]
      exact hsorted.sublist ((List.sublist_cons_self id r).append_left l)
    | clear =>
      rw [show shape.inorder = [] from htakes]
      exact .nil
    | link slot id | replace old new => exact hgathers.elim
  -- The call changed nodes only, which the order does not look at.
  refine hnew.congr fun j hj => Store.keepsOrder_of_payload hblind hpayload ?_
  rw [← hs.settled.size]
  exact hs.settled.keeps.lt_size hj

variable [Listener σ]

/-- A call that gathers keeps the cache of a cached tree right. -/
theorem leftmost_eq_of_cached {t t' : CachedTree} {c : CachedCall ρ σ} {x x' : σ}
    (hkeeps : t.Keeps f.store (shapes i)) (hbare : c.Bare) (hgathers : c.plain.Gathers order)
    (hc : f.Suits i c.plain) (hs : cached.Settles f shapes i c.plain t' s shape)
    (hrun : (c.run t).run f.store x = .ok ((.ok t', s), x')) :
    t'.leftmost = shape.inorder.head? := by
  have hfits : Cached.Fits ⟨f.store, t, x⟩ c := by
    cases c with
    | insert aug id compare => exact hc
    | delete aug id =>
      obtain ⟨l, r, hlist, -⟩ := hs.takes
      exact (Cached.holds_iff hkeeps).mpr (hlist ▸ List.mem_append_right l List.mem_cons_self)
    | clear => trivial
    | link aug vacancy id | replace old new => exact hgathers.elim
  have hspares : c.Spares := by
    cases c with
    | insert aug id compare | delete aug id | link aug vacancy id =>
      exact (show aug = .none from hbare) ▸ Augmentation.spares_none
    | clear | replace old new => trivial
  -- The run returned, so it does the same with callbacks that would be skipped.
  obtain ⟨outcome, s₁, x₁, hrun₁, hout⟩ := Cached.returns_run hkeeps hspares hfits
  have hsame := c.approximates_orSkip t f.store x _ hrun
  cases hsame.symm.trans hrun₁
  obtain ⟨shape', hkeeps'⟩ := hout
  have hshape : shape' = shape :=
    hkeeps'.keeps.represents.unique hs.settled.keeps.represents
  rw [hkeeps'.leftmost_eq, hshape]

omit [LawfulSpanned ρ] in
/-- A call on a cached tree is one through its handle, but for the answer. -/
theorem run_cached (t : CachedTree) (c : CachedCall ρ σ) :
    c.run t = (do
      let out ← cached.run t c
      pure out.1) := by
  cases c with
  | clear =>
    simp only [CachedCall.run, run, bind_assoc, pure_bind]
  | insert aug id compare | link aug vacancy id | delete aug id | replace old new =>
    simp only [run, bind_assoc, pure_bind]
    exact (bind_pure _).symm

/-- A call that gathers keeps a cache right. -/
theorem leftmost_eq_of_run {h h' : v.Handle} {c : v.Call ρ σ} {answer : Option Nat} {x x' : σ}
    (htree : (v.tree h).Keeps f.store (shapes i))
    (hfirst : v ≠ plain → v.leftmost h = (shapes i).inorder.head?) (hbare : v.Bare c)
    (hgathers : (v.toPlain c).Gathers order) (hc : f.Suits i (v.toPlain c))
    (hs : v.Settles f shapes i (v.toPlain c) h' s shape)
    (hrun : (v.run h c).run f.store x = .ok ((.ok (h', answer), s), x')) (hv : v ≠ plain) :
    v.leftmost h' = shape.inorder.head? := by
  cases v with
  | plain => exact absurd rfl hv
  | cached =>
    have hcall : (CachedCall.run h c).run f.store x = .ok ((.ok h', s), x') := by
      have hmap := Guarded.run_bind_pure (cached.run h c) Prod.fst f.store x
      rw [hrun] at hmap
      rw [show CachedCall.run h c = _ from run_cached h c]
      exact hmap
    exact leftmost_eq_of_cached ⟨htree, hfirst hv⟩ hbare hgathers hc hs hcall
  | interval => exact (IntervalTree.Keeps.cached hs.keeps).leftmost_eq

end Variety

namespace Grove

variable [Spanned ρ κ] [LinearOrder κ] {kind : ι → Variety} {f f' : Grove kind ρ σ}
  {shapes : ι → Shape} {i k : ι} {order : ρ → ρ → Ordering}

/-- What the tree at `i` keeps that collects its nodes under `order`. Interval trees are sorted in
any case. -/
structure Ordered (order : ρ → ρ → Ordering) (i : ι) (f : Grove kind ρ σ) (shapes : ι → Shape) :
    Prop extends f.Kept shapes where
  sorted : kind i ≠ .interval → f.store.Sorted order (shapes i).inorder
  leftmost_eq : kind i ≠ .plain → (kind i).leftmost (f.handles i) = (shapes i).inorder.head?

variable [DecidableEq ι] [Listener σ]

/-- The tree at `i` was empty once, and has since changed by insertions under `order`, deletions and
clearing only. None of its nodes has changed its place in `order` meanwhile. -/
inductive Collects (order : ρ → ρ → Ordering) (i : ι) : Grove kind ρ σ → Prop where
  | start {f : Grove kind ρ σ} : f.Reachable → f.handles i = (kind i).empty → Collects order i f
  /-- A call is made, through this handle or another one. -/
  | call {f f' : Grove kind ρ σ} {k : ι} {c : (kind k).Call ρ σ}
      {outcome : Except Rejection (Option Nat)} :
      Collects order i f → f.Permits k c → (k = i → ((kind k).toPlain c).Gathers order) →
      f.call k c = .ok (outcome, f') → Collects order i f'
  /-- The caller changes what the nodes do not hold, and what the intervals of interval trees do
  not hold either. -/
  | edit {f : Grove kind ρ σ} {s : Store ρ} (context : σ) : Collects order i f →
      s.node = f.store.node →
      (∀ j id, kind j = .interval → f.Holds j id → s.entry id = f.store.entry id) →
      (∀ id, f.Holds i id → f.store.KeepsOrder s order id) →
      Collects order i { f with store := s, context }
  /-- The caller adds a record with a new node. -/
  | push {f : Grove kind ρ σ} {r : ρ} : Collects order i f → Linked.node r = {} →
      Collects order i { f with store := f.store.push r }

variable [LawfulSpanned ρ]

omit [Listener σ] in
/-- What a call settles keeps a tree in order if it does so where it is about that tree. It does not
touch others. -/
theorem Ordered.settle (h : f.Ordered order i shapes) {c : RecordTree.Call ρ σ}
    {handle : (kind k).Handle} {s : Store ρ} {shape : Shape}
    (hs : (kind k).Settles f.forest shapes k c handle s shape)
    (hsorted : k = i → kind k ≠ .interval → s.Sorted order shape.inorder)
    (hfirst : k = i → kind k ≠ .plain → (kind k).leftmost handle = shape.inorder.head?)
    (context : σ) :
    Ordered order i ⟨s, Function.update f.handles k handle, context⟩
      (Function.update shapes k shape) where
  toKept := h.toKept.settle hs context
  sorted := by
    intro hkind
    show s.Sorted order (Function.update shapes k shape i).inorder
    by_cases hk : k = i
    · subst hk
      rw [Function.update_self]
      exact hsorted rfl hkind
    · rw [Function.update_of_ne (Ne.symm hk)]
      refine (h.sorted hkind).of_fetch_eq fun j hj => ?_
      obtain ⟨hold, hnew⟩ := h.shaped.untouched hs.fresh (Ne.symm hk) hj
      exact hs.fetch_eq hold hnew
  leftmost_eq := by
    intro hkind
    show (kind i).leftmost (Function.update f.handles k handle i) =
      (Function.update shapes k shape i).inorder.head?
    by_cases hk : k = i
    · subst hk
      rw [Function.update_self, Function.update_self]
      exact hfirst rfl hkind
    · rw [Function.update_of_ne (Ne.symm hk), Function.update_of_ne (Ne.symm hk)]
      exact h.leftmost_eq hkind

omit [LawfulSpanned ρ] in
/-- A call that returned through a handle left what its run returned. -/
theorem run_of_call {c : (kind k).Call ρ σ} {answer : Option Nat} {handle : (kind k).Handle}
    (hcall : f.call k c = .ok (.ok answer, f'))
    (hhandles : f'.handles = Function.update f.handles k handle) :
    ((kind k).run (f.handles k) c).run f.store f.context =
      .ok ((.ok (handle, answer), f'.store), f'.context) := by
  obtain ⟨⟨⟨outcome, s⟩, x⟩, hrun, heq⟩ := except_bind_eq_ok.mp hcall
  cases outcome with
  | error r => cases heq
  | ok out =>
    cases heq
    have hhandle : Function.update f.handles k out.1 k = Function.update f.handles k handle k :=
      congrFun hhandles k
    rw [Function.update_self, Function.update_self] at hhandle
    subst hhandle
    exact hrun

variable [TransCmp order] {c : (kind k).Call ρ σ} {outcome : Except Rejection (Option Nat)}

/-- The step: a call that gathers keeps its tree in order, and calls on other trees do not touch
it. -/
theorem Ordered.of_call (hblind : ∀ r n, order (Linked.withNode r n) r = .eq)
    (h : f.Ordered order i shapes) (hc : f.Permits k c)
    (hgathers : k = i → ((kind k).toPlain c).Gathers order)
    (hcall : f.call k c = .ok (outcome, f')) : ∃ shapes', f'.Ordered order i shapes' := by
  obtain ⟨outcome', f'', hcall', hout⟩ := h.returns_call hc
  rw [hcall] at hcall'
  cases hcall'
  cases outcome with
  | error r =>
    obtain ⟨s', handles', x'⟩ := f'
    obtain ⟨rfl, rfl⟩ := hout
    exact ⟨shapes, h.toKept.edit x' rfl fun _ _ _ _ => rfl, h.sorted, h.leftmost_eq⟩
  | ok answer =>
    obtain ⟨handle, shape, hs, hhandles⟩ := hout
    have hrun := run_of_call hcall hhandles
    obtain ⟨s', handles', x'⟩ := f'
    obtain rfl : handles' = Function.update f.handles k handle := hhandles
    refine ⟨_, h.settle hs ?_ ?_ x'⟩
    · rintro rfl hkind
      exact hs.sorted hblind hkind h.shaped hc.2 (hgathers rfl) (h.sorted hkind)
    · rintro rfl hkind
      exact Variety.leftmost_eq_of_run (h.shaped.keeps k) h.leftmost_eq hc.1 (hgathers rfl) hc.2 hs
        hrun hkind

/-- The run: the tree stays sorted, and its cache right. -/
theorem Collects.exists_ordered (hblind : ∀ r n, order (Linked.withNode r n) r = .eq)
    (h : f.Collects order i) : ∃ shapes, f.Ordered order i shapes := by
  induction h with
  | @start f hreach hempty =>
    obtain ⟨shapes, hkept⟩ := hreach.exists_kept
    -- The other handles may have trees already, but the one at `i` has not.
    have hleaf : shapes i = .leaf := by
      have hroot : ((kind i).tree (f.handles i)).root = (shapes i).root? :=
        (hkept.shaped.keeps i).root_eq
      rw [hempty] at hroot
      refine Shape.eq_leaf_of_root? (hroot.symm.trans ?_)
      cases kind i <;> rfl
    refine ⟨shapes, hkept, fun _ => ?_, fun _ => ?_⟩
    · rw [hleaf]
      exact .nil
    · rw [hleaf, hempty]
      cases kind i <;> rfl
  | call _ hc hgathers hcall ih =>
    obtain ⟨shapes, hordered⟩ := ih
    exact hordered.of_call hblind hc hgathers hcall
  | edit context _ hs hentry hkeeps ih =>
    obtain ⟨shapes, hordered⟩ := ih
    refine ⟨shapes, hordered.toKept.edit context hs hentry, fun hkind => ?_, hordered.leftmost_eq⟩
    exact (hordered.sorted hkind).congr fun j hj => hkeeps j (hordered.holds_iff.mpr hj)
  | push _ hr ih =>
    obtain ⟨shapes, hordered⟩ := ih
    refine ⟨shapes, hordered.toKept.push hr, fun hkind => ?_, hordered.leftmost_eq⟩
    exact (hordered.sorted hkind).of_fetch_eq fun j hj =>
      Store.fetch_push_of_lt _ ((hordered.shaped.keeps i).lt_size hj)

end Grove

end RecordTree
