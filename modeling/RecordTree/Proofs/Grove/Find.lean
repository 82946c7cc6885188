import RecordTree.Proofs.Forest.Order
import RecordTree.Proofs.Grove.Validate
import RecordTree.Proofs.Tree.Find

/-!
# `RecordTree.Proofs.Grove.Find`: looking up what the trees hold

A search goes down one path from the root, while nodes on which the probe answers equal may be on
both sides of a node. In the states that calls lead to, that path misses none of them.

* `Tree.Searches`: what a search finds on a tree along which the answers rise.
* `Tree.Locates`: on a tree that is in the order of its records, each of them can be looked up by
  the order, or by a coarser one.
* `find_of_reachable`: reachable trees of all kinds do the first, and those that have collected
  their nodes under an order do the second.
-/

set_option autoImplicit false

namespace RecordTree

open Std

variable {ρ σ : Type} {s : Store ρ} {order : ρ → ρ → Ordering}

/-! ### Searches -/

section Tree

variable [Linked ρ] {t : Tree} {shape : Shape}

/-- A search in the tree returns for every probe. If the answers rise along the ascending walk, it
ends at a node on which the probe answers equal, or at none if there is no such node. -/
def Tree.Searches (t : Tree) (s : Store ρ) (find : Probe ρ σ → Query σ (Option RecordId)) : Prop :=
  ∃ walk, t.walk s .ascending = .ok walk ∧ (∀ j, j ∈ walk ↔ s.Reaches t.root j) ∧
    ∀ probe x, ∃ found x', find probe x = .ok (found, x') ∧
      ∀ answer, probe.Answers answer → s.Rises answer walk → s.Finds answer walk found

/-- The search ends at a node of the tree on which the answer is equal. -/
def Tree.Hits (t : Tree) (s : Store ρ) (find : Query σ (Option RecordId))
    (answer : ρ → Ordering) : Prop :=
  ∀ x, ∃ id r x', find x = .ok (some id, x') ∧ s.Reaches t.root id ∧ s.fetch id = .ok r ∧
    answer r = .eq

/-- Each node of the tree can be looked up. With its own record as the key, the search ends at one
that `order` does not tell from it. With answers that `order` is finer than, it ends at one on which
the answer is equal, if there is one. -/
structure Tree.Locates (t : Tree) (s : Store ρ) (order : ρ → ρ → Ordering)
    (find : Probe ρ σ → Query σ (Option RecordId)) : Prop where
  hits_key : ∀ id key, s.Reaches t.root id → s.fetch id = .ok key →
    ∀ probe, probe.Answers (order · key) → t.Hits s (find probe) (order · key)
  hits_of_coarsens : ∀ answer, Coarsens order answer →
    ∀ id r, s.Reaches t.root id → s.fetch id = .ok r → answer r = .eq →
      ∀ probe, probe.Answers answer → t.Hits s (find probe) answer

/-- A tree whose links spell out a shape can be searched. -/
theorem Tree.HasShape.searches (h : t.HasShape s shape) : t.Searches s (t.find (σ := σ) s) := by
  refine ⟨shape.inorder, h.walk_ascending, fun j => (h.represents.reaches_iff j).symm, ?_⟩
  intro probe x
  exact h.returns_find probe x

/-- In a sorted tree the answers of a coarser order rise, so the search finds what there is. -/
theorem Tree.HasShape.hits_of_coarsens (h : t.HasShape s shape)
    (hsorted : s.Sorted order shape.inorder) {answer : ρ → Ordering}
    (hanswer : Coarsens order answer) {id : RecordId} {r : ρ} (hid : s.Reaches t.root id)
    (hr : s.fetch id = .ok r) (heq : answer r = .eq) {probe : Probe ρ σ}
    (hprobe : probe.Answers answer) :
    t.Hits s (t.find s probe) answer := by
  intro x
  obtain ⟨found, x', hfind, hfinds⟩ := h.returns_find probe x
  have hfound := hfinds answer hprobe (hsorted.rises_of_coarsens hanswer)
  obtain ⟨other, r', rfl, hother, hr', heq'⟩ :=
    hfound.exists_eq ((h.represents.reaches_iff id).mp hid) hr heq
  exact ⟨other, r', x', hfind, (h.represents.reaches_iff other).mpr hother, hr', heq'⟩

/-- In a sorted tree each node can be looked up. -/
theorem Tree.HasShape.locates [TransCmp order] (h : t.HasShape s shape)
    (hsorted : s.Sorted order shape.inorder) : t.Locates s order (t.find (σ := σ) s) where
  hits_key _ key hid hr _ hprobe :=
    h.hits_of_coarsens hsorted (coarsens_key key) hid hr ReflCmp.compare_self hprobe
  hits_of_coarsens _ hanswer _ _ hid hr heq _ hprobe :=
    h.hits_of_coarsens hsorted hanswer hid hr heq hprobe

end Tree

/-! ### Reachable states -/

/-- A search in the tree in the handle. -/
def Variety.find [Linked ρ] : (v : Variety) → v.Handle → Store ρ → Probe ρ σ →
    Query σ (Option RecordId)
  | plain, t => Tree.find t
  | cached, t => CachedTree.find t
  | interval, t => (IntervalTree.cached t).find

/-- A search through a handle of any kind is one in the plain tree in it. -/
theorem Variety.find_eq [Linked ρ] (v : Variety) (h : v.Handle) :
    v.find h s = (v.tree h).find (σ := σ) s := by
  cases v <;> rfl

/-- In every reachable state, a search in a tree of any kind finds a node on which the probe answers
equal exactly if there is one, as long as the answers rise along the ascending walk.

A tree that has collected its nodes under a total preorder by insertions and deletions is one where
each of them can be looked up. Trees of intervals always are, by start. -/
theorem find_of_reachable {ι κ : Type} [Linked ρ] [LawfulLinked ρ] [Listener σ] [Spanned ι κ]
    [LawfulSpanned ι] [LinearOrder κ] :
    (∀ {τ : Type} [DecidableEq τ] (f : Forest τ ρ σ), f.Reachable →
      ∀ i, (f.trees i).Searches f.store ((f.trees i).find (σ := σ) f.store)) ∧
    (∀ f : Cached ρ σ, f.Reachable →
      f.tree.tree.Searches f.store (f.tree.find (σ := σ) f.store)) ∧
    (∀ f : Intervals ι σ, f.Reachable →
      f.tree.plain.Searches f.store (f.tree.cached.find (σ := σ) f.store) ∧
      f.tree.plain.Locates f.store compareStart (f.tree.cached.find (σ := σ) f.store)) ∧
    (∀ {τ : Type} [DecidableEq τ] {kind : τ → Variety} (f : Grove kind ι σ), f.Reachable →
      ∀ i, (f.forest.trees i).Searches f.store ((kind i).find (σ := σ) (f.handles i) f.store)) ∧
    (∀ {τ : Type} [DecidableEq τ] (f : Forest τ ρ σ) (order : ρ → ρ → Ordering) i ids,
      TransCmp order → (∀ r n, order (Linked.withNode r n) r = .eq) → f.Collects order i ids →
      (f.trees i).Locates f.store order ((f.trees i).find (σ := σ) f.store)) ∧
    ∀ {τ : Type} [DecidableEq τ] {kind : τ → Variety} (f : Grove kind ι σ)
      (order : ι → ι → Ordering) i,
      TransCmp order → (∀ r n, order (Linked.withNode r n) r = .eq) → f.Collects order i →
      kind i ≠ .interval →
      (f.forest.trees i).Locates f.store order ((kind i).find (σ := σ) (f.handles i) f.store) := by
  refine ⟨?_, ?_, ?_, ?_, ?_, ?_⟩
  · intro τ _ f hreachable i
    obtain ⟨shapes, hshaped⟩ := hreachable.exists_shaped
    exact (hshaped.keeps i).searches
  · intro f hreachable
    obtain ⟨shape, hkeeps⟩ := hreachable.exists_keeps
    exact hkeeps.keeps.searches
  · intro f hreachable
    obtain ⟨shape, hkeeps⟩ := hreachable.exists_keeps
    exact ⟨hkeeps.cached.keeps.searches, hkeeps.cached.keeps.locates hkeeps.sorted⟩
  · intro τ _ kind f hreachable i
    obtain ⟨shapes, hkept⟩ := hreachable.exists_kept
    rw [Variety.find_eq]
    exact (hkept.shaped.keeps i).searches
  · intro τ _ f order i ids _ hblind hcollects
    obtain ⟨shapes, hshaped, hsorts⟩ := hcollects.exists_sorts hblind
    -- The run has a shape of its own, along which it is sorted.
    exact (hshaped.keeps i).locates hsorts.sorted
  · intro τ _ kind f order i _ hblind hcollects hkind
    obtain ⟨shapes, hordered⟩ := hcollects.exists_ordered hblind
    rw [Variety.find_eq]
    exact (hordered.shaped.keeps i).locates (hordered.sorted hkind)

/-- In `Intervals.sample`, a search for the start of the second interval ends at it, and one that
goes right everywhere finds nothing. The two nodes at `true` of `Forest.pair` are equal, and a
search with the second one as the key ends at one of them. -/
theorem find_sample :
    Intervals.sample.tree.plain.Hits Intervals.sample.store
      (Intervals.sample.tree.cached.find (σ := Unit) Intervals.sample.store
        (.of (compareStart · (Entry.of 2 9))))
      (compareStart · (Entry.of 2 9)) ∧
    (∃ x, Intervals.sample.tree.cached.find Intervals.sample.store (.of fun _ => .lt) () =
      .ok (none, x)) ∧
    (Forest.pair.trees true).Hits Forest.pair.store
      ((Forest.pair.trees true).find (σ := Unit) Forest.pair.store (.of fun _ => .eq))
      fun _ => .eq := by
  obtain ⟨-, -, hintervals, -, hcollects, -⟩ :=
    find_of_reachable (ρ := Node) (σ := Unit) (ι := Entry Nat) (κ := Nat)
  obtain ⟨⟨walk, -, -, hsearch⟩, hlocates⟩ :=
    hintervals Intervals.sample Intervals.reachable_sample
  refine ⟨?_, ?_, ?_⟩
  · -- An interval that starts where the second one does is found there.
    have hreaches : Intervals.sample.store.Reaches (some 0) 1 :=
      .child (n := { right := some 1, color := .black, state := .linked }) .right rfl (.here rfl)
    exact hlocates.hits_of_coarsens _ (coarsens_key _) 1 _ hreaches rfl rfl _ (Probe.answers_of _)
  · -- A probe that always answers less finds nothing.
    obtain ⟨found, x, hfind, hfinds⟩ := hsearch (.of fun _ => .lt) ()
    have hrises : Intervals.sample.store.Rises (fun _ => .lt) walk :=
      List.pairwise_iff_forall_sublist.mpr fun _ _ _ _ _ => ⟨fun _ => rfl, fun h => by cases h⟩
    cases found with
    | none => exact ⟨x, hfind⟩
    | some id =>
      obtain ⟨-, _, -, heq⟩ := hfinds _ (Probe.answers_of _) hrises
      cases heq
  · -- Where all records order the same, a key finds one of them.
    have horder : TransCmp fun _ _ : Node => Ordering.eq :=
      { eq_swap := rfl, isLE_trans := fun _ h => h }
    have hhalf : Forest.pairHalf.Collects (fun _ _ => .eq) true [0] :=
      .insert (.start Forest.reachable_pairBare rfl) (show 0 < 3 by decide)
        (Comparator.answers_of _) Forest.pairBare_insert
    have hpair : Forest.pair.Collects (fun _ _ => .eq) true [0, 1] :=
      .insert hhalf (show 1 < 3 by decide) (Comparator.answers_of _) Forest.pairHalf_insert
    have hreaches : Forest.pair.store.Reaches (some 0) 1 :=
      .child (n := { right := some 1, color := .black, state := .linked }) .right rfl (.here rfl)
    exact (hcollects Forest.pair _ true _ horder (fun _ _ => rfl) hpair).hits_key 1 _ hreaches rfl _
      (Probe.answers_of _)

end RecordTree
