import RecordTree.Proofs.Interval.EmptyInterval

/-!
# `RecordTree.Proofs.Interval.Search`: the search in a subtree, and where it lets a caller stop

`Store.searchOverlap` goes down from a node whose subtree reaches past the lower bound of the
query, and follows the reaches without ever coming back. `Intervals.search_of_reachable` says what
it finds below any node of an interval tree: the first hit in order, if there is one. If there is
none, it has gone past a node that starts at the upper bound or later. All nodes that follow the
subtree in the ascending walk are late then too, so the first hit from the subtree on, however far
the walk goes, is what the search of the subtree answers.

The bounds are any two keys. The query may be empty, and so may the intervals.
-/

set_option autoImplicit false

namespace RecordTree

variable {ρ σ κ : Type} [Spanned ρ κ] [LinearOrder κ] {s : Store ρ} {lo hi : κ} {id : RecordId}

/-- What follows a part of a sorted list that has a late node is late. -/
theorem Store.Sorted.late_of_exists {l r : List RecordId} (h : s.Sorted compareStart (l ++ r))
    (hlate : ∃ j ∈ l, s.Late hi j) : ∀ k ∈ r, s.Late hi k := by
  obtain ⟨j, hj, hj'⟩ := hlate
  obtain ⟨l₁, l₂, rfl⟩ := List.append_of_mem hj
  rw [List.append_assoc, List.cons_append] at h
  intro k hk
  exact h.late hj' (List.mem_append_right l₂ hk)

variable [LawfulSpanned ρ]

/-- The search below a node of the tree that reaches past `lo`. -/
theorem IntervalTree.Keeps.searchOverlap_eq {t : IntervalTree} {C : Context} {u : Shape}
    (h : t.Keeps s (C.fill u)) (hroot : u.root? = some id) {e : Entry κ}
    (he : s.entry id = .ok e) (hpast : lo < e.reach) (hi : κ) :
    s.searchOverlap id lo hi = .ok (u.inorder.find? (s.hits lo hi)) ∧
      (u.inorder.find? (s.hits lo hi) = none → ∃ j ∈ u.inorder, s.Late hi j) := by
  have hshape := h.cached.keeps.toHasShape
  have hexact : Exact s.payload u := (exact_fill.mp h.exact).1
  have hspells : Spells s C.parent u := (represents_fill.mp hshape.represents).2
  have hsub : u.inorder.Sublist (C.fill u).inorder := by
    rw [Context.inorder_fill]
    exact (List.sublist_append_right _ _).trans (List.sublist_append_left _ _)
  have hfarthest : (lo : WithBot κ) < u.farthest (Payloads.stopAt s.payload) := by
    rw [← hexact.reachAt_eq hroot, (Store.payload_of_entry he).2.2]
    exact WithBot.coe_lt_coe.mpr hpast
  have hsize : u.size ≤ s.walkLimit := (Store.lt_walkLimit hshape.size_le_of_fill).le
  obtain ⟨heq, hlate⟩ :=
    Store.searchOverlapFrom_eq hi hspells hexact (h.sorted.sublist hsub) hroot hfarthest hsize
  rw [← List.head?_filter]
  exact ⟨heq, fun hnone => hlate (List.head?_eq_none_iff.mp hnone)⟩

namespace Intervals

variable [Listener σ] {f : Intervals ρ σ}

/-- In every reachable state, take any node of the tree whose reach is past `lo`. The search below
it ends, and answers with the first node of its subtree, from left to right, that starts before
`hi` and stops after `lo`. If there is none, then a node of the subtree starts at `hi` or later,
and so do all that come after the subtree in the ascending walk. So what comes after the subtree
never changes the answer, and who finds nothing in it need not look there. -/
theorem search_of_reachable (h : f.Reachable) (hholds : f.Holds id) {e : Entry κ}
    (he : f.store.entry id = .ok e) (hpast : lo < e.reach) (hi : κ) :
    ∃ below before after, f.store.shapeFrom f.store.walkLimit (some id) = .ok below ∧
      (∀ j, j ∈ below.inorder ↔ f.store.Reaches (some id) j) ∧
      f.walk = .ok (before ++ below.inorder ++ after) ∧
      f.store.searchOverlap id lo hi = .ok (below.inorder.find? (f.store.hits lo hi)) ∧
      (f.store.searchOverlap id lo hi = .ok none →
        (∃ j ∈ below.inorder, f.store.Late hi j) ∧ ∀ j ∈ after, f.store.Late hi j) ∧
      (below.inorder ++ after).find? (f.store.hits lo hi) =
        below.inorder.find? (f.store.hits lo hi) := by
  obtain ⟨shape, hkeeps⟩ := h.exists_keeps
  obtain ⟨C, c, l, r, rfl⟩ := Shape.exists_context (hkeeps.holds_iff.mp hholds)
  have hshape := hkeeps.cached.keeps.toHasShape
  have hbelow : Represents f.store C.parent (some id) (.node c l id r) :=
    (represents_fill.mp hshape.represents).2
  have hsize := (Store.lt_walkLimit hshape.size_le_of_fill).le
  have hwalk := hkeeps.walk_eq
  rw [Context.inorder_fill] at hwalk
  obtain ⟨hsearch, hlate⟩ :=
    hkeeps.toKeeps.searchOverlap_eq (Shape.root?_node ..) he hpast hi
  -- The subtree and what comes after it are the end of the walk, so they are sorted together.
  have hrest : ((Shape.node c l id r).inorder ++ C.after).Sublist
      (C.fill (.node c l id r)).inorder := by
    rw [Context.inorder_fill, List.append_assoc]
    exact List.sublist_append_right _ _
  have hsorted : f.store.Sorted compareStart ((Shape.node c l id r).inorder ++ C.after) :=
    hkeeps.sorted.sublist hrest
  refine ⟨_, C.before, C.after, hbelow.shapeFrom_eq hsize, fun j => (hbelow.reaches_iff j).symm,
    hwalk, hsearch, ?_, ?_⟩
  · intro hnone
    have hexists := hlate (Except.ok.inj (hsearch.symm.trans hnone))
    exact ⟨hexists, hsorted.late_of_exists hexists⟩
  · rw [← List.head?_filter, ← List.head?_filter]
    refine hsorted.head?_filter_hits fun hnone => hlate ?_
    rw [← List.head?_filter, hnone, List.head?_nil]

/-- Below the first node, which reaches past `0`, nothing starts before `1`. So the other two,
which come after it, are too late as well. -/
theorem search_mixed : mixed.store.searchOverlap 0 0 1 = .ok none ∧
    mixed.store.Late 1 1 ∧ mixed.store.Late 1 2 := by
  have hholds : mixed.Holds 0 := .child .left rfl (.here rfl)
  have hpast : 0 < 5 := by decide
  obtain ⟨below, before, after, hbelow, -, hwalk, hsearch, hnone, -⟩ :=
    search_of_reachable reachable_mixed hholds rfl hpast 1
  cases hbelow
  rw [List.append_assoc] at hwalk
  have hlist : [] ++ 0 :: [1, 2] = before ++ 0 :: after := Except.ok.inj hwalk
  obtain ⟨-, -, rfl⟩ :=
    (List.append_cons_inj_of_notMem (by decide : 0 ∉ []) (by decide : 0 ∉ [1, 2])).mp hlist
  obtain ⟨-, hlate⟩ := hnone rfl
  exact ⟨hsearch, hlate 1 (by simp), hlate 2 (by simp)⟩

end Intervals

end RecordTree
