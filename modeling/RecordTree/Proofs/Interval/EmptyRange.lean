import RecordTree.Proofs.Interval.Overlap

/-!
# `RecordTree.Proofs.Interval.EmptyRange`: queries for a range that is empty

No interval overlaps the range `[lo, hi)` if `hi ≤ lo`. A query on the whole tree compares its
bounds first and then reports nothing. A query that is taken up at a node does not compare them:
it goes by the overlap test of single intervals, which an interval passes that starts before `hi`
and stops after `lo`, and so straddles the empty range.

`Intervals.emptyRange_of_reachable` says which nodes are reported then, so that nothing is exactly
if no interval from the node on straddles the range. `Intervals.nested` has one that does.
-/

set_option autoImplicit false

namespace RecordTree

variable {ρ σ κ : Type} [Spanned ρ κ] [LinearOrder κ] {lo hi : κ} {id : RecordId}

/-- The interval of record `id` starts before the empty range `[lo, hi)` and stops after it. -/
def Store.Straddles (s : Store ρ) (lo hi : κ) (id : RecordId) : Prop :=
  ∃ e, s.entry id = .ok e ∧ e.start < hi ∧ hi ≤ lo ∧ lo < e.stop

/-- The overlap test takes an interval that straddles an empty range for one that overlaps it. -/
theorem Store.hits_iff_straddles {s : Store ρ} (hempty : hi ≤ lo) :
    s.hits lo hi id = true ↔ s.Straddles lo hi id := by
  rw [hits_iff_overlaps]
  simp [Straddles, Entry.overlaps, overlaps, hempty]

/-- What is left of a list for an empty range are the intervals around that range. -/
theorem Store.mem_filter_hits_iff {s : Store ρ} (hempty : hi ≤ lo) (l : List RecordId)
    (j : RecordId) : j ∈ l.filter (s.hits lo hi) ↔ j ∈ l ∧ s.Straddles lo hi j := by
  rw [List.mem_filter, hits_iff_straddles hempty]

namespace Intervals

variable [LawfulSpanned ρ] [Listener σ] {f : Intervals ρ σ}

/-- In every reachable state the queries for an empty range on the whole tree report nothing. Those
taken up at a node of it, or after that node, report the intervals of the rest of the walk that
straddle the range, and nothing exactly if there are none. -/
theorem emptyRange_of_reachable (h : f.Reachable) (hempty : hi ≤ lo) :
    f.tree.firstOverlap f.store lo hi = .ok none ∧
    (∃ cursor, f.tree.overlaps f.store lo hi = .ok cursor ∧ cursor.toList f.store = .ok []) ∧
    ∀ id, f.Holds id → ∃ l r, f.walk = .ok (l ++ id :: r) ∧
      (∃ next, f.store.nextOverlap id lo hi = .ok next ∧
        (next = none ↔ ∀ j ∈ r, ¬ f.store.Straddles lo hi j) ∧
        ∀ j, next = some j → j ∈ r ∧ f.store.Straddles lo hi j) ∧
      (∃ cursor answers, OverlapCursor.afterNode f.store id lo hi = .ok cursor ∧
        cursor.toList f.store = .ok answers ∧
        ∀ j, j ∈ answers ↔ j ∈ r ∧ f.store.Straddles lo hi j) ∧
      ∃ cursor answers, OverlapCursor.fromNode f.store id lo hi = .ok cursor ∧
        cursor.toList f.store = .ok answers ∧
        ∀ j, j ∈ answers ↔ j ∈ id :: r ∧ f.store.Straddles lo hi j := by
  obtain ⟨shape, hkeeps⟩ := h.exists_keeps
  -- From the root the bounds are compared first, which the other queries leave out.
  have hfirst : f.tree.firstOverlap f.store lo hi = .ok none := by
    rw [IntervalTree.firstOverlap, if_neg (not_lt.mpr hempty)]
    rfl
  refine ⟨hfirst, ⟨⟨lo, hi, none⟩, by rw [IntervalTree.overlaps, hfirst]; rfl, rfl⟩, ?_⟩
  intro id hholds
  obtain ⟨l, r, hlist⟩ := List.append_of_mem (hkeeps.holds_iff.mp hholds)
  have hmem := Store.mem_filter_hits_iff (s := f.store) hempty
  refine ⟨l, r, hlist ▸ hkeeps.walk_eq, ⟨_, hkeeps.nextOverlap_eq hlist, ?_, ?_⟩,
    ⟨_, _, hkeeps.afterNode_eq hlist, hkeeps.toList_rest (l := l ++ [id]) ?_, hmem r⟩,
    ⟨_, _, hkeeps.fromNode_eq hlist, hkeeps.toList_rest hlist, hmem (id :: r)⟩⟩
  · rw [List.head?_eq_none_iff, List.filter_eq_nil_iff]
    simp only [Store.hits_iff_straddles hempty]
  · intro j hj
    exact (hmem r j).mp (List.mem_of_head? hj)
  · rw [hlist, List.append_assoc, List.singleton_append]

/-- Two intervals, of which the first reaches past the second on both sides. -/
def nested : Intervals (Entry Nat) Unit where
  store := #[⟨{ right := some 1, color := .black, state := .linked }, 0, 10, 10⟩,
    ⟨{ parent := some 0, state := .linked }, 1, 9, 9⟩]
  tree := ⟨⟨⟨some 0⟩, some 0⟩⟩
  context := ()

/-- Two insertions lead to `nested`. -/
theorem reachable_nested : nested.Reachable := by
  have hbare : Reachable ⟨#[Entry.of 0 10, Entry.of 1 9], .empty, ()⟩ :=
    .start rfl (Store.forall_node (by decide))
  obtain ⟨half, hfirst, hsize, hsecond⟩ : ∃ half, call ⟨#[Entry.of 0 10, Entry.of 1 9], .empty, ()⟩
      (.insert 0) = .ok (none, half) ∧ half.store.size = 2 ∧
      half.call (.insert 1) = .ok (none, nested) := ⟨_, rfl, rfl, rfl⟩
  have hhalf : half.Reachable := hbare.call (c := .insert 0) (show 0 < 2 by decide) hfirst
  exact hhalf.call (c := .insert 1) (show 1 < half.store.size by omega) hsecond

/-- Taken up at the first interval, the query for `[5, 5)` reports both. -/
theorem emptyRange_nested :
    nested.tree.firstOverlap nested.store 5 5 = .ok none ∧
    ∃ cursor answers, OverlapCursor.fromNode nested.store 0 5 5 = .ok cursor ∧
      cursor.toList nested.store = .ok answers ∧ 0 ∈ answers ∧ 1 ∈ answers := by
  have hempty : 5 ≤ 5 := le_refl 5
  obtain ⟨hfirst, -, hresume⟩ := emptyRange_of_reachable reachable_nested hempty
  obtain ⟨l, r, hwalk, -, -, cursor, answers, hcursor, hanswers, hmem⟩ := hresume 0 (.here rfl)
  have hstraddles : nested.store.Straddles 5 5 1 := ⟨_, rfl, by decide⟩
  have hlist : [] ++ 0 :: [1] = l ++ 0 :: r := Except.ok.inj hwalk
  have hone : 1 ∈ 0 :: r := by
    obtain ⟨rfl, -, rfl⟩ :=
      (List.append_cons_inj_of_notMem (by decide : 0 ∉ []) (by decide : 0 ∉ [1])).mp hlist
    decide
  exact ⟨hfirst, cursor, answers, hcursor, hanswers,
    (hmem 0).mpr ⟨List.mem_cons_self, _, rfl, by decide⟩, (hmem 1).mpr ⟨hone, hstraddles⟩⟩

/-- Queries for an empty range need not report nothing: here each of those that are taken up at a
node or after it has an answer. -/
theorem answers_of_emptyRange :
    nested.Reachable ∧ nested.Holds 0 ∧
    nested.store.nextOverlap 0 5 5 = .ok (some 1) ∧
    (OverlapCursor.afterNode nested.store 0 5 5 >>= (·.toList nested.store)) = .ok [1] ∧
    (OverlapCursor.fromNode nested.store 0 5 5 >>= (·.toList nested.store)) =
      .ok [0, 1] :=
  ⟨reachable_nested, .here rfl, rfl, rfl, rfl⟩

end Intervals

end RecordTree
