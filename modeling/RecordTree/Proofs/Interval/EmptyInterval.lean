import Mathlib.Order.Interval.Set.LinearOrder
import RecordTree.Proofs.Interval.Drain

/-!
# `RecordTree.Proofs.Interval.EmptyInterval`: stored intervals that are empty

An interval `[start, stop)` with `stop ≤ start` has no key in it, so there is no range that it
meets. The overlap test does not ask for that. It compares the start with the upper bound of the
query and the stop with the lower one, which tells whether an interval meets the query if neither
of them is empty. An empty interval passes the test if the bounds straddle it
(`Entry.overlaps_iff`).

The queries on an interval tree go by that test. `Intervals.meets_of_reachable` says of their
answers that those with a key in them meet the query, and that the others are the empty intervals
that the query straddles. `Intervals.mixed` has answers of both kinds.
-/

set_option autoImplicit false

namespace RecordTree

variable {ρ σ κ : Type} [LinearOrder κ] {lo hi : κ}

/-! ### One interval -/

namespace Entry

variable {e : Entry κ}

/-- When the interval and the range `[lo, hi)` have both started, neither of them has stopped. -/
def Meets (e : Entry κ) (lo hi : κ) : Prop := max e.start lo < min e.stop hi

/-- The interval is empty, and it stops after `lo` and starts before `hi`. -/
def Straddled (e : Entry κ) (lo hi : κ) : Prop := lo < e.stop ∧ e.stop ≤ e.start ∧ e.start < hi

instance : Decidable (e.Meets lo hi) := inferInstanceAs (Decidable (_ < _))

instance : Decidable (e.Straddled lo hi) := inferInstanceAs (Decidable (_ ∧ _ ∧ _))

/-- So it is exactly if they have a key in common, such as the larger of their starts. -/
theorem meets_iff_nonempty :
    e.Meets lo hi ↔ (Set.Ico e.start e.stop ∩ Set.Ico lo hi).Nonempty := by
  rw [Set.Ico_inter_Ico, Set.nonempty_Ico]
  rfl

/-- Only an interval with keys in it meets a range. -/
theorem Meets.start_lt_stop (h : e.Meets lo hi) : e.start < e.stop :=
  Set.nonempty_Ico.mp (meets_iff_nonempty.mp h).left

/-- Where there are keys in the interval and in the range, meeting is what the code computes. -/
theorem meets_iff_overlaps (he : e.start < e.stop) (hlt : lo < hi) :
    e.Meets lo hi ↔ e.overlaps lo hi = true := by
  simp only [Meets, Entry.overlaps, RecordTree.overlaps, max_lt_iff, lt_min_iff, he, hlt, true_and,
    Bool.and_eq_true, decide_eq_true_eq, and_comm]

/-- What passes the overlap test for a range that is not empty. -/
theorem overlaps_iff (hlt : lo < hi) :
    e.overlaps lo hi = true ↔ e.Meets lo hi ∨ e.Straddled lo hi := by
  -- Whether the interval has a key in it decides which of the two it can be.
  rcases lt_or_ge e.start e.stop with he | he
  · have hstraddled : ¬ e.Straddled lo hi := fun h => he.not_ge h.2.1
    rw [meets_iff_overlaps he hlt, or_iff_left hstraddled]
  · have hmeets : ¬ e.Meets lo hi := fun h => he.not_gt h.start_lt_stop
    rw [or_iff_right hmeets]
    simp [Entry.overlaps, RecordTree.overlaps, Straddled, he, and_comm]

end Entry

variable [Spanned ρ κ]

/-- What a query reports are the intervals that meet its range, and those without keys that start
before its end and stop after its start. -/
theorem Store.hits_iff {s : Store ρ} {id : RecordId} (hlt : lo < hi) :
    s.hits lo hi id = true ↔
      ∃ e, s.entry id = .ok e ∧ (e.Meets lo hi ∨ e.Straddled lo hi) := by
  simp only [hits_iff_overlaps, Entry.overlaps_iff hlt]

/-! ### The queries -/

namespace Intervals

variable [LawfulSpanned ρ] [Listener σ] {f : Intervals ρ σ} {shape : Shape}

/-- The answers to a query are handed out whichever of them are deleted on the way. -/
theorem Keeps.drains_hits (h : f.Keeps shape) (hreachable : f.Reachable)
    (chosen : Nat → RecordId → Store ρ → Bool) :
    Drains OverlapCursor.advance IntervalTree.delete chosen
      ⟨lo, hi, (shape.inorder.filter (f.store.hits lo hi)).head?⟩ f.tree f.store f.context
      (shape.inorder.filter (f.store.hits lo hi)) fun _ _ _ => True := by
  have hready : Draining f.store lo hi shape.inorder (shape.inorder.filter (f.store.hits lo hi))
      ⟨lo, hi, (shape.inorder.filter (f.store.hits lo hi)).head?⟩ f :=
    ⟨hreachable, rfl, ⟨shape, h, rfl⟩, ⟨[], rfl⟩, rfl⟩
  have hdrains := (drainable f.store lo hi).drains chosen hready
    (h.cached.keeps.nodup.filter (f.store.hits lo hi))
  exact hdrains.mono fun _ _ _ _ => trivial

/-- In every reachable state a query that is not empty reports the nodes of the tree whose
intervals it meets, and of the others those whose intervals are empty and that it straddles. So a
node that it reports meets it exactly if the interval of the node is not empty. This goes for the
first answer, for the list of all of them, and for the answers of a cursor of which any are
deleted on the way. -/
theorem meets_of_reachable (h : f.Reachable) (hlt : lo < hi) :
    ∃ cursor answers, f.tree.overlaps f.store lo hi = .ok cursor ∧
      cursor.toList f.store = .ok answers ∧
      f.tree.firstOverlap f.store lo hi = .ok answers.head? ∧
      (∀ chosen, Drains OverlapCursor.advance IntervalTree.delete chosen cursor f.tree f.store
        f.context answers fun _ _ _ => True) ∧
      (∀ j, j ∈ answers ↔ f.Holds j ∧
        ∃ e, f.store.entry j = .ok e ∧ (e.Meets lo hi ∨ e.Straddled lo hi)) ∧
      ∀ j ∈ answers, ∃ e, f.store.entry j = .ok e ∧ (e.Meets lo hi ↔ e.start < e.stop) := by
  obtain ⟨shape, hkeeps⟩ := h.exists_keeps
  have hmem : ∀ j, j ∈ shape.inorder.filter (f.store.hits lo hi) ↔ f.Holds j ∧
      ∃ e, f.store.entry j = .ok e ∧ (e.Meets lo hi ∨ e.Straddled lo hi) := by
    intro j
    rw [List.mem_filter, hkeeps.holds_iff, Store.hits_iff hlt]
  refine ⟨_, _, ?_, hkeeps.toList_rest (List.nil_append _).symm, hkeeps.firstOverlap_eq hlt,
    hkeeps.drains_hits h, hmem, ?_⟩
  · rw [IntervalTree.overlaps, hkeeps.firstOverlap_eq hlt]
    rfl
  · intro j hj
    obtain ⟨-, e, he, hout⟩ := (hmem j).mp hj
    refine ⟨e, he, Entry.Meets.start_lt_stop, fun hstart => ?_⟩
    -- An interval with keys in it is not straddled.
    exact hout.resolve_right fun hstraddled => hstart.not_ge hstraddled.2.1

/-- An interval with keys in it, one that stops where it starts, and one that stops before. -/
def mixed : Intervals (Entry Nat) Unit where
  store := #[⟨{ parent := some 1, state := .linked }, 1, 5, 5⟩,
    ⟨{ left := some 0, right := some 2, color := .black, state := .linked }, 3, 3, 6⟩,
    ⟨{ parent := some 1, state := .linked }, 7, 6, 6⟩]
  tree := ⟨⟨⟨some 1⟩, some 0⟩⟩
  context := ()

/-- Three insertions lead to `mixed`. -/
theorem reachable_mixed : mixed.Reachable := by
  have hbare : Reachable ⟨#[Entry.of 1 5, Entry.of 3 3, Entry.of 7 6], .empty, ()⟩ :=
    .start rfl (Store.forall_node (by decide))
  obtain ⟨one, two, hfirst, hone, hsecond, htwo, hthird⟩ : ∃ one two,
      call ⟨#[Entry.of 1 5, Entry.of 3 3, Entry.of 7 6], .empty, ()⟩ (.insert 0) =
        .ok (none, one) ∧ one.store.size = 3 ∧
      one.call (.insert 1) = .ok (none, two) ∧ two.store.size = 3 ∧
      two.call (.insert 2) = .ok (none, mixed) := ⟨_, _, rfl, rfl, rfl, rfl, rfl⟩
  have hreachone := hbare.call (c := .insert 0) (show 0 < 3 by decide) hfirst
  have hreachtwo := hreachone.call (c := .insert 1) (show 1 < one.store.size by omega) hsecond
  exact hreachtwo.call (c := .insert 2) (show 2 < two.store.size by omega) hthird

/-- The query for `[2, 9)` meets the first interval, and reports the other two as well. -/
theorem meets_mixed : ∃ answers,
    (mixed.tree.overlaps mixed.store 2 9 >>= (·.toList mixed.store)) = .ok answers ∧
      0 ∈ answers ∧ 1 ∈ answers ∧ 2 ∈ answers := by
  have hlt : 2 < 9 := by decide
  obtain ⟨cursor, answers, hcursor, hanswers, -, -, hmem, -⟩ :=
    meets_of_reachable reachable_mixed hlt
  refine ⟨answers, by rw [hcursor]; exact hanswers, ?_, ?_, ?_⟩
  · exact (hmem 0).mpr ⟨.child .left rfl (.here rfl), _, rfl, .inl (by decide)⟩
  · exact (hmem 1).mpr ⟨.here rfl, _, rfl, .inr (by decide)⟩
  · exact (hmem 2).mpr ⟨.child .right rfl (.here rfl), _, rfl, .inr (by decide)⟩

/-- Not all that a query reports has a key in common with it. Of the answers for `[2, 9)` the
second one, `[3, 3)`, has none, and neither has the only answer for `[5, 9)`, which is `[7, 6)`. -/
theorem answers_not_met :
    mixed.Reachable ∧
    (mixed.tree.overlaps mixed.store 2 9 >>= (·.toList mixed.store)) = .ok [0, 1, 2] ∧
    (∃ e, mixed.store.entry 1 = .ok e ∧ ¬ max e.start 2 < min e.stop 9) ∧
    mixed.tree.firstOverlap mixed.store 5 9 = .ok (some 2) ∧
    ∃ e, mixed.store.entry 2 = .ok e ∧ ¬ max e.start 5 < min e.stop 9 :=
  ⟨reachable_mixed, rfl, ⟨_, rfl, by decide⟩, rfl, _, rfl, by decide⟩

end Intervals

end RecordTree
