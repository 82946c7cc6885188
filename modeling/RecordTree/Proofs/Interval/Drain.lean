import RecordTree.Proofs.Interval.Overlap
import RecordTree.Proofs.Interval.Validate
import RecordTree.Proofs.Walk.Drain

/-!
# `RecordTree.Proofs.Interval.Drain`: deleting the answers to a query

A deletion rotates the tree and computes reaches anew, but it moves no node in the walk and gives
no record another interval. The answers to a query before and after differ by the deleted node
alone, so a query that has already found the next one goes on from there (`Intervals.Draining`).

`Intervals.drain_overlaps_of_reachable` is what comes of it, whichever answers are deleted.
-/

set_option autoImplicit false

namespace RecordTree

variable {ρ σ κ : Type} [Spanned ρ κ] [LinearOrder κ] [LawfulSpanned ρ] {lo hi : κ}

/-- Which intervals overlap a query is not for the reaches to say. -/
theorem Store.hits_of_span {s s' : Store ρ}
    (h : Payloads.span s'.payload = Payloads.span s.payload) : s'.hits lo hi = s.hits lo hi := by
  funext j
  have hj := congrFun h j
  unfold hits entry
  cases hs : s.fetch j with
  | error e =>
    cases hs' : s'.fetch j with
    | error e' => rfl
    | ok r' => simp [Payloads.span, payload, hs, hs', Functor.map, Except.map] at hj
  | ok r =>
    cases hs' : s'.fetch j with
    | error e' => simp [Payloads.span, payload, hs, hs', Functor.map, Except.map] at hj
    | ok r' =>
      simp only [Payloads.span, payload, hs, hs', Functor.map, Except.map, Except.ok.injEq] at hj
      have hstart := congrArg (fun a => (Spanned.entry a).start) hj
      have hstop := congrArg (fun a => (Spanned.entry a).stop) hj
      simp only [Linked.withNode, LawfulSpanned.entry_withEntry] at hstart hstop
      simp [Functor.map, Except.map, hstart, hstop]

namespace Intervals

variable [Listener σ] {f : Intervals ρ σ} {shape : Shape} {l r : List RecordId} {id : RecordId}

/-- Deleting a node of the tree leads to the state without it. -/
theorem Keeps.returns_deleted (h : f.Keeps shape) (hreachable : f.Reachable)
    (hlist : shape.inorder = l ++ id :: r) :
    (f.tree.delete id).Returns f.store f.context
      (fun t s x => Reachable ⟨s, t, x⟩ ∧
        Payloads.span s.payload = Payloads.span f.store.payload ∧
        ∃ shape', Keeps ⟨s, t, x⟩ shape' ∧ shape'.inorder = l ++ r)
      fun _ _ _ => False := by
  have hholds : f.Holds id := h.holds_iff.mpr (by simp [hlist])
  obtain ⟨outcome, s, x, hrun, hout⟩ :=
    IntervalTree.returns_delete (x := f.context) h.toKeeps hlist
  cases outcome with
  | error r => exact hout.elim
  | ok t =>
    obtain ⟨shape', hs, hkeeps, hres⟩ := hout
    have hcall : f.call (.delete id) = .ok (none, ⟨s, t, x⟩) := by
      rw [call, IntervalCall.run, hrun]
      rfl
    exact ⟨.ok t, s, x, hrun, hreachable.call (c := .delete id) (.inl hholds) hcall, hres.span_eq,
      shape', ⟨hkeeps, fun _ _ => hs.mem_of_linked h.mem_of_linked⟩, hs.inorder⟩

/-- In the middle of a drain: the intervals are as they were in `s₀`, the nodes of `walk` are left
in the tree, and the cursor stands at the first of the answers `rest` that are still to come. -/
structure Draining (s₀ : Store ρ) (lo hi : κ) (walk rest : List RecordId)
    (cursor : OverlapCursor κ) (f : Intervals ρ σ) : Prop where
  reachable : f.Reachable
  span_eq : Payloads.span f.store.payload = Payloads.span s₀.payload
  exists_keeps : ∃ shape, f.Keeps shape ∧ shape.inorder = walk
  exists_answers : ∃ before, walk.filter (s₀.hits lo hi) = before ++ rest
  cursor_eq : cursor = ⟨lo, hi, rest.head?⟩

/-- A query stays right while its answers are deleted. -/
theorem drainable (s₀ : Store ρ) (lo hi : κ) :
    Drainable OverlapCursor.advance IntervalTree.delete fun walk rest cursor t s (x : σ) =>
      Draining s₀ lo hi walk rest cursor ⟨s, t, x⟩ where
  finish := by
    rintro walk cursor t s x ⟨-, -, -, -, rfl⟩
    rfl
  step := by
    rintro walk rest id cursor t s x
      ⟨hreachable, hspan, ⟨shape, hkeeps, rfl⟩, ⟨before, hsplit⟩, rfl⟩
    -- What is reported goes by starts and stops, and no deletion has changed those.
    have hhits : s.hits lo hi = s₀.hits lo hi := Store.hits_of_span hspan
    have hanswers : s.Answers lo hi (shape.inorder.filter (s₀.hits lo hi)) :=
      hhits ▸ hkeeps.answers
    have hid : id ∈ shape.inorder :=
      List.mem_of_mem_filter (p := s₀.hits lo hi) (by simp [hsplit])
    obtain ⟨l, r, hlist⟩ := List.append_of_mem hid
    refine ⟨_, OverlapCursor.advance_eq hanswers hsplit, ?_, ?_⟩
    · exact ⟨hreachable, hspan, ⟨shape, hkeeps, rfl⟩, ⟨before ++ [id], by simp [hsplit]⟩, rfl⟩
    · refine (hkeeps.returns_deleted hreachable hlist).mono ?_ fun _ _ _ hf => hf
      rintro t' s' x' ⟨hreachable', hspan', shape', hkeeps', hrest⟩
      have hnodup := hkeeps.cached.keeps.nodup
      refine ⟨hreachable', hspan'.trans hspan, ⟨shape', hkeeps', ?_⟩, ⟨before, ?_⟩, rfl⟩
      · rw [hrest, filter_ne_middle hnodup hlist]
      · -- The answers without `id` are those of the walk without `id`.
        rw [List.filter_comm, filter_ne_middle (hnodup.filter (s₀.hits lo hi)) hsplit]

/-- In every reachable state, a query that is not empty can have any of its answers deleted while
its cursor hands them out, each after the cursor has moved on. The cursor still hands out all
answers that the query had before, and no deletion is turned down. What is left is a tree of the
other nodes, in the order they had, which passes its validation. If all answers were deleted, the
query has none then. -/
theorem drain_overlaps_of_reachable (h : f.Reachable) (hlt : lo < hi)
    (chosen : Nat → RecordId → Store ρ → Bool) :
    ∃ l answers cursor, f.walk = .ok l ∧ f.tree.overlaps f.store lo hi = .ok cursor ∧
      cursor.toList f.store = .ok answers ∧ answers = l.filter (f.store.hits lo hi) ∧
      Drains OverlapCursor.advance IntervalTree.delete chosen cursor f.tree f.store f.context
        answers fun out t s => ∃ x : σ, Reachable ⟨s, t, x⟩ ∧
          (∀ j, Holds ⟨s, t, x⟩ j ↔ f.Holds j ∧ out j = false) ∧
          walk ⟨s, t, x⟩ = .ok (l.filter (!out ·)) ∧
          (∃ height, (t.validate s).run = .ok (.ok height)) ∧
          ((∀ j ∈ answers, out j = true) → t.firstOverlap s lo hi = .ok none) := by
  obtain ⟨shape, hkeeps⟩ := h.exists_keeps
  have hready : Draining f.store lo hi shape.inorder (shape.inorder.filter (f.store.hits lo hi))
      ⟨lo, hi, (shape.inorder.filter (f.store.hits lo hi)).head?⟩ f :=
    ⟨h, rfl, ⟨shape, hkeeps, rfl⟩, ⟨[], rfl⟩, rfl⟩
  have hdrains := (drainable f.store lo hi).drains chosen hready
    (hkeeps.cached.keeps.nodup.filter _)
  refine ⟨shape.inorder, _, _, hkeeps.walk_eq, ?_, hkeeps.toList_rest (List.nil_append _).symm,
    rfl, hdrains.mono ?_⟩
  · rw [IntervalTree.overlaps, hkeeps.firstOverlap_eq hlt]
    rfl
  · rintro out t s ⟨rest, cursor, x, hreachable, hspan, ⟨shape', hkeeps', hleft⟩, -, -⟩
    obtain ⟨height, -, hvalid⟩ := hkeeps'.exists_validate_eq
    refine ⟨x, hreachable, fun j => ?_, hleft ▸ hkeeps'.walk_eq,
      ⟨height, hvalid⟩, fun hall => ?_⟩
    · rw [hkeeps'.holds_iff, hkeeps.holds_iff, hleft, List.mem_filter, Bool.not_eq_true']
    · -- What is left of the answers is none.
      have hnone : shape'.inorder.filter (s.hits lo hi) = [] := by
        rw [hleft, Store.hits_of_span hspan, List.filter_eq_nil_iff]
        intro j hj hhits
        obtain ⟨hin, hstays⟩ := List.mem_filter.mp hj
        simp [hall j (List.mem_filter.mpr ⟨hin, hhits⟩)] at hstays
      rw [hkeeps'.firstOverlap_eq hlt, hnone]
      rfl

/-- Both intervals overlap `[2, 4)`. If the first one is deleted when it is handed out, the second
one still comes, and is the only one that is left. -/
theorem drain_overlaps_sample :
    ∃ cursor, sample.tree.overlaps sample.store 2 4 = .ok cursor ∧
      (drain OverlapCursor.advance IntervalTree.delete (fun _ id _ => id == 0) 3 0 cursor
        sample.tree).Returns sample.store () fun d s _ => d.ids = [0, 1] ∧ d.rejected = none ∧
          d.tree.cached.ascending.toList s = .ok [1] := by
  obtain ⟨l, answers, cursor, hwalk, hcursor, -, rfl, hdrains⟩ :=
    drain_overlaps_of_reachable reachable_sample (show 2 < 4 by decide) fun _ id _ => id == 0
  cases hwalk
  refine ⟨cursor, hcursor, (hdrains.returns_of_choice 3).mono ?_⟩
  rintro d s _ ⟨hids, hrejected, _, -, -, hrest, -⟩
  have hids : d.ids = [0, 1] := hids
  rw [hids] at hrest
  exact ⟨hids, hrejected, hrest⟩

end Intervals

end RecordTree
