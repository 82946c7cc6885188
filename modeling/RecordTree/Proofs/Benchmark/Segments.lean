import RecordTree.Benchmark.Run
import RecordTree.Proofs.Interval.Drain

/-!
# `RecordTree.Proofs.Benchmark.Segments`: the phases of a run that are about intervals

Segments and queries are drawn alike, as ranges that are not empty (`drawRanges`). Loading puts all
segments into the tree and changes no range (`Loaded`, `returns_loadSegments_all`). So the queries
report as many segments as a count over all of them would give (`rangesOverlapping`,
`Loaded.queryAll_eq`), which knows of no tree.
-/

set_option autoImplicit false

namespace RecordTree.Benchmark

variable {γ : Type} [Source γ]

/-- The next `count` ranges of a stream of numbers, and what is left of it. -/
def drawRanges : Nat → γ → List (Nat × Nat) × γ
  | 0, g => ([], g)
  | count + 1, g =>
    let (start, g) := drawBelow 1000000 g
    let (length, g) := drawBelow 1000 g
    let (ranges, g) := drawRanges count g
    ((start, start + length + 1) :: ranges, g)

/-- A range is drawn as its start, and after it its length. -/
theorem drawRanges_succ (count : Nat) (g : γ) :
    (drawRanges (count + 1) g).1 =
      ((drawBelow 1000000 g).1,
        (drawBelow 1000000 g).1 + (drawBelow 1000 (drawBelow 1000000 g).2).1 + 1) ::
        (drawRanges count (drawBelow 1000 (drawBelow 1000000 g).2).2).1 :=
  rfl

/-- How many of the ranges share a point with `[lo, hi)`. -/
def rangesOverlapping (ranges : List (Nat × Nat)) (lo hi : Nat) : Nat :=
  ranges.countP fun r => decide (r.1 < hi) && decide (lo < r.2)

/-- No more ranges overlap than there are. -/
theorem rangesOverlapping_le (ranges : List (Nat × Nat)) (lo hi : Nat) :
    rangesOverlapping ranges lo hi ≤ ranges.length :=
  List.countP_le_length

/-- As many ranges are drawn as are asked for. -/
theorem length_drawRanges (count : Nat) (g : γ) : (drawRanges count g).1.length = count := by
  induction count generalizing g with
  | zero => rfl
  | succ count ih => exact congrArg (· + 1) (ih _)

/-- What is drawn below a positive bound is below it. -/
theorem drawBelow_lt {bound : UInt64} (hbound : 0 < bound.toNat) (g : γ) :
    (drawBelow bound g).1 < bound.toNat := by
  show ((Source.draw g).1 % bound).toNat < bound.toNat
  rw [UInt64.toNat_mod]
  exact Nat.mod_lt _ hbound

/-- Drawn ranges are not empty, and the sums that make them do not overflow. -/
theorem bounds_of_mem_drawRanges {count : Nat} {g : γ} {r : Nat × Nat}
    (hr : r ∈ (drawRanges count g).1) : r.1 < r.2 ∧ r.2 < UInt64.size := by
  induction count generalizing g with
  | zero => cases hr
  | succ count ih =>
    rw [drawRanges_succ] at hr
    rcases List.mem_cons.mp hr with rfl | hr
    · have hstart : (drawBelow 1000000 g).1 < 1000000 := drawBelow_lt (by decide) g
      have hlength : (drawBelow 1000 (drawBelow 1000000 g).2).1 < 1000 :=
        drawBelow_lt (by decide) _
      simp only [UInt64.size]
      omega
    · exact ih hr

/-- The segments of the given ranges, before they are inserted. -/
def segmentsOf (ranges : List (Nat × Nat)) : Store (Entry Nat) :=
  (ranges.map fun r => Entry.of r.1 r.2).toArray

/-- Segments are drawn as ranges. -/
theorem generateSegments_eq (count : Nat) (g : γ) (entries : Store (Entry Nat)) :
    generateSegments count g entries =
      (entries ++ segmentsOf (drawRanges count g).1, (drawRanges count g).2) := by
  induction count generalizing g entries with
  | zero => simp [generateSegments, drawRanges, segmentsOf]
  | succ count ih =>
    simp only [generateSegments, drawRanges, ih]
    simp [segmentsOf]

/-- Each range makes one segment. -/
theorem size_segmentsOf (ranges : List (Nat × Nat)) : (segmentsOf ranges).size = ranges.length := by
  simp [segmentsOf]

/-- The segment of a range has that range, and is in no tree. -/
theorem entry_segmentsOf {ranges : List (Nat × Nat)} {id : Nat} (hid : id < ranges.length) :
    (segmentsOf ranges).entry id = .ok (Entry.of ranges[id].1 ranges[id].2) := by
  have hlt : id < (segmentsOf ranges).size := by rwa [size_segmentsOf]
  have hget : (segmentsOf ranges)[id] = Entry.of ranges[id].1 ranges[id].2 := by simp [segmentsOf]
  rw [Store.entry, Store.fetch_of_lt hlt, hget]
  rfl

/-! ### Loading -/

/-- Loading the next `count` segments returns, links them, and leaves their ranges alone. -/
theorem returns_loadSegments {count id : Nat} {t : IntervalTree} {s : Store (Entry Nat)}
    {shape : Shape} (h : t.Keeps s shape) (hsize : id + count ≤ s.size)
    (hmem : ∀ j : Nat, j ∈ shape.inorder ↔ j < id)
    (hlinked : ∀ j n, s.node j = .ok n → n.state = .linked → j ∈ shape.inorder) :
    (loadSegments count id t).Returns s ()
      (fun t' s' _ => ∃ shape', t'.Keeps s' shape' ∧
        Payloads.span s'.payload = Payloads.span s.payload ∧
        ∀ j : Nat, j ∈ shape'.inorder ↔ j < id + count)
      fun _ _ _ => False := by
  -- By induction on how many are left to load. The nodes so far are the ids below `id`.
  induction count generalizing id t s shape with
  | zero => exact Guarded.returns_pure.mpr ⟨shape, h, rfl, hmem⟩
  | succ count ih =>
    have hid : id < s.size := by omega
    have hout : id ∉ shape.inorder := fun hin => Nat.lt_irrefl id ((hmem id).mp hin)
    obtain ⟨n, hn⟩ := Store.exists_node_of_lt hid
    rw [loadSegments, Guarded.returns_bind]
    refine (IntervalTree.returns_insert h hn).mono ?_ ?_
    · intro t₁ s₁ x hdone
      obtain ⟨-, l, r, shape₁, hlist, -, -, hs, hkeeps, hres⟩ := hdone
      have hsize₁ : s₁.size = s.size := hs.size
      have hmem₁ : ∀ j : Nat, j ∈ shape₁.inorder ↔ j < id + 1 := by
        intro j
        rw [hs.inorder, List.perm_middle.mem_iff, List.mem_cons, ← hlist, hmem]
        exact or_comm.trans Nat.lt_succ_iff_lt_or_eq.symm
      refine (ih hkeeps (show id + 1 + count ≤ s₁.size by omega) hmem₁
        fun _ _ => hs.mem_of_linked hlinked).mono ?_ fun _ _ _ hr => hr
      intro t' s' x' hdone
      obtain ⟨shape', hkeeps', hspan, hmem'⟩ := hdone
      refine ⟨shape', hkeeps', hspan.trans hres.span_eq, fun j => ?_⟩
      rw [hmem']
      omega
    · -- Only a segment that is linked would be turned down.
      intro r s' x hrejected
      exact hout (hlinked id n hn hrejected.1)

/-- The tree has all segments as nodes, and they have the given ranges. -/
structure Loaded (ranges : List (Nat × Nat)) (t : IntervalTree) (s : Store (Entry Nat))
    (shape : Shape) : Prop where
  keeps : t.Keeps s shape
  span_eq : Payloads.span s.payload = Payloads.span (segmentsOf ranges).payload
  mem_iff : ∀ j : Nat, j ∈ shape.inorder ↔ j < ranges.length

/-- All segments go into the tree, and no range changes. -/
theorem returns_loadSegments_all (ranges : List (Nat × Nat)) :
    (loadSegments ranges.length 0 .empty).Returns (segmentsOf ranges) ()
      (fun t s _ => ∃ shape, Loaded ranges t s shape) fun _ _ _ => False := by
  have hsize : 0 + ranges.length ≤ (segmentsOf ranges).size := by
    rw [size_segmentsOf]
    omega
  have hnone : ∀ j : Nat, j ∈ Shape.leaf.inorder ↔ j < 0 := by
    intro j
    simp [Shape.inorder]
  -- No segment is linked before it is loaded.
  have hfresh : ∀ j n, (segmentsOf ranges).node j = .ok n → n.state = .linked →
      j ∈ Shape.leaf.inorder := by
    intro j n hn hstate
    have hj : j < ranges.length := by
      have hlt := Store.lt_of_node hn
      rwa [size_segmentsOf] at hlt
    rw [Store.node_eq_entry, entry_segmentsOf hj] at hn
    cases hn
    cases hstate
  have hload := returns_loadSegments (IntervalTree.keeps_empty _) hsize hnone hfresh
  rw [Nat.zero_add] at hload
  refine hload.mono ?_ fun _ _ _ hr => hr
  intro t s x hdone
  obtain ⟨shape, hkeeps, hspan, hmem⟩ := hdone
  exact ⟨shape, hkeeps, hspan, hmem⟩

/-! ### Queries -/

section Queries

variable {ranges : List (Nat × Nat)} {t : IntervalTree} {s : Store (Entry Nat)} {shape : Shape}

/-- What a query has for answers is as many segments as a count over all of them gives. -/
theorem Loaded.exists_answers (h : Loaded ranges t s shape) {lo hi : Nat} (hlt : lo < hi) :
    ∃ cursor answers, t.overlaps s lo hi = .ok cursor ∧ cursor.toList s = .ok answers ∧
      answers.length = rangesOverlapping ranges lo hi := by
  refine ⟨_, shape.inorder.filter (s.hits lo hi), ?_,
    h.keeps.toList_rest (List.nil_append _).symm, ?_⟩
  · rw [IntervalTree.overlaps, h.keeps.firstOverlap_eq hlt]
    rfl
  -- The nodes are the ids of all segments, in some order, and an id hits where its range does.
  have hperm : shape.inorder.Perm (List.range ranges.length) := by
    refine (List.perm_ext_iff_of_nodup h.keeps.cached.keeps.nodup List.nodup_range).mpr ?_
    intro j
    rw [h.mem_iff, List.mem_range]
  have hmap : (List.range ranges.length).map (s.hits lo hi) =
      ranges.map fun r => decide (r.1 < hi) && decide (lo < r.2) := by
    refine List.ext_getElem (by simp) fun j hj hj' => ?_
    rw [List.length_map, List.length_range] at hj
    rw [List.getElem_map, List.getElem_map, List.getElem_range,
      Store.hits_of_span h.span_eq, Store.hits_of_entry (entry_segmentsOf hj)]
    rfl
  calc (shape.inorder.filter (s.hits lo hi)).length
    _ = shape.inorder.countP (s.hits lo hi) := List.countP_eq_length_filter.symm
    _ = (List.range ranges.length).countP (s.hits lo hi) := hperm.countP_eq _
    _ = ((List.range ranges.length).map (s.hits lo hi)).countP id := by
      rw [List.countP_map]
      rfl
    _ = rangesOverlapping ranges lo hi := by
      rw [hmap, List.countP_map]
      rfl

/-- The queries report the sum of the counts, as a machine word. -/
theorem Loaded.queryAll_eq (h : Loaded ranges t s shape) (count : Nat) (g : γ)
    (reported : UInt64) :
    queryAll t s count g reported =
      .ok (reported + UInt64.ofNat
        ((drawRanges count g).1.map fun q => rangesOverlapping ranges q.1 q.2).sum,
        (drawRanges count g).2) := by
  induction count generalizing g reported with
  | zero =>
    show Except.ok (reported, g) = Except.ok (reported + 0, g)
    rw [UInt64.add_zero]
  | succ count ih =>
    have hlt : (drawBelow 1000000 g).1 <
        (drawBelow 1000000 g).1 + (drawBelow 1000 (drawBelow 1000000 g).2).1 + 1 := by omega
    obtain ⟨cursor, answers, hcursor, hanswers, hlen⟩ := h.exists_answers hlt
    rw [drawRanges_succ, List.map_cons, List.sum_cons, UInt64.ofNat_add, ← UInt64.add_assoc, ← hlen]
    simp only [queryAll, hcursor, hanswers, bind, Except.bind, ih]
    rfl

end Queries

end RecordTree.Benchmark
