import Mathlib.Algebra.Order.BigOperators.Group.List
import RecordTree.Proofs.Benchmark.Items
import RecordTree.Proofs.Benchmark.Segments
import RecordTree.Proofs.Shape.Height

/-!
# `RecordTree.Proofs.Benchmark.Report`: a run comes to its end, and its figures are true

`report` goes through its stages and stops at the first that fails. `Leads` is what it is to go
through some of them: they add their lines, and the rest goes on from where they end. Each phase
leads to a state of the items or the segments that the next one starts from.

What the figures ought to be can be told from what the run draws (`Drawn`), without any tree:
`expected` writes the report down, up to the depth of the tree.

* `report_eq`: for all options and all streams of numbers the run ends with the expected report.
* `report_wraps`: the figure for the queries is a machine word, and enough of them make it wrap
  around.
-/

set_option autoImplicit false

namespace RecordTree.Benchmark

variable {τ γ α ρ : Type} [Source γ]

/-! ### What a run draws -/

/-- What is left of a stream after `count` numbers. -/
def discard (count : Nat) (g : γ) : γ := (fun g => (Source.draw g).2)^[count] g

/-- What a run draws besides the keys that it loads. -/
structure Drawn where
  actions : List Action
  segments : List (Nat × Nat)
  queries : List (Nat × Nat)

/-- What a run with the options `o` draws from a stream of numbers. -/
def drawn (o : Options) (random : γ) : Drawn :=
  let (actions, g) := drawActions o.incrs (discard o.loads random)
  let (segments, g) := drawRanges o.segments g
  let (queries, _) := drawRanges o.queries g
  { actions, segments, queries }

/-- The account of the items at the end of the run. -/
def Drawn.ledger (d : Drawn) (loads : Nat) : Ledger := d.actions.foldl Ledger.act (.loaded loads)

/-- How many segments overlap the queries, summed over the queries. -/
def Drawn.overlapping (d : Drawn) : Nat :=
  (d.queries.map fun q => rangesOverlapping d.segments q.1 q.2).sum

/-- How many segments the queries report, in a machine word. -/
def Drawn.reported (d : Drawn) : Nat := d.overlapping % UInt64.size

/-- Each query has at most all segments for answers. -/
theorem overlapping_drawn_le (o : Options) (random : γ) :
    (drawn o random).overlapping ≤ o.queries * o.segments := by
  have hqueries : (drawn o random).queries.length = o.queries := length_drawRanges o.queries _
  have hsegments : (drawn o random).segments.length = o.segments := length_drawRanges o.segments _
  have hle : ∀ n ∈ (drawn o random).queries.map fun q =>
      rangesOverlapping (drawn o random).segments q.1 q.2, n ≤ o.segments := by
    intro n hn
    obtain ⟨q, -, rfl⟩ := List.mem_map.mp hn
    exact (rangesOverlapping_le _ _ _).trans hsegments.le
  calc (drawn o random).overlapping
    _ ≤ _ := List.sum_le_card_nsmul _ o.segments hle
    _ = o.queries * o.segments := by
      rw [List.length_map, hqueries]
      rfl

/-- The report of a run that draws `d`, on a tree of the given depth after loading. -/
def expected (o : Options) (seed depth : Nat) (d : Drawn) : List Line :=
  [.seed seed, .generating o.loads, .loaded o.loads, .depth depth]
    ++ (List.range o.loops).map (.found · o.loads)
    ++ (if o.incrs = 0 then [] else [.incremental (d.ledger o.loads).tally])
    ++ [.walkedInOrder (d.ledger o.loads).linked.card,
      .walkedPostOrder (d.ledger o.loads).linked.card]
    ++ (if o.segments = 0 then []
      else [.loadedSegments o.segments, .queried o.queries d.reported])

/-! ### Going through stages -/

/-- The stages lead from the state `b` to `b'`, with these lines for the report. -/
def Leads (stages : List (Stage τ γ)) (b : Bench τ γ) (lines : List Line) (b' : Bench τ γ) : Prop :=
  ∀ rest, follow (stages ++ rest) b = (lines ++ ·) <$> follow rest b'

section Leads

variable {stages stages' : List (Stage τ γ)} {b b₁ b₂ : Bench τ γ} {lines lines' : List Line}

omit [Source γ] in
/-- No stages lead from a state to itself, without lines. -/
theorem leads_nil (b : Bench τ γ) : Leads [] b [] b := by
  intro rest
  simp

omit [Source γ] in
/-- Stages lead on from where others have led. -/
theorem Leads.append (h : Leads stages b lines b₁) (h' : Leads stages' b₁ lines' b₂) :
    Leads (stages ++ stages') b (lines ++ lines') b₂ := by
  intro rest
  rw [List.append_assoc, h, h', Functor.map_map]
  simp only [List.append_assoc]

omit [Source γ] in
/-- A stage that adds a line. -/
theorem leads_stage {stage : Stage τ γ} {line : Line} (h : stage b = .ok (b₁, some line)) :
    Leads [stage] b [line] b₁ := by
  intro rest
  rw [List.singleton_append, follow, h]
  rfl

omit [Source γ] in
/-- A stage that adds none. -/
theorem leads_silent {stage : Stage τ γ} (h : stage b = .ok (b₁, none)) :
    Leads [stage] b [] b₁ := by
  intro rest
  rw [List.singleton_append, follow, h]
  rfl

omit [Source γ] in
/-- A stage that announces a line stays where it is. -/
theorem leads_announce (line : Line) (b : Bench τ γ) : Leads [.announce line] b [line] b :=
  leads_stage rfl

omit [Source γ] in
/-- The report is what the lines of all stages are. -/
theorem Leads.follow_eq (h : Leads stages b lines b₁) : follow stages b = .ok lines := by
  have hall := h []
  rw [List.append_nil] at hall
  rw [hall]
  show Except.ok (lines ++ []) = _
  rw [List.append_nil]

end Leads

/-! ### Stages -/

/-- A call that returns and that no guard turns down is accepted. -/
theorem exists_accepted {u : Guarded ρ Unit α} {s : Store ρ} {Q : α → Store ρ → Unit → Prop}
    (h : u.Returns s () Q fun _ _ _ => False) : ∃ a s', accepted s u = .ok (a, s') ∧ Q a s' () := by
  obtain ⟨outcome, s', x, hrun, hout⟩ := h
  cases outcome with
  | ok a =>
    refine ⟨a, s', ?_, hout⟩
    unfold accepted
    rw [show u s () = _ from hrun]
  | error r => exact hout.elim

/-- An update that returns is run to its end. -/
theorem exists_updated {u : Update ρ Unit α} {s : Store ρ} {Q : α → Store ρ → Unit → Prop}
    (h : u.Returns s () Q) : ∃ a s', updated s u = .ok (a, s') ∧ Q a s' () := by
  obtain ⟨a, s', x, hrun, hout⟩ := h
  refine ⟨a, s', ?_, hout⟩
  unfold updated
  rw [hrun]

/-- Generating items takes a number from the stream for each of them. -/
theorem generate_snd (count : Nat) (g : γ) (items : Store Item) :
    (generate count g items).2 = discard count g := by
  induction count generalizing g items with
  | zero => rfl
  | succ count ih => exact ih _ _

section Items

variable [Subject τ] [Subject.Lawful τ] {tree : τ} {items : Store Item} {shape : Shape}
  {segments : IntervalTree} {entries : Store (Entry Nat)} {l : Ledger} {loads : Nat} {random : γ}

open Subject (Tracks Sound)

omit [Source γ] in
/-- New items are loaded, all of them. -/
theorem exists_load (hfresh : ∀ id n, items.node id = .ok n → n = {}) (segments : IntervalTree)
    (entries : Store (Entry Nat)) (random : γ) :
    ∃ tree items' shape,
      Stage.load ⟨(Subject.empty : τ), items, segments, entries, random⟩ =
        .ok (⟨tree, items', segments, entries, random⟩, some (.loaded items.size)) ∧
      Tracks tree items' shape (.loaded items.size) := by
  have hsize : 0 + items.size ≤ items.size := by omega
  have hnone : ∀ j : Nat, j ∈ Shape.leaf.inorder ↔ j < 0 := by
    intro j
    simp [Shape.inorder]
  obtain ⟨tree, items', hrun, shape, hsound, hsize', hmem⟩ :=
    exists_accepted (Subject.returns_load (Sound.of_fresh (τ := τ) hfresh) hsize hnone)
  refine ⟨tree, items', shape, ?_, hsound, hsize', fun id => ?_⟩
  · simp only [Stage.load, hrun, bind, Except.bind]
    rfl
  · rw [hmem, Nat.zero_add]
    exact Finset.mem_range.symm

/-- The first stages load the tree. -/
theorem leads_load (o : Options) (seed : Nat) (g : γ) :
    ∃ tree items shape,
      Leads [.announce (.seed seed), .announce (.generating o.loads), .generate o.loads, .load,
          .measure]
        { tree := (Subject.empty : τ), random := g }
        [.seed seed, .generating o.loads, .loaded o.loads, .depth shape.height]
        { tree, items, random := discard o.loads g } ∧
      Tracks tree items shape (.loaded o.loads) := by
  have hsize : (generate o.loads g #[]).1.size = o.loads := by
    rw [size_generate]
    exact Nat.zero_add o.loads
  have hfresh : ∀ id n, (generate o.loads g #[]).1.node id = .ok n → n = {} :=
    fresh_generate o.loads g #[] fun id n hn => absurd (Store.lt_of_node hn) (Nat.not_lt_zero id)
  have hgenerate : Stage.generate o.loads { tree := (Subject.empty : τ), random := g } =
      .ok (⟨Subject.empty, (generate o.loads g #[]).1, .empty, #[], discard o.loads g⟩, none) := by
    rw [← generate_snd o.loads g #[]]
    rfl
  obtain ⟨tree, items, shape, hload, htracks⟩ := exists_load (τ := τ) hfresh .empty #[]
    (discard o.loads g)
  rw [hsize] at hload htracks
  -- The depth is read off the shape that was loaded.
  have hmeasure : Stage.measure { tree, items, random := discard o.loads g } =
      .ok ({ tree, items, random := discard o.loads g }, some (.depth shape.height)) := by
    simp only [Stage.measure, htracks.shape_eq, outcome, bind, Except.bind]
    rfl
  refine ⟨tree, items, shape, ?_, htracks⟩
  exact (leads_announce (.seed seed) _).append <| (leads_announce (.generating o.loads) _).append <|
    (leads_silent hgenerate).append <| (leads_stage hload).append (leads_stage hmeasure)

omit [Source γ] in
/-- While all items are linked, every loop finds every item. -/
theorem leads_find (h : Tracks tree items shape (.loaded loads)) (loops : List Nat) :
    Leads (loops.map Stage.find) ⟨tree, items, segments, entries, random⟩
      (loops.map (.found · loads)) ⟨tree, items, segments, entries, random⟩ := by
  have hsize : items.size = loads := h.size_eq
  have hfind : firstMissing tree items loads 0 = .ok none := by
    refine h.firstMissing_eq fun j _ hj => (h.mem_iff j).mpr (Finset.mem_range.mpr ?_)
    rwa [Nat.zero_add] at hj
  induction loops with
  | nil => exact leads_nil _
  | cons loop loops ih =>
    have hstage : Stage.find loop ⟨tree, items, segments, entries, random⟩ =
        .ok (⟨tree, items, segments, entries, random⟩, some (.found loop loads)) := by
      simp only [Stage.find, hsize, hfind, outcome, bind, Except.bind]
      rfl
    exact (leads_stage hstage).append ih

/-- The incremental phase ends as the ledger does. -/
theorem leads_act (h : Tracks tree items shape (.loaded loads)) (count : Nat)
    (segments : IntervalTree) (entries : Store (Entry Nat)) (random : γ) :
    ∃ tree' items' shape',
      Leads (if count = 0 then [] else [.act count]) ⟨tree, items, segments, entries, random⟩
        (if count = 0 then []
          else [.incremental ((drawActions count random).1.foldl Ledger.act (.loaded loads)).tally])
        ⟨tree', items', segments, entries, (drawActions count random).2⟩ ∧
      Tracks tree' items' shape'
        ((drawActions count random).1.foldl Ledger.act (.loaded loads)) := by
  by_cases hcount : count = 0
  · subst hcount
    exact ⟨tree, items, shape, leads_nil _, h⟩
  · obtain ⟨⟨⟨tree', tally⟩, g⟩, items', hrun, rfl, rfl, shape', htracks⟩ :=
      exists_updated (h.returns_actAll count random)
    refine ⟨tree', items', shape', ?_, htracks⟩
    rw [if_neg hcount, if_neg hcount]
    refine leads_stage ?_
    simp only [Stage.act, bind, Except.bind]
    rw [show ({} : Tally) = (Ledger.loaded loads).tally from rfl, hrun]
    rfl

omit [Source γ] in
/-- The walks count the items that the ledger has as linked. -/
theorem leads_walk (h : Tracks tree items shape l) :
    Leads [.walk .ascending .walkedInOrder, .walk .postOrder .walkedPostOrder]
      ⟨tree, items, segments, entries, random⟩
      [.walkedInOrder l.linked.card, .walkedPostOrder l.linked.card]
      ⟨tree, items, segments, entries, random⟩ := by
  have hstage : ∀ (order : Order) (line : Nat → Line), order = .ascending ∨ order = .postOrder →
      Leads [.walk order line] ⟨tree, items, segments, entries, random⟩ [line l.linked.card]
        ⟨tree, items, segments, entries, random⟩ := by
    intro order line horder
    obtain ⟨cursor, hcursor, hcount⟩ := h.exists_count horder
    refine leads_stage ?_
    simp only [Stage.walk, hcursor, hcount, outcome, bind, Except.bind, h.size_eq_card]
    rfl
  exact (hstage .ascending .walkedInOrder (.inl rfl)).append
    (hstage .postOrder .walkedPostOrder (.inr rfl))

end Items

section Segments

/-- The segments are drawn and loaded. -/
theorem leads_loadSegments (tree : τ) (items : Store Item) (count : Nat) (random : γ) :
    ∃ t s shape, Leads [.generateSegments count, .loadSegments] { tree, items, random }
        [.loadedSegments count] ⟨tree, items, t, s, (drawRanges count random).2⟩ ∧
      Loaded (drawRanges count random).1 t s shape := by
  have hlength := length_drawRanges count random
  have hsize : (segmentsOf (drawRanges count random).1).size = count :=
    (size_segmentsOf _).trans hlength
  obtain ⟨t, s, hrun, shape, hloaded⟩ :=
    exists_accepted (returns_loadSegments_all (drawRanges count random).1)
  rw [hlength] at hrun
  -- What is generated are the segments of the ranges that are drawn.
  have hgenerate : Stage.generateSegments count { tree, items, random } =
      .ok (⟨tree, items, .empty, segmentsOf (drawRanges count random).1,
        (drawRanges count random).2⟩, none) := by
    have heq := generateSegments_eq count random #[]
    rw [Array.empty_append] at heq
    simp only [Stage.generateSegments, heq]
  have hload : Stage.loadSegments ⟨tree, items, .empty, segmentsOf (drawRanges count random).1,
      (drawRanges count random).2⟩ =
        .ok (⟨tree, items, t, s, (drawRanges count random).2⟩, some (.loadedSegments count)) := by
    simp only [Stage.loadSegments, hsize, hrun, bind, Except.bind]
    rfl
  exact ⟨t, s, shape, (leads_silent hgenerate).append (leads_stage hload), hloaded⟩

/-- The queries report what a count over the ranges gives, up to what a machine word can hold. -/
theorem leads_query {ranges : List (Nat × Nat)} {t : IntervalTree} {s : Store (Entry Nat)}
    {shape : Shape} (h : Loaded ranges t s shape) (tree : τ) (items : Store Item) (count : Nat)
    (random : γ) :
    Leads [.query count] ⟨tree, items, t, s, random⟩
      [.queried count
        (((drawRanges count random).1.map fun q => rangesOverlapping ranges q.1 q.2).sum %
          UInt64.size)]
      ⟨tree, items, t, s, (drawRanges count random).2⟩ := by
  refine leads_stage ?_
  simp only [Stage.query, h.queryAll_eq, outcome, bind, Except.bind, UInt64.zero_add,
    UInt64.toNat_ofNat']
  rfl

/-- The last stages load the segments and put the queries. -/
theorem leads_segments (tree : τ) (items : Store Item) (o : Options) (random : γ) :
    ∃ b', Leads
      (if o.segments = 0 then []
        else [.generateSegments o.segments, .loadSegments, .query o.queries])
      { tree, items, random }
      (if o.segments = 0 then []
        else [.loadedSegments o.segments, .queried o.queries
          (((drawRanges o.queries (drawRanges o.segments random).2).1.map fun q =>
            rangesOverlapping (drawRanges o.segments random).1 q.1 q.2).sum % UInt64.size)])
      b' := by
  by_cases hsegments : o.segments = 0
  · simp only [if_pos hsegments]
    exact ⟨_, leads_nil _⟩
  · simp only [if_neg hsegments]
    obtain ⟨t, s, shape, hload, hloaded⟩ := leads_loadSegments tree items o.segments random
    exact ⟨_, hload.append (leads_query hloaded tree items o.queries _)⟩

end Segments

/-! ### The report -/

/-- The report on trees of one kind. -/
theorem reportOn_eq (τ : Type) [Subject τ] [Subject.Lawful τ] (o : Options) (seed : Nat)
    (random : γ) :
    ∃ depth, reportOn τ o seed random = .ok (expected o seed depth (drawn o random)) ∧
      o.loads < 2 ^ depth ∧ 2 ^ depth ≤ (o.loads + 1) ^ 2 := by
  obtain ⟨tree, items, shape, hload, htracks⟩ := leads_load (τ := τ) o seed random
  obtain ⟨tree', items', shape', hact, htracks'⟩ := leads_act htracks o.incrs .empty #[]
    (discard o.loads random)
  obtain ⟨b, hsegments⟩ := leads_segments tree' items' o
    (drawActions o.incrs (discard o.loads random)).2
  have hsize : shape.size = o.loads := htracks.size_eq_card.trans (Finset.card_range o.loads)
  obtain ⟨height, hredBlack⟩ := htracks.tree_keeps.redBlack
  refine ⟨shape.height, ?_, ?_, ?_⟩
  · exact ((((hload.append (leads_find htracks _)).append hact).append
      (leads_walk htracks')).append hsegments).follow_eq
  · rw [← hsize]
    exact shape.size_lt_two_pow_height
  · rw [← hsize]
    exact hredBlack.two_pow_height_le

/-- For all options, both kinds of trees and any stream of numbers, the run comes to its end: no
insertion is turned down, no look-up misses, and nothing faults. Its report is the expected one. The
depth of the loaded tree is at least what its size needs, and at most twice that. What both walks
count is the items that were loaded or inserted, less the deletions that hit a linked one. The
ranges of segments and queries are not empty, and the sums that make them do not overflow. The
queries report the number of segments that overlap them, summed in a machine word. That is at most
all segments for each query, and if a word can hold so many, then the sum is what is reported. -/
theorem report_eq (o : Options) (seed : Nat) (random : γ) :
    (∃ depth, report o seed random = .ok (expected o seed depth (drawn o random)) ∧
      o.loads < 2 ^ depth ∧ 2 ^ depth ≤ (o.loads + 1) ^ 2) ∧
    ((drawn o random).ledger o.loads).linked.card + ((drawn o random).ledger o.loads).hits =
      o.loads + ((drawn o random).ledger o.loads).tally.inserts ∧
    (∀ r ∈ (drawn o random).segments ++ (drawn o random).queries,
      r.1 < r.2 ∧ r.2 < UInt64.size) ∧
    (drawn o random).overlapping ≤ o.queries * o.segments ∧
    (o.queries * o.segments < UInt64.size →
      (drawn o random).reported = (drawn o random).overlapping) := by
  have hle := overlapping_drawn_le o random
  refine ⟨?_, ?_, ?_, hle, fun hlt => Nat.mod_eq_of_lt (Nat.lt_of_le_of_lt hle hlt)⟩
  · unfold report
    split_ifs
    · exact reportOn_eq CachedTree o seed random
    · exact reportOn_eq Tree o seed random
  · exact ((Ledger.adds_loaded o.loads).foldl (drawn o random).actions).card_add
  · intro r hr
    exact (List.mem_append.mp hr).elim bounds_of_mem_drawRanges bounds_of_mem_drawRanges

/-! ### A run that draws zeros -/

/-- The stream of zeros. -/
inductive Zeros where
  | zeros

instance : Source Zeros := ⟨fun g => (0, g)⟩

/-- All ranges that are drawn from zeros are the same. -/
theorem drawRanges_zeros (count : Nat) (g : Zeros) :
    drawRanges count g = (List.replicate count (0, 1), g) := by
  induction count generalizing g with
  | zero => rfl
  | succ count ih =>
    have hzero (bound : UInt64) : drawBelow bound g = (0, g) := by
      show ((0 % bound).toNat, g) = (0, g)
      simp
    simp only [drawRanges, hzero, ih, List.replicate_succ]

/-- Two segments, and nothing but queries besides. -/
def queriesOnly (queries : Nat) : Options := { loads := 0, loops := 0, segments := 2, queries }

/-- Each query meets both segments. -/
theorem overlapping_zeros (queries : Nat) :
    (drawn (queriesOnly queries) Zeros.zeros).overlapping = queries * 2 := by
  have hdrawn : drawn (queriesOnly queries) Zeros.zeros =
      { actions := [], segments := List.replicate 2 (0, 1),
        queries := List.replicate queries (0, 1) } := by
    show Drawn.mk [] (drawRanges 2 Zeros.zeros).1
      (drawRanges queries (drawRanges 2 Zeros.zeros).2).1 = _
    simp only [drawRanges_zeros]
  have hmeets : rangesOverlapping (List.replicate 2 (0, 1)) 0 1 = 2 := by decide
  simp only [hdrawn, Drawn.overlapping, List.map_replicate, hmeets,
    List.sum_replicate_nat]

/-- The run comes to its end, and has twice as many answers as queries to report. -/
theorem report_queriesOnly (queries : Nat) :
    ∃ depth, report (queriesOnly queries) 0 Zeros.zeros =
      .ok [.seed 0, .generating 0, .loaded 0, .depth depth, .walkedInOrder 0, .walkedPostOrder 0,
        .loadedSegments 2, .queried queries (queries * 2 % UInt64.size)] := by
  obtain ⟨depth, hreport, -⟩ := reportOn_eq Tree (queriesOnly queries) 0 Zeros.zeros
  refine ⟨depth, ?_⟩
  show reportOn Tree (queriesOnly queries) 0 Zeros.zeros = _
  rw [hreport, expected, Drawn.reported, overlapping_zeros]
  rfl

/-- A word can hold the answers of three queries. -/
theorem report_few :
    3 * 2 < UInt64.size ∧ (∃ depth, report (queriesOnly 3) 0 Zeros.zeros =
      .ok (expected (queriesOnly 3) 0 depth (drawn (queriesOnly 3) Zeros.zeros))) ∧
    (drawn (queriesOnly 3) Zeros.zeros).reported = 6 := by
  obtain ⟨⟨depth, hreport, -⟩, -, -, -, hreported⟩ := report_eq (queriesOnly 3) 0 Zeros.zeros
  refine ⟨by decide, ⟨depth, hreport⟩, ?_⟩
  rw [hreported (by decide), overlapping_zeros]

/-- It cannot hold those of 2 ^ 63 queries, which have 2 ^ 64 answers. The run comes to its end all
the same, and reports no segments. -/
theorem report_wraps :
    (drawn (queriesOnly (2 ^ 63)) Zeros.zeros).overlapping = 2 ^ 64 ∧
    ∃ depth, report (queriesOnly (2 ^ 63)) 0 Zeros.zeros =
      .ok [.seed 0, .generating 0, .loaded 0, .depth depth, .walkedInOrder 0, .walkedPostOrder 0,
        .loadedSegments 2, .queried (2 ^ 63) 0] := by
  have hsum : 2 ^ 63 * 2 = 2 ^ 64 := by norm_num
  have hwrapped : 2 ^ 63 * 2 % UInt64.size = 0 := by norm_num [UInt64.size]
  obtain ⟨depth, hreport⟩ := report_queriesOnly (2 ^ 63)
  rw [hwrapped] at hreport
  exact ⟨(overlapping_zeros _).trans hsum, depth, hreport⟩

end RecordTree.Benchmark
