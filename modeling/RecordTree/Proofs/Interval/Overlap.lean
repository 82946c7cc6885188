import RecordTree.Proofs.Interval.Run

/-!
# `RecordTree.Proofs.Interval.Overlap`: queries find what a scan finds

`Store.hits` tells of one record whether its interval overlaps a query. A query that went
through all nodes would answer with the walk, filtered by that. The searches skip most of the
nodes, and still come to the same answers:

* nodes under one that does not reach past the lower bound overlap nothing
  (`Shape.filter_hits_eq_nil`),
* and so do all that come after one that starts at the upper bound or later (`Store.Late`). If a
  search under a node that reaches past the lower bound finds nothing, it has met such a late one
  (`Store.searchOverlapFrom_eq`), which is why it never turns back.

`Intervals.overlaps_of_reachable` puts this together for the queries on an interval tree, and
`Intervals.resume_of_reachable` for queries that are taken up at one of its nodes.
-/

set_option autoImplicit false

namespace RecordTree

variable {ρ σ κ : Type} [Spanned ρ κ] [LinearOrder κ] {s : Store ρ} {lo hi : κ} {id j : RecordId}

/-! ### One record -/

namespace Store

/-- Whether the interval of record `id` starts before `hi` and stops after `lo`. -/
def hits (s : Store ρ) (lo hi : κ) (id : RecordId) : Bool :=
  match s.entry id with
  | .ok e => e.start < hi && lo < e.stop
  | .error _ => false

/-- The record `id` starts at `hi` or later. -/
def Late (s : Store ρ) (hi : κ) (id : RecordId) : Prop := ∃ e, s.entry id = .ok e ∧ hi ≤ e.start

/-- What is reported about a record is computed from its start and stop. -/
theorem hits_of_entry {e : Entry κ} (he : s.entry id = .ok e) :
    s.hits lo hi id = (decide (e.start < hi) && decide (lo < e.stop)) := by
  rw [hits, he]

/-- What is reported are the intervals that overlap as the code has it. -/
theorem hits_iff_overlaps :
    s.hits lo hi id = true ↔ ∃ e, s.entry id = .ok e ∧ e.overlaps lo hi = true := by
  unfold hits
  cases s.entry id with
  | error fault => simp
  | ok e => simp [Entry.overlaps, overlaps]

/-- What starts too late is not reported. -/
theorem Late.hits_eq_false (h : s.Late hi id) : s.hits lo hi id = false := by
  obtain ⟨e, he, hle⟩ := h
  rw [hits_of_entry he, decide_eq_false (not_lt.mpr hle), Bool.false_and]

/-- All after a late node of a sorted list are late. -/
theorem Sorted.late {l r : List RecordId} (h : s.Sorted compareStart (l ++ id :: r))
    (hlate : s.Late hi id) (hj : j ∈ r) : s.Late hi j := by
  obtain ⟨-, hid, -⟩ := List.pairwise_append.mp (sorted_compareStart.mp h)
  obtain ⟨d, e, hd, he, hle⟩ := (List.pairwise_cons.mp hid).1 j hj
  obtain ⟨d', hd', hle'⟩ := hlate
  rw [hd] at hd'
  cases hd'
  exact ⟨e, he, hle'.trans hle⟩

/-- Late nodes are no hits. -/
theorem filter_hits_of_late {l : List RecordId} (lo : κ) (h : ∀ j ∈ l, s.Late hi j) :
    l.filter (s.hits lo hi) = [] :=
  List.filter_eq_nil_iff.mpr fun j hj => by simp [(h j hj).hits_eq_false]

/-- If a part of a sorted list has a late node unless it has a hit, then the first hit of the
part is the first one of all, whatever comes after. -/
theorem Sorted.head?_filter_hits {l r : List RecordId} (h : s.Sorted compareStart (l ++ r))
    (hlate : l.filter (s.hits lo hi) = [] → ∃ j ∈ l, s.Late hi j) :
    ((l ++ r).filter (s.hits lo hi)).head? = (l.filter (s.hits lo hi)).head? := by
  rw [List.filter_append]
  by_cases hnone : l.filter (s.hits lo hi) = []
  · obtain ⟨j, hj, hj'⟩ := hlate hnone
    obtain ⟨l₁, l₂, rfl⟩ := List.append_of_mem hj
    rw [List.append_assoc, List.cons_append] at h
    have hrest : ∀ k ∈ r, s.Late hi k := by
      intro k hk
      exact h.late hj' (List.mem_append_right l₂ hk)
    rw [hnone, filter_hits_of_late lo hrest]
    rfl
  · exact List.head?_append_of_ne_nil _ hnone

end Store

variable [LawfulSpanned ρ]

/-- What does not stop after the range has started is not reported. -/
theorem Store.hits_eq_false_of_stop
    (h : ¬ (lo : WithBot κ) < Payloads.stopAt s.payload id) : s.hits lo hi id = false := by
  cases he : s.entry id with
  | error _ => rw [hits, he]
  | ok e =>
    rw [(payload_of_entry he).2.1, WithBot.coe_lt_coe] at h
    rw [hits_of_entry he, decide_eq_false h, Bool.and_false]

/-! ### Subtrees -/

section Search

variable {t : Shape} {parent : Option RecordId}

/-- Nothing under a node that does not reach past `lo` is a hit. -/
theorem Shape.filter_hits_eq_nil
    (h : ¬ (lo : WithBot κ) < t.farthest (Payloads.stopAt s.payload)) :
    t.inorder.filter (s.hits lo hi) = [] := by
  refine List.filter_eq_nil_iff.mpr ?_
  intro j hj
  have hstop : ¬ (lo : WithBot κ) < Payloads.stopAt s.payload j := fun hlt =>
    h (Shape.lt_farthest.mpr ⟨j, hj, hlt⟩)
  simp [Store.hits_eq_false_of_stop hstop]

/-- A tree that reaches past `lo` has a root. -/
theorem Shape.exists_root?_of_lt_farthest {stop : RecordId → WithBot κ}
    (h : (lo : WithBot κ) < t.farthest stop) : ∃ root, t.root? = some root := by
  refine Option.ne_none_iff_exists'.mp (Shape.root?_ne_none ?_)
  rintro rfl
  simp at h

/-- A child is entered if its subtree has a stop past `lo`. -/
theorem Store.childPast_eq (hspells : Spells s parent t) (ht : Exact s.payload t) (lo : κ) :
    s.childPast lo t.root? = .ok (if (lo : WithBot κ) < t.farthest (Payloads.stopAt s.payload)
      then t.root? else none) := by
  cases hroot : t.root? with
  | none => simp [childPast]
  | some j =>
    obtain ⟨n, hn, -⟩ := hspells.exists_linked (Shape.mem_of_root? hroot)
    obtain ⟨e, he, -⟩ := Store.exists_entry hn
    rw [← ht.reachAt_eq hroot, (Store.payload_of_entry he).2.2]
    simp only [childPast, he, WithBot.coe_lt_coe]
    rfl

/-- A search under a node that reaches past `lo` finds the first hit there. If there is none, it
has met a late node. -/
theorem Store.searchOverlapFrom_eq (hi : κ) {steps : Nat} (hspells : Spells s parent t)
    (ht : Exact s.payload t) (hsorted : s.Sorted compareStart t.inorder)
    (hroot : t.root? = some id)
    (hpast : (lo : WithBot κ) < t.farthest (Payloads.stopAt s.payload)) (hsteps : t.size ≤ steps) :
    s.searchOverlapFrom lo hi steps id = .ok (t.inorder.filter (s.hits lo hi)).head? ∧
      (t.inorder.filter (s.hits lo hi) = [] → ∃ j ∈ t.inorder, s.Late hi j) := by
  -- Along the way down, which follows the reaches and never comes back.
  induction t generalizing parent id steps with
  | leaf => cases hroot
  | node c l top r ihl ihr =>
    cases hroot
    obtain ⟨steps, rfl⟩ : ∃ k, steps = k + 1 := Nat.exists_eq_add_one.mpr (by
      simp only [Shape.size] at hsteps
      omega)
    obtain ⟨hn, hsl, hsr⟩ := spells_node.mp hspells
    obtain ⟨e, he, hnode⟩ := Store.exists_entry hn
    obtain ⟨-, hl, hr⟩ := ht
    have hchildl := Store.childPast_eq hsl hl lo
    have hchildr := Store.childPast_eq hsr hr lo
    simp only [Shape.size] at hsteps
    simp only [Shape.inorder] at hsorted ⊢
    have hsplit := List.pairwise_append.mp hsorted
    have hsortedr : s.Sorted compareStart r.inorder := (List.pairwise_cons.mp hsplit.2.1).2
    simp only [searchOverlapFrom, he, hnode, Node.placed, Node.setChild, Side.flip, bind,
      Except.bind, hchildl]
    by_cases hpastl : (lo : WithBot κ) < l.farthest (Payloads.stopAt s.payload)
    · -- The first hit is on the left, or a late node is there, and all that follow are late too.
      obtain ⟨left, hleft⟩ := Shape.exists_root?_of_lt_farthest hpastl
      obtain ⟨heq, hlate⟩ := ihl hsl hl hsplit.1 hleft hpastl (show l.size ≤ steps by omega)
      simp only [if_pos hpastl, hleft, heq, hsorted.head?_filter_hits hlate, true_and]
      intro hnone
      rw [List.filter_append] at hnone
      obtain ⟨j, hj, hj'⟩ := hlate (List.append_eq_nil_iff.mp hnone).1
      exact ⟨j, List.mem_append_left _ hj, hj'⟩
    · rw [List.filter_append, List.filter_cons, Shape.filter_hits_eq_nil hpastl, List.nil_append,
        Store.hits_of_entry he]
      simp only [if_neg hpastl]
      by_cases hstart : e.start < hi
      · by_cases hstop : lo < e.stop
        · simp [hstart, hstop]
        · -- Only the right subtree can be what reaches past `lo`.
          have hpastr : (lo : WithBot κ) < r.farthest (Payloads.stopAt s.payload) := by
            rw [Shape.farthest, lt_sup_iff, lt_sup_iff, (Store.payload_of_entry he).2.1,
              WithBot.coe_lt_coe] at hpast
            exact (hpast.resolve_left (not_or.mpr ⟨hstop, hpastl⟩))
          obtain ⟨right, hright⟩ := Shape.exists_root?_of_lt_farthest hpastr
          obtain ⟨heq, hlate⟩ := ihr hsr hr hsortedr hright hpastr (show r.size ≤ steps by omega)
          rw [if_pos hpastr, hright] at hchildr
          simp only [hstart, hstop, hright, hchildr, heq, decide_true, decide_false, Bool.and_false,
            Bool.false_eq_true, if_true, if_false]
          refine ⟨trivial, fun hnone => ?_⟩
          obtain ⟨j, hj, hj'⟩ := hlate hnone
          exact ⟨j, by simp [hj], hj'⟩
      · -- The top is late itself, and the whole right subtree with it.
        have hlate : s.Late hi top := ⟨e, he, not_lt.mp hstart⟩
        have hempty := Store.filter_hits_of_late lo fun k hk => hsorted.late hlate hk
        simp only [hempty, hstart, decide_false, Bool.false_and, Bool.false_eq_true,
          if_false]
        exact ⟨rfl, fun _ => ⟨top, by simp, hlate⟩⟩

end Search

/-! ### The cursor -/

/-- From each node of `l` the query goes to the next one of `l`. -/
def Store.Answers (s : Store ρ) (lo hi : κ) (l : List RecordId) : Prop :=
  ∀ before id after, l = before ++ id :: after → s.nextOverlap id lo hi = .ok after.head?

namespace OverlapCursor

variable {l : List RecordId}

omit [LawfulSpanned ρ] in
/-- A cursor hands out the answer that it stands at, and goes to the next one. -/
theorem advance_eq (h : s.Answers lo hi l) {before after : List RecordId}
    (hl : l = before ++ id :: after) :
    (OverlapCursor.mk lo hi (some id)).advance s = .ok (some (id, ⟨lo, hi, after.head?⟩)) := by
  have hnext := h before id after hl
  simp only [advance, hnext]
  rfl

omit [LawfulSpanned ρ] in
/-- A cursor hands out what is left of the answers. -/
theorem listFrom_eq (h : s.Answers lo hi l) {steps : Nat} {before after : List RecordId}
    (hl : l = before ++ after) (hsteps : after.length < steps) :
    listFrom s steps ⟨lo, hi, after.head?⟩ = .ok after := by
  induction after generalizing steps before with
  | nil =>
    obtain ⟨steps, rfl⟩ := Nat.exists_eq_add_one.mpr hsteps
    rfl
  | cons id after ih =>
    obtain ⟨steps, rfl⟩ : ∃ k, steps = k + 1 := Nat.exists_eq_add_one.mpr (by omega)
    rw [List.length_cons] at hsteps
    have hsplit : l = (before ++ [id]) ++ after := by simp [hl]
    have hrest := ih hsplit (show after.length < steps by omega)
    rw [List.head?_cons, listFrom, advance_eq h hl]
    simp only [bind, Except.bind, hrest]
    rfl

omit [LawfulSpanned ρ] in
/-- A cursor hands out as many answers as it is asked for. -/
theorem take_eq (h : s.Answers lo hi l) (limit : Nat) {before after : List RecordId}
    (hl : l = before ++ after) : take s limit ⟨lo, hi, after.head?⟩ = .ok (after.take limit) := by
  induction limit generalizing before after with
  | zero => rfl
  | succ limit ih =>
    cases after with
    | nil => rfl
    | cons id after =>
      have hsplit : l = (before ++ [id]) ++ after := by simp [hl]
      have hrest := ih hsplit
      rw [List.head?_cons, take, advance_eq h hl]
      simp only [bind, Except.bind, hrest]
      rfl

omit [LawfulSpanned ρ] in
/-- A cursor that stands at the first answer lists all of them. -/
theorem toList_eq (h : s.Answers lo hi l) (hlen : l.length ≤ s.size) :
    (OverlapCursor.mk lo hi l.head?).toList s = .ok l := by
  exact listFrom_eq h (List.nil_append l).symm (Store.lt_walkLimit hlen)

end OverlapCursor

/-! ### The whole tree -/

namespace IntervalTree.Keeps

variable {t : IntervalTree} {shape : Shape} {l r : List RecordId}

omit [LawfulSpanned ρ] in
/-- Each node of an interval tree has an interval. -/
theorem exists_entry (h : t.Keeps s shape) (hj : j ∈ shape.inorder) :
    ∃ e, s.entry j = .ok e := by
  obtain ⟨n, hn, -⟩ := h.cached.keeps.spells.exists_linked hj
  obtain ⟨e, he, -⟩ := Store.exists_entry hn
  exact ⟨e, he⟩

omit [LawfulSpanned ρ] in
/-- Past a late node there are no hits. -/
theorem filter_hits_of_late (h : t.Keeps s shape) (lo : κ) (hlist : shape.inorder = l ++ id :: r)
    (hlate : s.Late hi id) : r.filter (s.hits lo hi) = [] := by
  have hsorted := h.sorted
  rw [hlist] at hsorted
  exact Store.filter_hits_of_late lo fun j hj => hsorted.late hlate hj

/-- The search after a node finds the first hit among the nodes that come after it. -/
theorem nextOverlapFrom_eq (h : t.Keeps s shape) {steps : Nat}
    (hlist : shape.inorder = l ++ id :: r) (hsteps : r.length < steps) :
    s.nextOverlapFrom lo hi steps id = .ok (r.filter (s.hits lo hi)).head? := by
  -- Each round passes the right subtree of `id` and comes to the next ancestor after it.
  induction steps generalizing l id r with
  | zero => omega
  | succ steps ih =>
    have hshape := h.cached.keeps.toHasShape
    obtain ⟨C, c, a, b, hfill, hl, hr⟩ := hshape.exists_split hlist
    have hexact := h.exact
    rw [hfill] at hshape hexact
    obtain ⟨hn, -, hspells⟩ := spells_node.mp (represents_fill.mp hshape.represents).2
    obtain ⟨-, -, hexactb⟩ := (exact_fill.mp hexact).1
    obtain ⟨e, he, hnode⟩ := Store.exists_entry hn
    have hchild := Store.childPast_eq hspells hexactb lo
    simp only [Store.nextOverlapFrom, he, hnode, Node.placed, Node.setChild, Side.flip, bind,
      Except.bind, hchild]
    by_cases hpast : (lo : WithBot κ) < b.farthest (Payloads.stopAt s.payload)
    · -- The first hit is in the right subtree, or a late node is there.
      obtain ⟨right, hright⟩ := Shape.exists_root?_of_lt_farthest hpast
      have hrest : (b.inorder ++ C.after).Sublist shape.inorder := by
        rw [hlist, hr]
        exact (List.sublist_cons_self id _).trans (List.sublist_append_right l _)
      have hsorted : s.Sorted compareStart (b.inorder ++ C.after) := h.sorted.sublist hrest
      have hsub : b.inorder.Sublist shape.inorder := (List.sublist_append_left _ _).trans hrest
      have hsize : b.size ≤ s.walkLimit := by
        rw [← Shape.join_left] at hshape
        exact (Store.lt_walkLimit hshape.far.size_le_of_fill).le
      obtain ⟨heq, hlate⟩ := Store.searchOverlapFrom_eq hi hspells hexactb (h.sorted.sublist hsub)
        hright hpast hsize
      simp only [if_pos hpast, hright, Store.searchOverlap]
      rw [heq, hr, hsorted.head?_filter_hits hlate]
    · -- Nothing in the right subtree is a hit. The node beyond it is the next to be looked at.
      have hclimb : s.climb .right id = .ok C.after.head? :=
        hshape.climb_eq .right (Shape.root?_node c a b id)
      simp only [if_neg hpast, hclimb]
      rw [hr, List.filter_append, Shape.filter_hits_eq_nil hpast, List.nil_append]
      cases hafter : C.after with
      | nil => rfl
      | cons above rest =>
        have hsplit : shape.inorder = (l ++ id :: b.inorder) ++ above :: rest := by
          simp [hlist, hr, hafter]
        obtain ⟨e', he'⟩ := h.exists_entry (j := above) (by simp [hsplit])
        rw [hr, hafter, List.length_append, List.length_cons] at hsteps
        rw [List.filter_cons, Store.hits_of_entry he']
        simp only [List.head?_cons, he']
        by_cases hstart : e'.start < hi
        · by_cases hstop : lo < e'.stop
          · simp [hstart, hstop]
          · have hnext := ih hsplit (show rest.length < steps by omega)
            simp [hstart, hstop, hnext]
        · have hrest := h.filter_hits_of_late lo hsplit ⟨e', he', not_lt.mp hstart⟩
          simp [hstart, hrest]

/-- From a node on, the next overlap is the first of the nodes after it that is reported. -/
theorem nextOverlap_eq (h : t.Keeps s shape) (hlist : shape.inorder = l ++ id :: r) :
    s.nextOverlap id lo hi = .ok (r.filter (s.hits lo hi)).head? := by
  refine h.nextOverlapFrom_eq hlist (Store.lt_walkLimit ?_)
  have hle := h.cached.keeps.length_le
  rw [hlist, List.length_append, List.length_cons] at hle
  omega

/-- The first hit of a query that is not empty. -/
theorem firstOverlap_eq (h : t.Keeps s shape) (hlt : lo < hi) :
    t.firstOverlap s lo hi = .ok (shape.inorder.filter (s.hits lo hi)).head? := by
  have hroot := h.cached.keeps.root_eq
  have hspells := h.cached.keeps.spells
  rw [firstOverlap, if_pos hlt, hroot]
  cases hshape : shape.root? with
  | none =>
    rw [Shape.eq_leaf_of_root? hshape]
    rfl
  | some root =>
    obtain ⟨e, he⟩ := h.exists_entry (Shape.mem_of_root? hshape)
    have hreach := h.exact.reachAt_eq hshape
    rw [(Store.payload_of_entry he).2.2] at hreach
    simp only [he, bind, Except.bind]
    -- Below the root lies the whole tree, so its reach tells whether anything can overlap.
    by_cases hpast : lo < e.reach
    · rw [if_pos hpast, h.cached.leftmost_eq]
      cases hlist : shape.inorder with
      | nil => rfl
      | cons first rest =>
        obtain ⟨e', he'⟩ := h.exists_entry (j := first) (by simp [hlist])
        simp only [List.head?_cons, he']
        by_cases hstart : e'.start < hi
        · have hsize : shape.size ≤ s.walkLimit := (Store.lt_walkLimit h.cached.keeps.size_le).le
          have hsearch := Store.searchOverlapFrom_eq hi hspells h.exact h.sorted hshape
            (show (lo : WithBot κ) < _ by rwa [← hreach, WithBot.coe_lt_coe]) hsize
          rw [if_pos hstart, ← hlist]
          exact hsearch.1
        · -- If the first node is late, then all are.
          have hlate : s.Late hi first := ⟨e', he', not_lt.mp hstart⟩
          have hrest := h.filter_hits_of_late lo (l := []) hlist hlate
          rw [if_neg hstart, List.filter_cons, hlate.hits_eq_false, hrest]
          rfl
    · rw [if_neg hpast, Shape.filter_hits_eq_nil]
      · rfl
      · rwa [← hreach, WithBot.coe_lt_coe]

/-- The query after a hit goes on to the hit that follows it. -/
theorem answers (h : t.Keeps s shape) :
    s.Answers lo hi (shape.inorder.filter (s.hits lo hi)) := by
  intro before id after hsplit
  obtain ⟨l, rest, hlist, -, hrest⟩ := List.filter_eq_append_iff.mp hsplit
  -- Between two hits of the list lie nodes that the filter drops.
  obtain ⟨skipped, r, rfl, -, -, rfl⟩ := List.filter_eq_cons_iff.mp hrest
  refine h.nextOverlap_eq (l := l ++ skipped) ?_
  rw [hlist, List.append_assoc]

end IntervalTree.Keeps

namespace IntervalTree.Keeps

variable {t : IntervalTree} {shape : Shape} {l r : List RecordId}

/-- The query taken up after a node stands at the first hit that comes after it. -/
theorem afterNode_eq (h : t.Keeps s shape) (hlist : shape.inorder = l ++ id :: r) :
    OverlapCursor.afterNode s id lo hi = .ok ⟨lo, hi, (r.filter (s.hits lo hi)).head?⟩ := by
  rw [OverlapCursor.afterNode, h.nextOverlap_eq hlist]
  rfl

/-- The query taken up at a node stands there if the node is a hit itself. -/
theorem fromNode_eq (h : t.Keeps s shape) (hlist : shape.inorder = l ++ id :: r) :
    OverlapCursor.fromNode s id lo hi =
      .ok ⟨lo, hi, ((id :: r).filter (s.hits lo hi)).head?⟩ := by
  have hid : id ∈ shape.inorder := by simp [hlist]
  obtain ⟨e, he⟩ := h.exists_entry hid
  have hhits : s.hits lo hi id = e.overlaps lo hi := Store.hits_of_entry he
  simp only [OverlapCursor.fromNode, he, bind, Except.bind]
  rw [List.filter_cons, hhits]
  by_cases hoverlaps : e.overlaps lo hi = true
  · rw [if_pos hoverlaps, if_pos hoverlaps]
    rfl
  · rw [if_neg hoverlaps, if_neg hoverlaps]
    exact h.afterNode_eq hlist

/-- A cursor that stands at the first hit of the rest of the walk hands out all hits there. -/
theorem toList_rest (h : t.Keeps s shape) (hlist : shape.inorder = l ++ r) :
    (OverlapCursor.mk lo hi (r.filter (s.hits lo hi)).head?).toList s =
      .ok (r.filter (s.hits lo hi)) := by
  have hsplit : shape.inorder.filter (s.hits lo hi) =
      l.filter (s.hits lo hi) ++ r.filter (s.hits lo hi) := by
    rw [hlist, List.filter_append]
  refine OverlapCursor.listFrom_eq h.answers hsplit (Store.lt_walkLimit ?_)
  have hle := h.cached.keeps.length_le
  rw [hlist, List.length_append] at hle
  exact (List.length_filter_le _ r).trans (by omega)

end IntervalTree.Keeps

/-! ### The queries -/

namespace Intervals

variable [Listener σ] {f : Intervals ρ σ}

/-- In every reachable state the answers to a query that is not empty are the nodes whose
intervals overlap it, each once and in the order of the ascending walk. The cursor hands out all
of them, or as many as it is asked for, and the first one is found on its own. -/
theorem overlaps_of_reachable (h : f.Reachable) (hlt : lo < hi) :
    ∃ l cursor, f.walk = .ok l ∧ l.Nodup ∧
      (∀ id n, f.store.node id = .ok n → (n.state = .linked ↔ id ∈ l)) ∧
      f.tree.overlaps f.store lo hi = .ok cursor ∧
      cursor.toList f.store = .ok (l.filter (f.store.hits lo hi)) ∧
      (∀ limit, cursor.take f.store limit = .ok ((l.filter (f.store.hits lo hi)).take limit)) ∧
      f.tree.firstOverlap f.store lo hi = .ok (l.filter (f.store.hits lo hi)).head? := by
  obtain ⟨shape, hkeeps⟩ := h.exists_keeps
  have hfirst := hkeeps.firstOverlap_eq hlt
  have hanswers : f.store.Answers lo hi (shape.inorder.filter (f.store.hits lo hi)) :=
    hkeeps.answers
  -- A cursor takes no more steps than there are nodes.
  have hlen : (shape.inorder.filter (f.store.hits lo hi)).length ≤ f.store.size :=
    (List.length_filter_le _ _).trans hkeeps.cached.keeps.length_le
  refine ⟨shape.inorder, ⟨lo, hi, (shape.inorder.filter (f.store.hits lo hi)).head?⟩,
    hkeeps.walk_eq, hkeeps.cached.keeps.nodup, ?_, ?_, ?_, ?_, hfirst⟩
  · intro id n hn
    rw [hkeeps.linked_iff hn, hkeeps.holds_iff]
  · rw [IntervalTree.overlaps, hfirst]
    rfl
  · exact OverlapCursor.toList_eq hanswers hlen
  · intro limit
    exact OverlapCursor.take_eq hanswers limit (List.nil_append _).symm

/-- Of the two intervals, the query `[3, 4)` overlaps the first one. -/
theorem overlaps_sample :
    ∃ cursor, sample.tree.overlaps sample.store 3 4 = .ok cursor ∧
      cursor.toList sample.store = .ok [0] := by
  have hlt : 3 < 4 := by decide
  obtain ⟨l, cursor, hwalk, -, -, hcursor, hlist, -⟩ := overlaps_of_reachable reachable_sample hlt
  cases hwalk
  exact ⟨cursor, hcursor, hlist⟩

/-- In every reachable state a query can be taken up at any node of the tree, whatever its range.
The node splits the walk. The first node behind it that overlaps the range is the next one, and
the query taken up after the node answers with all that do, in the order of the walk. Taken up
at the node it does the same, but has the node itself in front exactly if that overlaps the range.
If the range is not empty, then both are what is left there of the query on the whole tree. -/
theorem resume_of_reachable (h : f.Reachable) (hholds : f.Holds id) (lo hi : κ) :
    ∃ l r, f.walk = .ok (l ++ id :: r) ∧ (l ++ id :: r).Nodup ∧
      f.store.nextOverlap id lo hi = .ok (r.find? (f.store.hits lo hi)) ∧
      (∃ cursor, OverlapCursor.afterNode f.store id lo hi = .ok cursor ∧
        cursor.toList f.store = .ok (r.filter (f.store.hits lo hi))) ∧
      (∃ cursor, OverlapCursor.fromNode f.store id lo hi = .ok cursor ∧
        cursor.toList f.store = .ok ((id :: r).filter (f.store.hits lo hi)) ∧
        (cursor.next = some id ↔ f.store.hits lo hi id = true)) ∧
      (lo < hi → ∃ cursor, f.tree.overlaps f.store lo hi = .ok cursor ∧
        cursor.toList f.store = .ok (l.filter (f.store.hits lo hi) ++
          (id :: r).filter (f.store.hits lo hi))) := by
  obtain ⟨shape, hkeeps⟩ := h.exists_keeps
  obtain ⟨l, r, hlist⟩ := List.append_of_mem (hkeeps.holds_iff.mp hholds)
  have hnodup := hkeeps.cached.keeps.nodup
  rw [hlist] at hnodup
  have hafter : shape.inorder = (l ++ [id]) ++ r := by simp [hlist]
  refine ⟨l, r, hlist ▸ hkeeps.walk_eq, hnodup, ?_, ⟨_, hkeeps.afterNode_eq hlist, ?_⟩,
    ⟨_, hkeeps.fromNode_eq hlist, ?_, ?_⟩, ?_⟩
  · rw [hkeeps.nextOverlap_eq hlist, List.head?_filter]
  · exact hkeeps.toList_rest hafter
  · exact hkeeps.toList_rest hlist
  · -- Only `id` can come first as `id`, since it does not stand behind itself.
    show ((id :: r).filter (f.store.hits lo hi)).head? = some id ↔ _
    have hout : id ∉ r := (List.nodup_cons.mp (List.nodup_append.mp hnodup).2.1).1
    rw [List.filter_cons]
    by_cases hhits : f.store.hits lo hi id = true
    · simp [hhits]
    · rw [if_neg hhits]
      refine iff_of_false (fun hhead => hout ?_) hhits
      exact List.mem_of_mem_filter (List.mem_of_head? hhead)
  · intro hlt
    refine ⟨⟨lo, hi, (shape.inorder.filter (f.store.hits lo hi)).head?⟩, ?_, ?_⟩
    · rw [IntervalTree.overlaps, hkeeps.firstOverlap_eq hlt]
      rfl
    · rw [← List.filter_append, ← hlist]
      exact hkeeps.toList_rest (List.nil_append _).symm

/-- Both intervals overlap `[2, 4)`. Taken up at the first one the query answers with both, and
behind it with the second. -/
theorem resume_sample : sample.store.nextOverlap 0 2 4 = .ok (some 1) ∧
    ∃ cursor, OverlapCursor.fromNode sample.store 0 2 4 = .ok cursor ∧
      cursor.toList sample.store = .ok [0, 1] := by
  have hholds : sample.Holds 0 := .here rfl
  obtain ⟨l, r, hwalk, -, hnext, -, ⟨cursor, hcursor, hrest, -⟩, -⟩ :=
    resume_of_reachable reachable_sample hholds 2 4
  have hlist : [] ++ 0 :: [1] = l ++ 0 :: r := Except.ok.inj hwalk
  obtain ⟨rfl, -, rfl⟩ :=
    (List.append_cons_inj_of_notMem (by decide : 0 ∉ []) (by decide : 0 ∉ [1])).mp hlist
  exact ⟨hnext, cursor, hcursor, hrest⟩

end Intervals

end RecordTree
