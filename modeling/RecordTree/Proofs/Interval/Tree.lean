import RecordTree.Interval.Tree
import RecordTree.Proofs.CachedTree
import RecordTree.Proofs.Interval.Reach
import RecordTree.Proofs.Sorted

/-!
# `RecordTree.Proofs.Interval.Tree`: what each call on an interval tree keeps

`IntervalTree.Keeps` is what holds of an interval tree between calls: a red-black tree whose
first node is cached, all reaches exact, and the nodes sorted by start.

* `IntervalTree.returns_insert`, `IntervalTree.returns_delete`, `IntervalTree.returns_clear`: the
  calls that pass the guards. They put in or take out one node, or all, and keep the rest.
* `IntervalTree.rejects_delete`, and `IntervalTree.returns_insert` as well: the calls that do not
  pass, and leave the store as it was.
-/

set_option autoImplicit false

namespace RecordTree

variable {ρ σ κ : Type} [Spanned ρ κ] [LinearOrder κ]

/-! ### The order by start -/

/-- One record does not order after another one exactly if it does not start later. -/
theorem isLE_compareStart {a b : ρ} :
    (compareStart a b).isLE ↔ (Spanned.entry a).start ≤ (Spanned.entry b).start :=
  isLE_compareOfLessAndEq le_antisymm not_le le_total

/-- Two records order the same exactly if they start at the same key. -/
theorem compareStart_eq_eq {a b : ρ} :
    compareStart a b = .eq ↔ (Spanned.entry a).start = (Spanned.entry b).start :=
  compareOfLessAndEq_eq_eq le_refl not_le

instance : Std.TransCmp (compareStart : ρ → ρ → Ordering) where
  eq_swap := compareOfLessAndEq_eq_swap le_antisymm le_total not_le
  isLE_trans hab hbc := by
    rw [isLE_compareStart] at hab hbc ⊢
    exact hab.trans hbc

/-- In a sorted list of nodes the starts ascend. -/
theorem Store.sorted_compareStart {s : Store ρ} {l : List RecordId} :
    s.Sorted compareStart l ↔ l.Pairwise fun a b =>
      ∃ d e, s.entry a = .ok d ∧ s.entry b = .ok e ∧ d.start ≤ e.start := by
  refine List.Pairwise.iff ?_
  intro a b
  constructor
  · rintro ⟨x, y, hx, hy, hle⟩
    exact ⟨_, _, except_functor_map_eq_ok.mpr ⟨x, hx, rfl⟩,
      except_functor_map_eq_ok.mpr ⟨y, hy, rfl⟩, isLE_compareStart.mp hle⟩
  · rintro ⟨d, e, hd, he, hle⟩
    obtain ⟨x, hx, rfl⟩ := except_functor_map_eq_ok.mp hd
    obtain ⟨y, hy, rfl⟩ := except_functor_map_eq_ok.mp he
    exact ⟨x, y, hx, hy, isLE_compareStart.mpr hle⟩

variable [LawfulSpanned ρ]

/-- The order by start does not look at reaches. -/
theorem Store.keepsOrder_of_span {s s' : Store ρ} {id : RecordId} (hid : id < s.size)
    (h : Payloads.span s'.payload id = Payloads.span s.payload id) :
    s.KeepsOrder s' compareStart id := by
  obtain ⟨r, hr⟩ := exists_fetch_of_lt hid
  cases hr' : s'.fetch id with
  | error e => simp [Payloads.span, payload, hr, hr', Functor.map, Except.map] at h
  | ok r' =>
    refine ⟨r, r', hr, hr', compareStart_eq_eq.mpr ?_⟩
    simp only [Payloads.span, payload, hr, hr', Functor.map, Except.map, Except.ok.injEq] at h
    have hstart := congrArg (fun a => (Spanned.entry a).start) h
    simpa [Linked.withNode] using hstart

/-- Changes of reaches leave a list sorted by start. -/
theorem Payloads.Resummed.sorted {s s' : Store ρ} {l m : List RecordId}
    (h : Payloads.Resummed s.payload s'.payload m) (hsorted : s.Sorted compareStart l)
    (hlt : ∀ j ∈ l, j < s.size) : s'.Sorted compareStart l :=
  hsorted.congr fun j hj => Store.keepsOrder_of_span (hlt j hj) (congrFun h.span_eq j)

/-- Changes of reaches leave the order by start alone. -/
theorem Payloads.Resummed.ordersBefore_iff {s s' : Store ρ} {m : List RecordId} {id j : RecordId}
    (h : Payloads.Resummed s.payload s'.payload m) (hid : id < s.size) (hj : j < s.size) :
    s'.OrdersBefore compareStart id j ↔ s.OrdersBefore compareStart id j :=
  Store.ordersBefore_congr (Store.keepsOrder_of_span hid (congrFun h.span_eq id))
    (Store.keepsOrder_of_span hj (congrFun h.span_eq j))

/-! ### Calls -/

namespace IntervalTree

/-- The handle's records spell out a red-black tree whose first node is cached. Its reaches are
exact, and its starts ascend. -/
structure Keeps (t : IntervalTree) (s : Store ρ) (shape : Shape) : Prop where
  cached : t.cached.Keeps s shape
  exact : Exact s.payload shape
  sorted : s.Sorted compareStart shape.inorder

omit [LawfulSpanned ρ] in
/-- An empty handle keeps the empty shape. -/
theorem keeps_empty (s : Store ρ) : empty.Keeps s .leaf :=
  ⟨CachedTree.keeps_empty s, exact_leaf, .nil⟩

variable {s s' : Store ρ} {x : σ} {t : IntervalTree} {shape : Shape} {id : RecordId}

omit [LawfulSpanned ρ] in
/-- The nodes of an interval tree are records of the store. -/
theorem Keeps.lt_size (h : t.Keeps s shape) {j : RecordId} (hj : j ∈ shape.inorder) : j < s.size :=
  h.cached.keeps.lt_size hj

/-- What is kept is about the intervals of the tree's own records only. -/
theorem Keeps.congr (h : t.Keeps s shape) (hs : ∀ j ∈ shape.inorder, s'.entry j = s.entry j) :
    t.Keeps s' shape := by
  have hnode : ∀ j ∈ shape.inorder, s'.node j = s.node j := fun j hj => by
    rw [Store.node_eq_entry, Store.node_eq_entry, hs j hj]
  -- Links, stops and reaches, and starts: the three parts read nothing else of the records.
  refine ⟨h.cached.congr hnode, h.exact.agree ?_ ?_, Store.sorted_compareStart.mpr ?_⟩
  · exact fun j hj => (Store.stopAt_reachAt_congr (hs j hj)).1
  · exact fun j hj => (Store.stopAt_reachAt_congr (hs j hj)).2
  · have hsorted := Store.sorted_compareStart.mp h.sorted
    refine List.Pairwise.imp_of_mem (fun {a b} ha hb hab => ?_) hsorted
    rwa [hs a ha, hs b hb]

omit [LinearOrder κ] [LawfulSpanned ρ] in
/-- Resetting gives a record that is not linked its own stop as its reach. -/
theorem returns_resetReach {e : Entry κ} (he : s.entry id = .ok e)
    {Q : Unit → Store ρ → σ → Prop} :
    (resetReach id).Returns s x Q ↔
      Q () (if e.node.state = .linked then s else s.setReach id e.stop) x := by
  have hid : id < s.size := by
    obtain ⟨r, hr, -⟩ := except_functor_map_eq_ok.mp he
    exact (Store.fetch_eq_ok.mp hr).1
  have hset : s.modifyEntry id (fun e : Entry κ => { e with reach := e.stop }) =
      s.setReach id e.stop := Store.modifyEntry_congr he rfl
  unfold resetReach
  simp only [Update.returns_bind, Update.returns_entry, he, Except.ok.injEq]
  constructor
  · rintro ⟨d, rfl, h⟩
    cases hstate : e.node.state <;> simp_all
  · intro h
    refine ⟨e, rfl, ?_⟩
    cases hstate : e.node.state <;> simp_all

omit [LawfulSpanned ρ] in
/-- The tree after a call that leaves the nodes `new`, on records of which some have other
reaches. -/
theorem Keeps.of_settled {old new m : List RecordId} {cached : CachedTree} {shape' : Shape}
    {p₀ : Payloads ρ} (hs : Settled s old new cached.tree s' shape')
    (hleftmost : cached.leftmost = shape'.inorder.head?) (hsummed : Summed p₀ m s'.payload shape')
    (hsorted : s'.Sorted compareStart new) : Keeps ⟨cached⟩ s' shape' :=
  ⟨⟨hs.keeps, hleftmost⟩, hsummed.exact, hs.inorder ▸ hsorted⟩

/-- Giving a record that is not in the tree its own stop as its reach leaves the tree's alone. -/
theorem Keeps.summed_setReach (h : t.Keeps s shape) {e : Entry κ} (he : s.entry id = .ok e)
    (hout : id ∉ shape.inorder) :
    Summed s.payload (id :: shape.inorder) (s.setReach id e.stop).payload shape ∧
      Payloads.reachAt (s.setReach id e.stop).payload id =
        Payloads.stopAt (s.setReach id e.stop).payload id := by
  obtain ⟨⟨r, hr⟩, hstop, -⟩ := Store.payload_of_entry he
  have hres := s.resummed_setReach e.stop (List.mem_cons_self (a := id) (l := shape.inorder))
  refine ⟨⟨h.exact.congr hres.stopAt_eq ?_, hres, fun j hj => .tail id hj⟩, ?_⟩
  · intro j hj
    rw [Store.payload_setReach, Payloads.reachAt_setReach_of_ne (ne_of_mem_of_not_mem hj hout)]
  · rw [hres.stopAt_eq, hstop, Store.payload_setReach, Payloads.reachAt_setReach_self hr]

/-- A descent that goes by the starts of the records ends where `id` has its place among them,
whatever the reaches are meanwhile. -/
theorem Keeps.place (h : t.Keeps s shape) {s₁ : Store ρ} {m : List RecordId} {C : Context}
    (hres : Payloads.Resummed s.payload s₁.payload m) (hid : id < s.size)
    (hshape : shape = C.fill .leaf) (hfollows : C.Follows (s₁.OrdersBefore compareStart id)) :
    (∀ j ∈ C.before, ¬ s.OrdersBefore compareStart id j) ∧
      (∀ j ∈ C.after, s.OrdersBefore compareStart id j) ∧
      s.Sorted compareStart (C.before ++ id :: C.after) := by
  have hold : shape.inorder = C.before ++ C.after := by
    rw [hshape, Context.inorder_fill_leaf]
    rfl
  have hlt : ∀ j ∈ C.before ++ C.after, j < s.size := by
    intro j hj
    exact h.lt_size (by rwa [hold])
  have hsorted := h.sorted
  rw [hold] at hsorted
  -- The descent compares in `s₁`, where only reaches have changed.
  have hmono := (hres.sorted hsorted hlt).pairwise_ordersBefore id
  obtain ⟨hbefore, hafter⟩ := hfollows.divides hmono
  have hl : ∀ j ∈ C.before, ¬ s.OrdersBefore compareStart id j := by
    intro j hj
    rw [← hres.ordersBefore_iff hid (hlt j (List.mem_append_left _ hj))]
    exact hbefore j hj
  have hr : ∀ j ∈ C.after, s.OrdersBefore compareStart id j := by
    intro j hj
    rw [← hres.ordersBefore_iff hid (hlt j (List.mem_append_right _ hj))]
    exact hafter j hj
  exact ⟨hl, hr, hsorted.insert hid (fun j hj => hlt j (List.mem_append_left _ hj)) hl hr⟩

variable [Listener σ]

/-- Inserting a record puts it after all that start no later, if it is not linked. A linked one is
turned down. -/
theorem returns_insert (h : t.Keeps s shape) {n : Node} (hn : s.node id = .ok n) :
    (t.insert id).Returns s x
      (fun t' s' _ => n.state ≠ .linked ∧ ∃ l r shape', shape.inorder = l ++ r ∧
        (∀ j ∈ l, ¬ s.OrdersBefore compareStart id j) ∧
        (∀ j ∈ r, s.OrdersBefore compareStart id j) ∧
        Settled s shape.inorder (l ++ id :: r) t'.cached.tree s' shape' ∧ t'.Keeps s' shape' ∧
        Payloads.Resummed s.payload s'.payload (id :: shape.inorder))
      (fun r s' _ => n.state = .linked ∧ r = .stillLinked id n.parent ∧ s' = s) := by
  obtain ⟨e, he, rfl⟩ := Store.exists_entry hn
  have hid : id < s.size := Store.lt_of_node hn
  simp only [insert, Guarded.returns_bind, Guarded.returns_update, returns_resetReach he]
  generalize hs₁ : (if e.node.state = .linked then s else s.setReach id e.stop) = s₁
  have hnode : s₁.node = s.node := by
    rw [← hs₁]
    split_ifs
    · rfl
    · exact Store.node_setReach s id e.stop
  -- Reset or not, the tree is as it was in all that matters to it.
  have hres : Payloads.Resummed s.payload s₁.payload (id :: shape.inorder) := by
    rw [← hs₁]
    split_ifs
    · exact .refl _ _
    · exact s.resummed_setReach e.stop List.mem_cons_self
  have hkeeps₁ : t.cached.Keeps s₁ shape := h.cached.congr fun j _ => congrFun hnode j
  have hwas : e.node.state ≠ .linked → ∀ x' : σ,
      Summed s.payload (id :: shape.inorder) s₁.payload shape ∧
        Payloads.reachAt s₁.payload id = Payloads.stopAt s₁.payload id ∧
        id ∈ id :: shape.inorder := by
    intro hstate _
    have hout : id ∉ shape.inorder := fun hin => hstate (h.cached.keeps.state_eq hin hn)
    obtain ⟨hsummed, hreach⟩ := h.summed_setReach he hout
    rw [if_neg hstate] at hs₁
    subst hs₁
    exact ⟨hsummed, hreach, List.mem_cons_self⟩
  refine (CachedTree.returns_insertWith reachSummary_turns reachSummary_grows (.of compareStart)
    hkeeps₁ (hnode ▸ hn) hwas).mono ?_ ?_
  · intro cached s' x' hdone
    obtain ⟨hstate, C, hshape, hfollows, k, -, shape', hs, hleftmost, hsummed⟩ := hdone
    obtain ⟨hl, hr, hsorted⟩ :=
      h.place hres hid hshape (hfollows compareStart (Comparator.answers_of _))
    have hold : shape.inorder = C.before ++ C.after := by
      rw [hshape, Context.inorder_fill_leaf]
      rfl
    have hlt : ∀ j ∈ C.before ++ id :: C.after, j < s.size := by
      intro j hj
      rw [← hs.inorder] at hj
      have hlt := hs.keeps.lt_size hj
      rwa [hs.size, Store.size_eq_of_node hnode] at hlt
    exact Guarded.returns_pure.mpr ⟨hstate, C.before, C.after, shape', hold, hl, hr,
      hs.of_node_eq hnode, .of_settled hs hleftmost hsummed (hsummed.resummed.sorted hsorted hlt),
      hsummed.resummed⟩
  · rintro r s' x' ⟨hstate, hr, hs⟩
    refine ⟨hstate, hr, ?_⟩
    rw [hs, ← hs₁, if_pos hstate]

/-- Deleting a node of the tree takes just that node out. -/
theorem returns_delete (h : t.Keeps s shape) {l r : List RecordId}
    (hlist : shape.inorder = l ++ id :: r) :
    (t.delete id).Returns s x
      (fun t' s' _ => ∃ shape', Settled s shape.inorder (l ++ r) t'.cached.tree s' shape' ∧
        t'.Keeps s' shape' ∧ Payloads.Resummed s.payload s'.payload shape.inorder)
      (fun _ _ _ => False) := by
  have hwas : Summed s.payload shape.inorder s.payload shape := ⟨h.exact, .refl _ _, fun j hj => hj⟩
  simp only [delete, Guarded.returns_bind]
  refine (CachedTree.returns_deleteWith reachSummary_turns reachSummary_shrinks h.cached hlist
    hwas).mono ?_ fun _ _ _ hr => hr
  intro cached s' x' hdone
  obtain ⟨k, -, shape', hs, hleftmost, hsummed⟩ := hdone
  refine Guarded.returns_pure.mpr
    ⟨shape', hs, .of_settled hs hleftmost hsummed ?_, hsummed.resummed⟩
  -- One node less in a sorted list, of which some reaches changed and no start.
  have hsub : (l ++ r).Sublist shape.inorder := by
    rw [hlist]
    exact (List.sublist_cons_self id r).append_left l
  exact hsummed.resummed.sorted (h.sorted.sublist hsub) fun j hj => h.lt_size (hsub.subset hj)

omit [LawfulSpanned ρ] in
/-- A node that is not linked cannot be deleted. -/
theorem rejects_delete (h : t.Keeps s shape) {n : Node} (hn : s.node id = .ok n)
    (hstate : n.state ≠ .linked) :
    (t.delete id).Returns s x (fun _ _ _ => False) (fun r s' x' => s' = s ∧
      x' = Listener.hear r x ∧ (r = .alreadyRemoved id ∧ n.state = .removed ∨
        r = .neverInserted id ∧ n.state = .detached)) := by
  simp only [delete, Guarded.returns_bind]
  exact (CachedTree.rejects_deleteWith h.cached hn hstate).mono (fun _ _ _ hf => hf.elim)
    fun _ _ _ hr => hr

omit [Listener σ] in
/-- Clearing wipes all nodes of the tree. -/
theorem returns_clear (h : t.Keeps s shape) :
    (t.clear : Update ρ σ (IntervalTree × Nat)).Returns s x fun (t', n) s' x' =>
      t' = .empty ∧ n = shape.inorder.length ∧ x' = x ∧ s'.payload = s.payload ∧
        Settled s shape.inorder [] t'.cached.tree s' .leaf := by
  simp only [clear, Update.returns_bind]
  refine (CachedTree.returns_clear h.cached).mono ?_
  rintro ⟨cached, n⟩ s' x' ⟨rfl, hn, hx, hpayload, hs⟩
  exact Update.returns_pure.mpr ⟨rfl, hn, hx, hpayload, hs⟩

end IntervalTree

end RecordTree
