import Mathlib.Data.Nat.Choose.Basic
import RecordTree.Proofs.Interval.Validate
import RecordTree.Proofs.Walk.InOrder
import RecordTree.Proofs.Walk.Recursion

/-!
# `RecordTree.Proofs.Walk.Wander`: deleting along a walk in any order

A walk in pre-order or post-order follows the shape of the tree, which a deletion turns under it.
Such a walk may pass nodes over, and may come to a node once more that it has handed out before. But
the node that it found before the deletion is not the one that goes, so it is still in the tree, and
the walk goes on from there.

What makes it end is a bound on the nodes still to come (`Sheds.wandering`): with `m` nodes in the
tree and `k` of them left in its list from the cursor on, `k + m.choose 2` of them. A node that
stays takes one off `k`. One that goes takes one off `m`, and then there are fewer than `m` nodes
left, wherever the cursor is.

* `Wandering.exists_log`: the run, for whichever walk that has such a bound.
* `Sheds.returns_sweeps`: passes that delete all that they hand out, one after the other, leave
  nothing.
* `withstands_of_reachable`: all this of the states that calls lead to.
-/

set_option autoImplicit false

namespace RecordTree

/-! ### The run -/

section Run

variable {ρ σ τ γ : Type} {advance : γ → Store ρ → Except Fault (Option (RecordId × γ))}
  {delete : τ → RecordId → Guarded ρ σ τ} {walk : List RecordId} {cursor : γ} {t : τ}
  {s : Store ρ} {x : σ} {steps : Nat}

/-- With the nodes `walk` in the tree, a cursor that is `Ready` is at its end, or hands out one of
them, and is right whether that one goes or stays. It has one node less to come then. -/
structure Wandering (advance : γ → Store ρ → Except Fault (Option (RecordId × γ)))
    (delete : τ → RecordId → Guarded ρ σ τ)
    (Ready : List RecordId → Nat → γ → τ → Store ρ → σ → Prop) : Prop where
  step {walk : List RecordId} {steps : Nat} {cursor : γ} {t : τ} {s : Store ρ} {x : σ} :
    Ready walk steps cursor t s x → advance cursor s = .ok none ∨ ∃ k id cursor', steps = k + 1 ∧
      advance cursor s = .ok (some (id, cursor')) ∧ id ∈ walk ∧ Ready walk k cursor' t s x ∧
        (delete t id).Returns s x
          (fun t' s' x' => Ready (walk.filter (· != id)) k cursor' t' s' x') fun _ _ _ => False

/-- The nodes that the log says have gone. -/
def gone (log : List (RecordId × Bool)) (id : RecordId) : Bool := decide ((id, true) ∈ log)

/-- A node that goes at its turn is one of the nodes that have gone. -/
theorem filter_gone_cons (walk : List RecordId) (id : RecordId) (b : Bool)
    (log : List (RecordId × Bool)) :
    (walk.filter fun j => !(decide (j = id) && b)).filter (!gone log ·) =
      walk.filter (!gone ((id, b) :: log) ·) := by
  rw [List.filter_filter]
  refine List.filter_congr fun j _ => ?_
  cases b <;> simp [gone, Bool.and_comm]

variable {Ready : List RecordId → Nat → γ → τ → Store ρ → σ → Prop}
  {chosen : Nat → RecordId → Store ρ → Bool} {log : List (RecordId × Bool)} {seen limit : Nat}
  {d : Drained τ}

/-- A drain that was let `limit` steps, `seen` nodes having come before, has done what the log says
up to there. Without the nodes that have gone, its cursor is ready. The node that the log has next
is one of those left, and goes or stays as `chosen` says about it now. -/
structure Logged (Ready : List RecordId → Nat → γ → τ → Store ρ → σ → Prop)
    (chosen : Nat → RecordId → Store ρ → Bool) (walk : List RecordId)
    (log : List (RecordId × Bool)) (seen limit : Nat) (d : Drained τ) (s : Store ρ) (x : σ) :
    Prop where
  ids_eq : d.ids = (log.take limit).map Prod.fst
  rejected_eq : d.rejected = none
  exists_ready : ∃ steps cursor,
    Ready (walk.filter (!gone (log.take limit) ·)) steps cursor d.tree s x
  next : ∀ id goes, log[limit]? = some (id, goes) →
    id ∈ walk.filter (!gone (log.take limit) ·) ∧ goes = chosen (seen + limit + 1) id s

/-- Before anything has been done. -/
theorem Logged.start (hready : Ready walk steps cursor t s x)
    (hnext : ∀ id goes, log[0]? = some (id, goes) → id ∈ walk ∧ goes = chosen (seen + 1) id s) :
    Logged Ready chosen walk log seen 0 ⟨[], t, none⟩ s x where
  ids_eq := rfl
  rejected_eq := rfl
  exists_ready := ⟨steps, cursor, by simpa [gone] using hready⟩
  next id goes hid := by simpa [gone] using hnext id goes hid

/-- At the end of the walk nothing is done. -/
theorem Logged.ended (hready : Ready walk steps cursor t s x) :
    Logged Ready chosen walk [] seen limit ⟨[], t, none⟩ s x where
  ids_eq := by rw [List.take_nil, List.map_nil]
  rejected_eq := rfl
  exists_ready := ⟨steps, cursor, by simpa [gone] using hready⟩
  next id goes hid := by cases hid

/-- One entry more before all others. -/
theorem Logged.after {id : RecordId} {b : Bool}
    (h : Logged Ready chosen (walk.filter fun j => !(decide (j = id) && b)) log (seen + 1) limit d
      s x) :
    Logged Ready chosen walk ((id, b) :: log) seen (limit + 1) (d.after id) s x where
  ids_eq := by
    show id :: d.ids = _
    rw [h.ids_eq, List.take_succ_cons, List.map_cons]
  rejected_eq := h.rejected_eq
  exists_ready := by
    rw [List.take_succ_cons, ← filter_gone_cons]
    exact h.exists_ready
  next j goes hj := by
    rw [List.take_succ_cons, ← filter_gone_cons]
    rw [List.getElem?_cons_succ] at hj
    obtain ⟨hin, hgoes⟩ := h.next j goes hj
    refine ⟨hin, hgoes.trans ?_⟩
    congr 1
    omega

/-- The run: a drain from a cursor that is ready does what some log says, with no more entries than
there were nodes to come. -/
theorem Wandering.exists_log (h : Wandering advance delete Ready)
    (chosen : Nat → RecordId → Store ρ → Bool) (hready : Ready walk steps cursor t s x)
    (seen : Nat) :
    ∃ log : List (RecordId × Bool), log.length ≤ steps ∧
      (log = [] → advance cursor s = .ok none) ∧
      ∀ limit, (drain advance delete chosen limit seen cursor t).Returns s x
        (Logged Ready chosen walk log seen limit) := by
  -- Along the bound. The walk ends before it is used up.
  induction steps generalizing walk cursor t s x seen with
  | zero =>
    obtain hend | ⟨k, _, _, hk, -⟩ := h.step hready
    · exact ⟨[], Nat.le_refl _, fun _ => hend, fun limit =>
        (returns_drain_end hend).mpr (.ended hready)⟩
    · cases hk
  | succ steps ih =>
    obtain hend | ⟨k, id, cursor', hk, hadvance, hid, hstays, hgoes⟩ := h.step hready
    · exact ⟨[], Nat.zero_le _, fun _ => hend, fun limit =>
        (returns_drain_end hend).mpr (.ended hready)⟩
    · cases hk
      obtain ⟨t', s', x', hready', hdrain⟩ := exists_drain_step
        (R := fun walk => Ready walk steps cursor') chosen seen hadvance hstays hgoes
      obtain ⟨log, hlen, -, hlog⟩ := ih hready' (seen + 1)
      refine ⟨(id, chosen (seen + 1) id s) :: log, Nat.succ_le_succ hlen, fun hnil => ?_,
        fun limit => ?_⟩
      · cases hnil
      · cases limit with
        | zero =>
          refine returns_drain_zero.mpr (.start hready ?_)
          rintro j goes ⟨⟩
          exact ⟨hid, rfl⟩
        | succ limit => exact hdrain limit _ ((hlog limit).mono fun d _ _ hd => hd.after)

/-- Where all nodes go that are handed out, none of them comes again. -/
theorem nodup_of_gone
    (hlog : ∀ k id goes, log[k]? = some (id, goes) → goes = true ∧ gone (log.take k) id = false) :
    (log.map Prod.fst).Nodup := by
  rw [List.Nodup, List.pairwise_map, List.pairwise_iff_getElem]
  intro i j hi hj hij heq
  obtain ⟨hgoes, -⟩ := hlog i log[i].1 log[i].2 (List.getElem?_eq_getElem hi)
  obtain ⟨-, hstays⟩ := hlog j log[j].1 log[j].2 (List.getElem?_eq_getElem hj)
  -- The earlier entry says that the node has gone.
  have hmem : (log[j].1, true) ∈ log.take j := by
    rw [← heq, ← hgoes]
    exact List.mem_take_iff_getElem.mpr ⟨i, by omega, rfl⟩
  simp [gone, hmem] at hstays

/-- So there are no more of them than there were in the tree. -/
theorem length_le_of_nodup (hnodup : (log.map Prod.fst).Nodup)
    (hlog : ∀ (k : Nat) id goes, log[k]? = some (id, goes) → id ∈ walk) :
    log.length ≤ walk.length := by
  have hsub : log.map Prod.fst ⊆ walk := by
    intro id hid
    obtain ⟨⟨j, goes⟩, hentry, rfl⟩ := List.mem_map.mp hid
    obtain ⟨k, hk⟩ := List.getElem?_of_mem hentry
    exact hlog k j goes hk
  simpa using (List.subperm_of_subset hnodup hsub).length_le

end Run

/-! ### The bound -/

section Bound

variable {ρ σ τ : Type} [Linked ρ] {delete : τ → RecordId → Guarded ρ σ τ} {tree : τ → Tree}
  {Held : Store ρ → List RecordId → τ → Store ρ → Shape → Prop} {t : τ} {s₀ s : Store ρ}
  {all : List RecordId} {shape : Shape} {x : σ}

/-- Wherever a cursor stands in the tree, there is a rest of the list from there on. -/
theorem Order.exists_rest (order : Order) {next : Option RecordId}
    (h : ∀ j ∈ next, j ∈ shape.inorder) :
    ∃ before rest, order.list shape = before ++ rest ∧ rest.head? = next := by
  cases next with
  | none => exact ⟨order.list shape, [], (List.append_nil _).symm, rfl⟩
  | some j =>
    obtain ⟨before, after, hlist⟩ :=
      List.append_of_mem ((order.perm_list shape).mem_iff.mpr (h j rfl))
    exact ⟨before, j :: after, hlist, rfl⟩

/-- A tree that has lost the node `id` still has the one that came after it in the list, and its own
list goes on from there. -/
theorem Order.exists_rest_without (order : Order) {shape' : Shape} {id : RecordId}
    {before rest l r : List RecordId} (hlist : order.list shape = before ++ id :: rest)
    (hnodup : (order.list shape).Nodup) (hold : shape.inorder = l ++ id :: r)
    (hnew : shape'.inorder = l ++ r) :
    ∃ before' rest', order.list shape' = before' ++ rest' ∧ rest'.head? = rest.head? ∧
      rest'.length ≤ (l ++ r).length := by
  have hstays : ∀ j ∈ rest.head?, j ∈ shape'.inorder := by
    intro j hj
    have hin : j ∈ before ++ rest := List.mem_append_right _ (List.mem_of_head? hj)
    -- The next node is not the one that goes, since the list has no node twice.
    rw [hlist] at hnodup
    have hne : j ≠ id := ne_of_mem_of_not_mem hin (notMem_of_nodup_middle hnodup)
    have hmem : j ∈ l ++ id :: r := by
      rw [← hold, ← (order.perm_list shape).mem_iff, hlist]
      exact List.perm_middle.mem_iff.mpr (.tail id hin)
    rw [hnew]
    exact (List.mem_cons.mp (List.perm_middle.mem_iff.mp hmem)).resolve_left hne
  obtain ⟨before', rest', hlist', hnext⟩ := order.exists_rest hstays
  refine ⟨before', rest', hlist', hnext, ?_⟩
  rw [← hnew, ← (order.perm_list shape').length_eq, hlist', List.length_append]
  exact Nat.le_add_left ..

/-- Choosing two of one more. -/
theorem choose_two_succ (m : Nat) : (m + 1).choose 2 = m + m.choose 2 := by
  rw [Nat.choose_succ_succ', Nat.choose_one_right]

/-- A cursor in `order` stands in the tree, and from there on no more than `steps` nodes are to
come, whichever of them go. -/
structure Astray (Held : Store ρ → List RecordId → τ → Store ρ → Shape → Prop) (s₀ : Store ρ)
    (all : List RecordId) (order : Order) (walk : List RecordId) (steps : Nat) (cursor : Cursor)
    (t : τ) (s : Store ρ) (shape : Shape) (before rest : List RecordId) : Prop where
  held : Held s₀ all t s shape
  inorder_eq : shape.inorder = walk
  list_eq : order.list shape = before ++ rest
  cursor_eq : cursor = ⟨order, rest.head?⟩
  bound : rest.length + walk.length.choose 2 ≤ steps

/-- The step: the next node is found before the current one may go. If that goes, the rest of the
list is another one, but it is shorter than the tree was. -/
theorem Sheds.wandering (h : Sheds delete tree Held) (s₀ : Store ρ) (all : List RecordId)
    (order : Order) :
    Wandering Cursor.advance delete fun walk steps cursor t s _ =>
      ∃ shape before rest, Astray Held s₀ all order walk steps cursor t s shape before rest where
  step := by
    rintro walk steps cursor t s x ⟨shape, before, rest, hheld, rfl, hlist, rfl, hbound⟩
    -- The cursor is at the end of its list, or at a node of it.
    cases rest with
    | nil => exact .inl rfl
    | cons id rest =>
      have hshape := (h.keeps hheld).toHasShape
      have hid : id ∈ shape.inorder := (order.perm_list shape).mem_iff.mp (by simp [hlist])
      rw [List.length_cons] at hbound
      obtain ⟨k, rfl⟩ : ∃ k, steps = k + 1 := Nat.exists_eq_add_one.mpr (by omega)
      refine .inr ⟨k, id, _, rfl, Cursor.advance_eq (hshape.visits_list order) hlist, hid, ?_, ?_⟩
      · exact ⟨shape, before ++ [id], rest, hheld, rfl, by simp [hlist], rfl, by omega⟩
      · obtain ⟨l, r, hsplit⟩ := List.append_of_mem hid
        rw [filter_ne_middle hshape.nodup hsplit]
        refine (h.delete hheld hsplit).mono ?_ fun _ _ _ hf => hf
        rintro t' s' x' ⟨shape', hinorder, hheld'⟩
        obtain ⟨before', rest', hlist', hnext, hle⟩ :=
          order.exists_rest_without hlist (hshape.nodup_list order) hsplit hinorder
        refine ⟨shape', before', rest', hheld', hinorder, hlist', by rw [hnext], ?_⟩
        have hlen : shape.inorder.length = (l ++ r).length + 1 := by
          rw [hsplit, List.perm_middle.length_eq, List.length_cons]
        rw [hlen, choose_two_succ] at hbound
        omega

/-- The run: a drain along the walk in `order` over the whole tree. -/
theorem Sheds.exists_log (h : Sheds delete tree Held) (order : Order)
    (hheld : Held s₀ all t s shape) (chosen : Nat → RecordId → Store ρ → Bool) (x : σ) :
    ∃ log : List (RecordId × Bool), log.length ≤ (shape.inorder.length + 1).choose 2 ∧
      (log = [] → order.list shape = []) ∧
      ((∀ k id s, chosen k id s = true) →
        (log.map Prod.fst).Nodup ∧ log.length ≤ shape.inorder.length) ∧
      ∀ limit, (drain Cursor.advance delete chosen limit 0 ⟨order, (order.list shape).head?⟩
        t).Returns s x fun d s' _ =>
          d.ids = (log.take limit).map Prod.fst ∧ d.rejected = none ∧ ∃ shape',
            Held s₀ all d.tree s' shape' ∧
              shape'.inorder = shape.inorder.filter (!gone (log.take limit) ·) ∧
              ∀ id goes, log[limit]? = some (id, goes) →
                id ∈ shape'.inorder ∧ goes = chosen (limit + 1) id s' := by
  have hbound : (order.list shape).length + shape.inorder.length.choose 2 ≤
      (shape.inorder.length + 1).choose 2 := by
    rw [choose_two_succ, (order.perm_list shape).length_eq]
  obtain ⟨log, hlen, hnil, hlog⟩ := (h.wandering s₀ all order).exists_log (x := x) chosen
    ⟨shape, [], order.list shape, hheld, rfl, rfl, rfl, hbound⟩ 0
  refine ⟨log, hlen, fun hempty => ?_, fun hall => ?_, fun limit => (hlog limit).mono ?_⟩
  · cases hlist : order.list shape with
    | nil => rfl
    | cons id rest =>
      -- A walk over a tree with nodes hands out one of them.
      have hvisits := (h.keeps hheld).visits_list order
      have hend := hnil hempty
      rw [hlist, List.head?_cons, Cursor.advance_eq hvisits (hlist.trans (List.nil_append _).symm)]
        at hend
      cases hend
  · have hentry : ∀ k id goes, log[k]? = some (id, goes) →
        id ∈ shape.inorder ∧ goes = true ∧ gone (log.take k) id = false := by
      intro k id goes hid
      obtain ⟨d, s', x', -, hlogged⟩ := hlog k
      obtain ⟨hin, hgoes⟩ := hlogged.next id goes hid
      rw [hall] at hgoes
      obtain ⟨hmem, hstays⟩ := List.mem_filter.mp hin
      exact ⟨hmem, hgoes, by simpa using hstays⟩
    have hnodup := nodup_of_gone fun k id goes hid => (hentry k id goes hid).2
    exact ⟨hnodup, length_le_of_nodup hnodup fun k id goes hid => (hentry k id goes hid).1⟩
  · rintro d s' x' ⟨hids, hrejected, ⟨steps, cursor, shape', before, rest, hastray⟩, hnext⟩
    refine ⟨hids, hrejected, shape', hastray.held, hastray.inorder_eq, ?_⟩
    rw [hastray.inorder_eq]
    intro id goes hid
    simpa using hnext id goes hid

/-! ### Passes -/

/-- One pass in each of the orders, with a cursor of its own. A pass deletes all nodes that its walk
hands out. These are distinct nodes of the tree, no more than the store has records, so that the
walk comes to its end. -/
def sweeps (start : τ → Store ρ → Order → Except Fault Cursor)
    (delete : τ → RecordId → Guarded ρ σ τ) : List Order → τ → Update ρ σ τ
  | [], t => pure t
  | order :: orders, t => do
    let cursor ← Update.read fun s => start t s order
    let limit ← Update.read fun s => pure s.walkLimit
    let d ← drain Cursor.advance delete (fun _ _ _ => true) limit 0 cursor t
    sweeps start delete orders d.tree

variable {start : τ → Store ρ → Order → Except Fault Cursor} {orders : List Order}

/-- One pass takes out at least one node, if there is one. -/
theorem Sheds.returns_pass (h : Sheds delete tree Held) (order : Order)
    (hheld : Held s₀ all t s shape) (x : σ) :
    (drain Cursor.advance delete (fun _ _ _ => true) s.walkLimit 0
      ⟨order, (order.list shape).head?⟩ t).Returns s x fun d s' _ => ∃ shape',
        Held s₀ all d.tree s' shape' ∧ shape'.inorder.length ≤ shape.inorder.length - 1 := by
  obtain ⟨log, -, hnil, -, hlog⟩ := h.exists_log order hheld (fun _ _ _ => true) x
  refine (hlog s.walkLimit).mono ?_
  rintro d s' x' ⟨-, -, shape', hheld', hinorder, -⟩
  refine ⟨shape', hheld', ?_⟩
  rw [hinorder]
  cases log with
  | nil =>
    have hempty : shape.inorder = [] := (hnil rfl ▸ (order.perm_list shape)).nil_eq.symm
    rw [hempty]
    exact Nat.le_refl 0
  | cons entry log =>
    obtain ⟨id, goes⟩ := entry
    -- What the first step finds is a node of the tree, which goes.
    obtain ⟨d₀, s₁, x₁, -, -, -, shape₁, -, hinorder₁, hnext⟩ := hlog 0
    obtain ⟨hid, rfl⟩ := hnext id goes rfl
    have hin : id ∈ shape.inorder := by
      rw [hinorder₁] at hid
      exact List.mem_of_mem_filter hid
    refine Nat.le_sub_one_of_lt (List.length_filter_lt_length_iff_exists.mpr ⟨id, hin, ?_⟩)
    simp [gone, Store.walkLimit]

/-- As many passes as the tree has nodes leave none of them. -/
theorem Sheds.returns_sweeps (h : Sheds delete tree Held)
    (hstart : ∀ {t s shape} order, Held s₀ all t s shape →
      start t s order = (tree t).cursor s order)
    (hheld : Held s₀ all t s shape) (hlen : shape.inorder.length ≤ orders.length) :
    (sweeps start delete orders t).Returns s x fun t' s' _ => Held s₀ all t' s' .leaf := by
  -- Along the orders. Each pass leaves at least one node less for those behind it.
  induction orders generalizing t s shape x with
  | nil =>
    have hleaf : shape = .leaf := by
      cases shape with
      | leaf => rfl
      | node c l id r => simp [Shape.inorder] at hlen
    subst hleaf
    exact Update.returns_pure.mpr hheld
  | cons order orders ih =>
    have hcursor := (h.keeps hheld).cursor_eq order
    rw [← hstart order hheld] at hcursor
    simp only [sweeps, Update.returns_bind, Update.returns_read]
    refine ⟨_, hcursor, _, rfl, (h.returns_pass order hheld x).mono ?_⟩
    rintro d s' x' ⟨shape', hheld', hless⟩
    rw [List.length_cons] at hlen
    exact ih hheld' (by omega)

/-! ### What handles withstand -/

/-- The links of the tree spell out a red-black tree. -/
def Tree.RedBlack (t : Tree) (s : Store ρ) : Prop :=
  ∃ shape height, t.shape s = .ok shape ∧ Represents s none t.root shape ∧ shape.RedBlack height

/-- The links of the tree spell out a red-black tree. -/
theorem Tree.Keeps.redBlack_tree {t : Tree} (h : t.Keeps s shape) : t.RedBlack s := by
  obtain ⟨height, hheight⟩ := h.redBlack
  exact ⟨shape, height, h.shape_eq, h.represents, hheight⟩

/-- The tree of the handle has the nodes `l`, and can have any of them deleted while a cursor hands
them out, in whichever order. A log says which nodes the cursor hands out, and which of them go. At
its turn, a node is a linked one of the tree. The others stay in the order that they had, and the
handle stays `Sound`.

If all nodes go that are handed out, none comes twice, so that the walk ends after no more than
there are. As many such passes as there are nodes leave none of them. -/
structure Withstands (start : τ → Store ρ → Order → Except Fault Cursor)
    (delete : τ → RecordId → Guarded ρ σ τ) (tree : τ → Tree) (Sound : τ → Store ρ → Prop) (t : τ)
    (s : Store ρ) (x : σ) (l : List RecordId) : Prop where
  walk_eq : (tree t).walk s .ascending = .ok l
  nodup : l.Nodup
  mem_iff : ∀ j, j ∈ l ↔ s.Reaches (tree t).root j
  drains : ∀ (order : Order) (chosen : Nat → RecordId → Store ρ → Bool),
    ∃ (cursor : Cursor) (log : List (RecordId × Bool)), start t s order = .ok cursor ∧
      log.length ≤ (l.length + 1).choose 2 ∧
      ((∀ k id s, chosen k id s = true) →
        (log.map Prod.fst).Nodup ∧ log.length ≤ l.length) ∧
      ∀ limit, (drain Cursor.advance delete chosen limit 0 cursor t).Returns s x fun d s' _ =>
        d.ids = (log.take limit).map Prod.fst ∧ d.rejected = none ∧
          (∀ id goes, log[limit]? = some (id, goes) → s'.Reaches (tree d.tree).root id ∧
            (∃ n, s'.node id = .ok n ∧ n.state = .linked) ∧ goes = chosen (limit + 1) id s') ∧
          Thinned s .ascending l (gone (log.take limit)) (tree d.tree) s' ∧
          (tree d.tree).RedBlack s' ∧ Sound d.tree s'
  sweeps : ∀ orders : List Order, l.length ≤ orders.length →
    (sweeps start delete orders t).Returns s x fun t' s' _ => tree t' = .empty ∧ Sound t' s' ∧
      (∀ j ∈ l, s'.node j = .ok .removed) ∧ ∀ j, j ∉ l → s'.node j = s.node j

variable {Sound : τ → Store ρ → Prop}

/-- Handles that shed their nodes withstand the deletion of any of them during a walk. -/
theorem Sheds.withstands (h : Sheds delete tree Held)
    (hstart : ∀ {s₀ all t s shape} order, Held s₀ all t s shape →
      start t s order = (tree t).cursor s order)
    (hsound : ∀ {s₀ all t s shape}, Held s₀ all t s shape → Sound t s)
    (hheld : Held s shape.inorder t s shape) (x : σ) :
    Withstands start delete tree Sound t s x shape.inorder where
  walk_eq := (h.keeps hheld).walk_ascending
  nodup := (h.keeps hheld).nodup
  mem_iff j := ((h.keeps hheld).represents.reaches_iff j).symm
  drains order chosen := by
    have hcursor := (h.keeps hheld).cursor_eq order
    rw [← hstart order hheld] at hcursor
    obtain ⟨log, hlen, -, hnodup, hlog⟩ := h.exists_log order hheld chosen x
    refine ⟨_, log, hcursor, hlen, hnodup, fun limit => (hlog limit).mono ?_⟩
    rintro d s' x' ⟨hids, hrejected, shape', hheld', hinorder, hnext⟩
    have hkeeps := h.keeps hheld'
    refine ⟨hids, hrejected, fun id goes hid => ?_, ?_, hkeeps.redBlack_tree, hsound hheld'⟩
    · obtain ⟨hin, hgoes⟩ := hnext id goes hid
      exact ⟨(hkeeps.represents.reaches_iff id).mpr hin, hkeeps.spells.exists_linked hin, hgoes⟩
    · exact (h.remains hheld').thinned .right hinorder
  sweeps orders hlen := by
    -- A handle that holds no node has wiped them all.
    refine (h.returns_sweeps (fun order hheld => hstart order hheld) hheld hlen).mono ?_
    intro t' s' x' hheld'
    have hremains := h.remains hheld'
    have hthinned : Thinned s (.towards .right) shape.inorder (fun _ => true) (tree t') s' :=
      hremains.thinned .right (by simp [Shape.inorder])
    exact ⟨hthinned.empty fun _ _ => rfl, hsound hheld', fun j hj => hthinned.removed j hj rfl,
      hthinned.frame⟩

end Bound

/-! ### Reachable states -/

section Handles

variable {ρ σ κ : Type} [Spanned ρ κ] [LawfulSpanned ρ] [LinearOrder κ] [Listener σ]

/-- Reaches stay exact, and starts in order. -/
theorem sheds_intervalTree :
    Sheds (IntervalTree.delete : IntervalTree → RecordId → Guarded ρ σ IntervalTree)
      (fun t => t.cached.tree)
      fun s₀ all t s shape => Remains s₀ all t.cached.tree s shape ∧ t.Keeps s shape where
  remains h := h.1
  delete {s₀ s all l r t x shape id} h hlist := by
    obtain ⟨hremains, hkeeps⟩ := h
    refine (IntervalTree.returns_delete (x := x) hkeeps hlist).mono ?_ fun _ _ _ hf => hf
    rintro t' s' x' ⟨shape', hs, hkeeps', -⟩
    exact ⟨shape', hs.inorder, hremains.shed hlist hs, hkeeps'⟩

end Handles

/-- In every reachable state, whichever nodes are deleted through the handle while a cursor hands
them out, in whichever of the orders: the cursor hands out linked nodes of the tree and comes to an
end, and what is left is a red-black tree of the nodes that stayed, in the order that they had.
Passes that delete all that they hand out leave nothing, if there are as many of them as there were
nodes. -/
theorem withstands_of_reachable {ρ σ ι κ : Type} [Linked ρ] [LawfulLinked ρ] [Listener σ]
    [Spanned ι κ] [LawfulSpanned ι] [LinearOrder κ] :
    (∀ {τ : Type} [DecidableEq τ] (f : Forest τ ρ σ) (i : τ), f.Reachable →
      ∃ l, Withstands Tree.cursor Tree.delete id (fun _ _ => True) (f.trees i) f.store f.context
        l) ∧
    (∀ f : Cached ρ σ, f.Reachable →
      ∃ l, Withstands CachedTree.cursor CachedTree.delete CachedTree.tree
        (fun t s => t.tree.first s = .ok t.first) f.tree f.store f.context l) ∧
    ∀ f : Intervals ι σ, f.Reachable →
      ∃ l, Withstands (fun t => t.cached.cursor) IntervalTree.delete (fun t => t.cached.tree)
        (fun t s => t.cached.tree.first s = .ok t.first ∧
          ∃ height, (t.validate s).run = .ok (.ok height)) f.tree f.store f.context l := by
  refine ⟨?_, ?_, ?_⟩
  · intro τ _ f i hreachable
    obtain ⟨shapes, hshaped⟩ := hreachable.exists_shaped
    exact ⟨_, sheds_tree.withstands (fun _ _ => rfl) (fun _ => trivial) (hshaped.keeps i).remains
      f.context⟩
  · intro f hreachable
    obtain ⟨shape, hkeeps⟩ := hreachable.exists_keeps
    refine ⟨_, sheds_cachedTree.withstands ?_ ?_ ⟨hkeeps.keeps.remains, hkeeps.leftmost_eq⟩
      f.context⟩
    · -- A cached tree starts its cursors where its plain tree does.
      rintro s₀ all t s shape order ⟨hremains, hleftmost⟩
      exact (CachedTree.Keeps.walksBy ⟨hremains.settled.keeps, hleftmost⟩).cursor_eq order
    · rintro s₀ all t s shape ⟨hremains, hleftmost⟩
      rw [hremains.settled.keeps.first_eq, CachedTree.first, hleftmost]
  · intro f hreachable
    obtain ⟨shape, hkeeps⟩ := hreachable.exists_keeps
    refine ⟨_, sheds_intervalTree.withstands ?_ ?_ ⟨hkeeps.cached.keeps.remains, hkeeps.toKeeps⟩
      f.context⟩
    · rintro s₀ all t s shape order ⟨-, hkeeps⟩
      exact hkeeps.cached.walksBy.cursor_eq order
    · rintro s₀ all t s shape ⟨-, hkeeps⟩
      obtain ⟨height, -, hvalid⟩ := hkeeps.exists_validate_eq
      refine ⟨?_, height, hvalid⟩
      rw [hkeeps.cached.keeps.first_eq, IntervalTree.first, CachedTree.first,
        hkeeps.cached.leftmost_eq]

/-- A drain in pre-order of the two nodes at `true` of `Forest.pair` that deletes the first one it
hands out comes to an end after at most three, and leaves a red-black tree. Two passes over the
intervals of `Intervals.sample` leave none of them. -/
theorem withstands_pair :
    (∃ log : List (RecordId × Bool), log.length ≤ 3 ∧ ∀ limit,
      (drain Cursor.advance Tree.delete (fun k _ _ => k == 1) limit 0 ⟨.preOrder, some 0⟩
        (Forest.pair.trees true)).Returns Forest.pair.store () fun d s _ =>
          d.ids = (log.take limit).map Prod.fst ∧ d.rejected = none ∧ d.tree.RedBlack s) ∧
    (sweeps (fun t => t.cached.cursor) IntervalTree.delete [.preOrder, .postOrder]
      Intervals.sample.tree).Returns Intervals.sample.store () fun t s _ =>
        t.cached.tree = .empty ∧ s.node 0 = .ok .removed ∧ s.node 1 = .ok .removed := by
  obtain ⟨hforest, -, hintervals⟩ :=
    withstands_of_reachable (ρ := Node) (σ := Unit) (ι := Entry Nat) (κ := Nat)
  constructor
  · obtain ⟨l, hpair⟩ := hforest Forest.pair true Forest.reachable_pair
    obtain rfl : l = [0, 1] := (Except.ok.inj hpair.walk_eq).symm
    obtain ⟨cursor, log, hcursor, hlen, -, hlog⟩ := hpair.drains .preOrder fun k _ _ => k == 1
    obtain rfl : cursor = ⟨.preOrder, some 0⟩ := (Except.ok.inj hcursor).symm
    refine ⟨log, hlen, fun limit => (hlog limit).mono ?_⟩
    rintro d s _ ⟨hids, hrejected, -, -, hredBlack, -⟩
    exact ⟨hids, hrejected, hredBlack⟩
  · obtain ⟨l, hsample⟩ := hintervals Intervals.sample Intervals.reachable_sample
    obtain rfl : l = [0, 1] := (Except.ok.inj hsample.walk_eq).symm
    refine (hsample.sweeps [.preOrder, .postOrder] (Nat.le_refl 2)).mono ?_
    rintro t s _ ⟨hempty, -, hremoved, -⟩
    exact ⟨hempty, hremoved 0 (by decide), hremoved 1 (by decide)⟩

end RecordTree
