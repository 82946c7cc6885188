import RecordTree.Proofs.Forest.Invariant
import RecordTree.Proofs.Sorted
import RecordTree.Proofs.Walk.Cursor

/-!
# `RecordTree.Proofs.Forest.Order`: where the calls put their nodes

The ascending walk of a tree (`Forest.walk`) is a list that the calls change in one place each.
`Call.Takes` says where.

`Forest.Collects` is a run on one tree by insertions under a total preorder of the records,
deletions and clearing, while anything at all goes on in the other trees. It keeps the nodes
sorted, and equal ones in the order of their insertion.

* `Forest.Collects.exists_sorts`: the run.
* `Forest.walk_of_reachable`: the walks of a reachable forest, what each call makes of them, and
  what more there is to say of a tree that `Forest.Collects` its nodes.
-/

set_option autoImplicit false

namespace RecordTree

open Std

namespace Forest

variable {ι ρ σ : Type} [Linked ρ] [DecidableEq ι] [Listener σ]

/-- The nodes of the ascending walk over the tree at `i`. -/
def walk (f : Forest ι ρ σ) (i : ι) : Except Fault (List RecordId) :=
  (f.trees i).walk f.store .ascending

/-- The tree at `i` was empty once, and has since changed by insertions under `order`, deletions
and clearing only. None of its nodes has changed its place in `order` meanwhile. The list has
its nodes in the order of their insertion. -/
inductive Collects (order : ρ → ρ → Ordering) (i : ι) : Forest ι ρ σ → List RecordId → Prop where
  | start {f : Forest ι ρ σ} : f.Reachable → f.trees i = .empty → Collects order i f []
  | insert {f f' : Forest ι ρ σ} {ids : List RecordId} {id : RecordId}
      {compare : Comparator ρ σ} :
      Collects order i f ids → id < f.store.size → compare.Answers order →
      f.call i (.insert id compare) = .ok (none, f') → Collects order i f' (ids ++ [id])
  | delete {f f' : Forest ι ρ σ} {ids : List RecordId} {id : RecordId} :
      Collects order i f ids → f.Holds i id → f.call i (.delete id) = .ok (none, f') →
      Collects order i f' (ids.erase id)
  | clear {f f' : Forest ι ρ σ} {ids : List RecordId} :
      Collects order i f ids → f.call i .clear = .ok (none, f') → Collects order i f' []
  /-- A guard turns the call down. -/
  | rejected {f f' : Forest ι ρ σ} {ids : List RecordId} {c : Call ρ σ} {r : Rejection} :
      Collects order i f ids → f.call i c = .ok (some r, f') → Collects order i f' ids
  /-- A call is made through another handle. -/
  | other {f f' : Forest ι ρ σ} {ids : List RecordId} {k : ι} {c : Call ρ σ}
      {outcome : Option Rejection} :
      Collects order i f ids → k ≠ i → f.Permits k c → f.call k c = .ok (outcome, f') →
      Collects order i f' ids
  /-- The caller changes what the nodes do not hold. -/
  | edit {f : Forest ι ρ σ} {ids : List RecordId} {s : Store ρ} (context : σ) :
      Collects order i f ids → s.node = f.store.node →
      (∀ id, f.Holds i id → f.store.KeepsOrder s order id) →
      Collects order i { f with store := s, context } ids
  /-- The caller adds a record with a new node. -/
  | push {f : Forest ι ρ σ} {ids : List RecordId} {r : ρ} :
      Collects order i f ids → Linked.node r = {} →
      Collects order i { f with store := f.store.push r } ids

variable {f f' : Forest ι ρ σ} {shapes : ι → Shape} {i : ι}

omit [DecidableEq ι] [Listener σ] in
/-- The ascending walk over each tree goes through its shape from left to right. -/
theorem Shaped.walk_eq (h : f.Shaped shapes) (i : ι) : f.walk i = .ok (shapes i).inorder :=
  (h.keeps i).walk_ascending

variable [LawfulLinked ρ]

/-- A permitted call that returned has an outcome. -/
theorem Shaped.outcome (h : f.Shaped shapes) {c : Call ρ σ} (hc : f.Permits i c)
    {outcome : Option Rejection} (hcall : f.call i c = .ok (outcome, f')) :
    f.Outcome shapes i c outcome f' := by
  obtain ⟨outcome', f'', hcall', hout⟩ := h.returns_call hc
  rw [hcall] at hcall'
  cases hcall'
  exact hout

section Sorted

variable {order : ρ → ρ → Ordering} [TransCmp order] {ids : List RecordId}

/-- An insertion under `order` into a sorted tree. -/
theorem Shaped.stablySorts_insert (h : f.Shaped shapes)
    (hblind : ∀ r n, order (Linked.withNode r n) r = .eq) {id : RecordId}
    {compare : Comparator ρ σ} (hid : id < f.store.size) (ho : compare.Answers order)
    (hcall : f.call i (.insert id compare) = .ok (none, f'))
    (hs : f.store.StablySorts order ids (shapes i).inorder) :
    ∃ shape, f'.Shaped (Function.update shapes i shape) ∧
      f'.store.StablySorts order (ids ++ [id]) shape.inorder := by
  obtain ⟨-, hpayload, shape, hshaped, l, r, hold, hnew, hplace⟩ :=
    h.outcome (c := .insert id compare) hid hcall
  refine ⟨shape, hshaped, ?_⟩
  -- In a sorted tree the descent divides the nodes by the order.
  obtain ⟨hl, hr⟩ := hplace order ho (hs.sorted.pairwise_ordersBefore id)
  rw [hold] at hs
  have hlt : ∀ j ∈ l ++ r, j < f.store.size := fun j hj => (h.keeps i).lt_size (by rwa [hold])
  have hins := hs.insert hid (fun j hj => hlt j (List.mem_append_left r hj)) hl hr
  rw [hnew]
  refine hins.congr fun j hj => Store.keepsOrder_of_payload hblind hpayload ?_
  simp only [List.mem_append, List.mem_cons] at hj hlt
  rcases hj with hj | rfl | hj
  · exact hlt j (.inl hj)
  · exact hid
  · exact hlt j (.inr hj)

/-- The run: the tree stays sorted, and equal nodes stay in the order of their insertion. -/
theorem Collects.exists_sorts (hblind : ∀ r n, order (Linked.withNode r n) r = .eq)
    (h : Collects order i f ids) :
    ∃ shapes, f.Shaped shapes ∧ f.store.StablySorts order ids (shapes i).inorder := by
  induction h with
  | start hreach hempty =>
    obtain ⟨shapes, hshaped⟩ := hreach.exists_shaped
    have hroot := (hshaped.keeps i).root_eq
    rw [hempty] at hroot
    refine ⟨shapes, hshaped, ?_⟩
    rw [Shape.eq_leaf_of_root? hroot.symm]
    exact .nil _ _
  | insert _ hid ho hcall ih =>
    obtain ⟨shapes, hshaped, hs⟩ := ih
    obtain ⟨shape, hshaped', hs'⟩ := hshaped.stablySorts_insert hblind hid ho hcall hs
    exact ⟨_, hshaped', by rwa [Function.update_self]⟩
  | @delete f f' ids id _ hholds hcall ih =>
    obtain ⟨shapes, hshaped, hs⟩ := ih
    obtain ⟨-, hpayload, shape, hshaped', l, r, hold, hnew⟩ :=
      hshaped.outcome (c := .delete id) (.inl hholds) hcall
    refine ⟨_, hshaped', ?_⟩
    have hnodup := (hshaped.keeps i).nodup
    rw [hold] at hs hnodup
    rw [Function.update_self, hnew]
    refine (hs.erase hnodup).congr ?_
    intro j hj
    refine Store.keepsOrder_of_payload hblind hpayload ((hshaped.keeps i).lt_size ?_)
    rw [hold, List.mem_append, List.mem_cons]
    exact (List.mem_append.mp hj).imp_right .inr
  | clear _ hcall ih =>
    obtain ⟨shapes, hshaped, -⟩ := ih
    obtain ⟨-, -, shape, hshaped', hnew⟩ := hshaped.outcome (c := .clear) trivial hcall
    refine ⟨_, hshaped', ?_⟩
    rw [Function.update_self, hnew]
    exact .nil _ _
  | rejected _ hcall ih =>
    obtain ⟨shapes, hshaped, hs⟩ := ih
    obtain ⟨hstore, htrees⟩ := eq_of_rejected hcall
    exact ⟨shapes, hshaped.congr (by rw [hstore]) htrees, by rwa [hstore]⟩
  | @other f f' ids k c outcome _ hk hp hcall ih =>
    obtain ⟨shapes, hshaped, hs⟩ := ih
    have hout := hshaped.outcome hp hcall
    cases outcome with
    | none =>
      obtain ⟨-, hpayload, shape, hshaped', -⟩ := hout
      refine ⟨_, hshaped', ?_⟩
      -- The other tree has none of these nodes, and no record changed but in its node.
      rw [Function.update_of_ne (Ne.symm hk)]
      exact hs.congr fun j hj =>
        Store.keepsOrder_of_payload hblind hpayload ((hshaped.keeps i).lt_size hj)
    | some r =>
      obtain ⟨-, hstore, htrees⟩ := hout
      exact ⟨shapes, hshaped.congr (by rw [hstore]) htrees, by rwa [hstore]⟩
  | edit context _ hnode hkeep ih =>
    obtain ⟨shapes, hshaped, hs⟩ := ih
    exact ⟨shapes, hshaped.congr hnode rfl, hs.congr fun j hj =>
      hkeep j (hshaped.holds_iff.mpr hj)⟩
  | @push f ids r _ hr ih =>
    obtain ⟨shapes, hshaped, hs⟩ := ih
    refine ⟨shapes, hshaped.push hr, hs.congr fun j hj => ?_⟩
    exact Store.keepsOrder_push r ((hshaped.keeps i).lt_size hj)

end Sorted

omit [LawfulLinked ρ] [Listener σ] in
/-- An outcome in terms of the walks. -/
theorem Outcome.exists_walk (h : f.Shaped shapes) {c : Call ρ σ} {outcome : Option Rejection}
    (hout : f.Outcome shapes i c outcome f') :
    (outcome = none ↔ f.Admits i c) ∧ ∃ walk,
      (∀ k, f'.walk k = .ok (Function.update (fun k => (shapes k).inorder) i walk k)) ∧
        (outcome = none → c.Takes f.store (shapes i).inorder walk) ∧
        (outcome ≠ none → walk = (shapes i).inorder) := by
  cases outcome with
  | none =>
    obtain ⟨hadmits, -, shape, hshaped, htakes⟩ := hout
    refine ⟨iff_of_true rfl hadmits, shape.inorder, fun k => ?_, fun _ => htakes, absurd rfl⟩
    rw [hshaped.walk_eq k, Function.apply_update (fun _ shape => Shape.inorder shape)]
  | some r =>
    obtain ⟨hnot, hstore, htrees⟩ := hout
    refine ⟨iff_of_false (Option.some_ne_none r) hnot, (shapes i).inorder, fun k => ?_,
      fun hnone => absurd hnone (Option.some_ne_none r), fun _ => rfl⟩
    rw [Function.update_eq_self, Forest.walk, hstore, htrees]
    exact h.walk_eq k

/-- In a reachable forest each tree has its walk, and a permitted call returns. It is turned down
exactly if the forest does not admit it, and then all walks stay as they are. Else its own tree's
walk goes where the call takes it, and the others stay.

If the tree has collected its nodes under a total preorder, then its walk is sorted, and equal
nodes are in the order of their insertion: the next one goes in right behind the last that does
not compare greater. -/
theorem walk_of_reachable (h : f.Reachable) : ∃ walks : ι → List RecordId,
    (∀ i, f.walk i = .ok (walks i)) ∧
    (∀ i, f.trees i = .empty → walks i = []) ∧
    (∀ i c, f.Permits i c → ∃ outcome f', f.call i c = .ok (outcome, f') ∧
      (outcome = none ↔ f.Admits i c) ∧ ∃ walk,
        (∀ k, f'.walk k = .ok (Function.update walks i walk k)) ∧
        (outcome = none → c.Takes f.store (walks i) walk) ∧
        (outcome ≠ none → walk = walks i)) ∧
    ∀ i order ids, TransCmp order → (∀ r n, order (Linked.withNode r n) r = .eq) →
      f.Collects order i ids →
      f.store.StablySorts order ids (walks i) ∧
      ∀ id compare, compare.Answers order → f.Admits i (.insert id compare) →
        ∃ f' l r, f.call i (.insert id compare) = .ok (none, f') ∧ walks i = l ++ r ∧
          f'.walk i = .ok (l ++ id :: r) ∧ (∀ j ∈ l, ¬ f.store.OrdersBefore order id j) ∧
          ∀ j ∈ r, f.store.OrdersBefore order id j := by
  obtain ⟨shapes, hshaped⟩ := h.exists_shaped
  refine ⟨fun i => (shapes i).inorder, hshaped.walk_eq, ?_, ?_, ?_⟩
  · intro i hempty
    have hroot := (hshaped.keeps i).root_eq
    rw [hempty] at hroot
    exact congrArg Shape.inorder (Shape.eq_leaf_of_root? hroot.symm)
  · intro i c hp
    obtain ⟨outcome, f', hcall, hout⟩ := hshaped.returns_call hp
    exact ⟨outcome, f', hcall, hout.exists_walk hshaped⟩
  · -- The run has a shape of its own, which the walk tells to be the same.
    intro i order ids _ hblind hcollects
    have hsorts : f.store.StablySorts order ids (shapes i).inorder := by
      obtain ⟨shapes', hshaped', hs⟩ := hcollects.exists_sorts hblind
      have hsame := (hshaped.walk_eq i).symm.trans (hshaped'.walk_eq i)
      rwa [Except.ok.inj hsame]
    refine ⟨hsorts, fun id compare ho hadmits => ?_⟩
    obtain ⟨outcome, f', hcall, hout⟩ := hshaped.returns_call (c := .insert id compare) hadmits.1
    obtain ⟨hnone, walk, hwalk, htakes, -⟩ := hout.exists_walk hshaped
    obtain rfl := hnone.mpr hadmits
    obtain ⟨l, r, hold, hnew, hplace⟩ := htakes rfl
    refine ⟨f', l, r, hcall, hold, ?_, hplace order ho (hsorts.sorted.pairwise_ordersBefore id)⟩
    rw [hwalk i, Function.update_self, hnew]

/-- The tree at `true` of `pair` has collected two equal nodes. A third goes in behind them. -/
theorem walk_pair : pair.walk true = .ok [0, 1] ∧
    pair.store.StablySorts (fun _ _ => .eq) [0, 1] [0, 1] ∧
    ∃ f', pair.call true (.insert 2 (.of fun _ _ => .eq)) = .ok (none, f') ∧
      f'.walk true = .ok [0, 1, 2] := by
  have horder : TransCmp fun _ _ : Node => Ordering.eq :=
    { eq_swap := rfl, isLE_trans := fun _ h => h }
  have hhalf : pairHalf.Collects (fun _ _ => .eq) true [0] :=
    .insert (.start reachable_pairBare rfl) (show 0 < 3 by decide) (Comparator.answers_of _)
      pairBare_insert
  have hpair : pair.Collects (fun _ _ => .eq) true [0, 1] :=
    .insert hhalf (show 1 < 3 by decide) (Comparator.answers_of _) pairHalf_insert
  obtain ⟨walks, hwalks, -, hcalls, hsorted⟩ := walk_of_reachable reachable_pair
  have htrue : walks true = [0, 1] := (Except.ok.inj (hwalks true)).symm
  obtain ⟨hsorts, hinsert⟩ := hsorted true _ _ horder (fun _ _ => rfl) hpair
  obtain ⟨outcome, f', hcall, hnone, -⟩ :=
    hcalls true (.insert 2 (.of fun _ _ => .eq)) (show 2 < 3 by decide)
  obtain rfl : outcome = none := (congrArg Prod.fst (Except.ok.inj hcall)).symm
  obtain ⟨f'', l, r, hcall', hold, hnew, -, hafter⟩ :=
    hinsert 2 _ (Comparator.answers_of _) (hnone.mp rfl)
  refine ⟨hwalks true |>.trans (congrArg _ htrue), htrue ▸ hsorts, f'', hcall', ?_⟩
  -- No record orders before another one, so the new one comes last.
  have hr : r = [] := by
    rw [List.eq_nil_iff_forall_not_mem]
    intro j hj
    obtain ⟨_, _, -, -, hlt⟩ := hafter j hj
    cases hlt
  rw [hr, List.append_nil] at hold
  rw [hnew, hr, ← hold, htrue]
  rfl

end Forest

end RecordTree
