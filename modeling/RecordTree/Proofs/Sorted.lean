import RecordTree.Proofs.Tree.Insert

/-!
# `RecordTree.Proofs.Sorted`: nodes in the order of their records

`Store.Sorted` says that the records of a list of nodes ascend in a total preorder. Two facts
carry it through a run.

* `Store.Sorted.insert`: a sorted list stays so when a node goes in where a descent puts it.
* `Store.Sorted.congr`: it stays so while each record keeps its place in the order
  (`Store.KeepsOrder`). An order that does not look at nodes sees none of the links change
  (`Store.keepsOrder_of_payload`).

`Store.StablySorts` adds what a sorted list alone does not tell: which nodes they are, and that
those of equal order are in the order in which they came.
-/

set_option autoImplicit false

namespace RecordTree

open Std

variable {ρ : Type} {order : ρ → ρ → Ordering} {s s' : Store ρ} {l before after : List RecordId}
  {id : RecordId}

namespace Store

/-- The records of `l` ascend. -/
def Sorted (s : Store ρ) (order : ρ → ρ → Ordering) (l : List RecordId) : Prop :=
  l.Pairwise fun a b => ∃ x y, s.fetch a = .ok x ∧ s.fetch b = .ok y ∧ (order x y).isLE

/-- The record `id` is one that orders the same as `key`. -/
def ordersAs (s : Store ρ) (order : ρ → ρ → Ordering) (key : ρ) (id : RecordId) : Bool :=
  match s.fetch id with
  | .ok r => order r key == .eq
  | .error _ => false

/-- In both stores the record `id` has the same place in the order. -/
def KeepsOrder (s s' : Store ρ) (order : ρ → ρ → Ordering) (id : RecordId) : Prop :=
  ∃ r r', s.fetch id = .ok r ∧ s'.fetch id = .ok r' ∧ order r' r = .eq

/-- Each id below the size of the store has a record. -/
theorem exists_fetch_of_lt (h : id < s.size) : ∃ r, s.fetch id = .ok r :=
  ⟨s[id], fetch_of_lt h⟩

/-- In a sorted list the records that `id` orders before come last. -/
theorem Sorted.pairwise_ordersBefore [TransCmp order] (h : s.Sorted order l) (id : RecordId) :
    l.Pairwise fun a b => s.OrdersBefore order id a → s.OrdersBefore order id b := by
  refine h.imp fun {a b} hab hid => ?_
  obtain ⟨x, y, hx, hy, hle⟩ := hab
  obtain ⟨new, old, hnew, hold, hlt⟩ := hid
  rw [hx] at hold
  cases hold
  exact ⟨new, y, hnew, hy, TransCmp.lt_of_lt_of_isLE hlt hle⟩

/-- A node goes in after those that it does not order before. -/
theorem Sorted.insert [TransCmp order] (h : s.Sorted order (before ++ after))
    (hid : id < s.size) (hlt : ∀ j ∈ before, j < s.size)
    (hbefore : ∀ j ∈ before, ¬ s.OrdersBefore order id j)
    (hafter : ∀ j ∈ after, s.OrdersBefore order id j) :
    s.Sorted order (before ++ id :: after) := by
  obtain ⟨hl, hr, hlr⟩ := List.pairwise_append.mp h
  refine List.pairwise_append.mpr ⟨hl, List.pairwise_cons.mpr ⟨?_, hr⟩, ?_⟩
  · intro j hj
    obtain ⟨new, old, hnew, hold, hless⟩ := hafter j hj
    exact ⟨new, old, hnew, hold, by rw [hless]; rfl⟩
  · -- Not ordering before one means ordering after it, or the same.
    intro i hi j hj
    rcases List.mem_cons.mp hj with rfl | hj
    · obtain ⟨new, hnew⟩ := exists_fetch_of_lt hid
      obtain ⟨old, hold⟩ := exists_fetch_of_lt (hlt i hi)
      have hnot : order new old ≠ .lt := fun hless =>
        hbefore i hi ⟨new, old, hnew, hold, hless⟩
      refine ⟨old, new, hold, hnew, ?_⟩
      rwa [Ne, ← OrientedCmp.gt_iff_lt, Ordering.ne_gt_iff_isLE] at hnot
    · exact hlr i hi j hj

/-- Sorted lists stay so while all records keep their places in the order. -/
theorem Sorted.congr [TransCmp order] (h : s.Sorted order l)
    (hkeep : ∀ j ∈ l, s.KeepsOrder s' order j) : s'.Sorted order l := by
  refine List.Pairwise.imp_of_mem (fun {a b} ha hb hab => ?_) h
  obtain ⟨x, y, hx, hy, hle⟩ := hab
  obtain ⟨r, x', hr, hx', hxx⟩ := hkeep a ha
  obtain ⟨q, y', hq, hy', hyy⟩ := hkeep b hb
  rw [hx] at hr
  rw [hy] at hq
  cases hr
  cases hq
  refine ⟨x', y', hx', hy', ?_⟩
  rwa [TransCmp.congr_left hxx, TransCmp.congr_right hyy]

/-- Where a record keeps its place, it still orders as a key or does not. -/
theorem KeepsOrder.ordersAs_eq [TransCmp order] (h : s.KeepsOrder s' order id) (key : ρ) :
    s'.ordersAs order key id = s.ordersAs order key id := by
  obtain ⟨r, r', hr, hr', heq⟩ := h
  simp only [ordersAs, hr, hr', TransCmp.congr_left heq]

/-- Where two records keep their places, they still order as before. -/
theorem ordersBefore_congr [TransCmp order] {j : RecordId} (hid : s.KeepsOrder s' order id)
    (hj : s.KeepsOrder s' order j) : s'.OrdersBefore order id j ↔ s.OrdersBefore order id j := by
  obtain ⟨new, new', hnew, hnew', heq⟩ := hid
  obtain ⟨old, old', hold, hold', heq'⟩ := hj
  simp only [OrdersBefore, hnew, hnew', hold, hold', Except.ok.injEq, ↓existsAndEq, true_and]
  rw [TransCmp.congr_left heq, TransCmp.congr_right heq']

/-- A record that orders before another does not order the same as what that one does. -/
theorem OrdersBefore.ordersAs_eq_false [TransCmp order] {j : RecordId} {key : ρ}
    (h : s.OrdersBefore order id j) (hid : s.ordersAs order key id = true) :
    s.ordersAs order key j = false := by
  obtain ⟨new, old, hnew, hold, hlt⟩ := h
  simp only [ordersAs, hnew, hold, beq_iff_eq, beq_eq_false_iff_ne] at hid ⊢
  intro heq
  have : order new old = .eq := TransCmp.eq_trans hid (OrientedCmp.eq_symm heq)
  rw [hlt] at this
  cases this

/-- An order that does not look at nodes sees no change where the payloads stay. -/
theorem keepsOrder_of_payload [Linked ρ] [TransCmp order]
    (hblind : ∀ r n, order (Linked.withNode r n) r = .eq) (hpayload : s'.payload = s.payload)
    (hid : id < s.size) : s.KeepsOrder s' order id := by
  obtain ⟨r, hr⟩ := exists_fetch_of_lt hid
  have hid' : id < s'.size := by rwa [size_eq_of_payload hpayload]
  obtain ⟨r', hr'⟩ := exists_fetch_of_lt hid'
  refine ⟨r, r', hr, hr', ?_⟩
  -- Two records with one payload differ in their nodes only, and both are like the bare one.
  have hsame := congrFun hpayload id
  simp only [payload, hr, hr', Functor.map, Except.map, Except.ok.injEq] at hsame
  have hbare := hblind r' {}
  rw [hsame] at hbare
  exact TransCmp.eq_trans (OrientedCmp.eq_symm hbare) (hblind r {})

/-- Records keep their places when one is added. -/
theorem keepsOrder_push [TransCmp order] (r : ρ) (hid : id < s.size) :
    s.KeepsOrder (s.push r) order id := by
  have hpush : Store.fetch (s.push r) id = .ok s[id] := by
    have hlt : id < Array.size (s.push r) := by
      rw [Array.size_push]
      exact Nat.lt_succ_of_lt hid
    rw [fetch_of_lt hlt, Array.getElem_push_lt hid]
  exact ⟨s[id], s[id], fetch_of_lt hid, hpush, ReflCmp.compare_self⟩

/-- The list `l` has the nodes of `ids` sorted. Nodes whose records order the same are in it as
they are in `ids`. -/
structure StablySorts (s : Store ρ) (order : ρ → ρ → Ordering) (ids l : List RecordId) : Prop where
  sorted : s.Sorted order l
  perm : l.Perm ids
  stable : ∀ key, l.filter (s.ordersAs order key) = ids.filter (s.ordersAs order key)

namespace StablySorts

variable {ids : List RecordId}

/-- Nothing is sorted. -/
theorem nil (s : Store ρ) (order : ρ → ρ → Ordering) : s.StablySorts order [] [] :=
  ⟨.nil, .nil, fun _ => rfl⟩

/-- What is sorted stably stays so while its records keep their places. -/
theorem congr [TransCmp order] (h : s.StablySorts order ids l)
    (hkeep : ∀ j ∈ l, s.KeepsOrder s' order j) : s'.StablySorts order ids l := by
  refine ⟨h.sorted.congr hkeep, h.perm, fun key => ?_⟩
  have hl : l.filter (s'.ordersAs order key) = l.filter (s.ordersAs order key) :=
    List.filter_congr fun j hj => (hkeep j hj).ordersAs_eq key
  have hids : ids.filter (s'.ordersAs order key) = ids.filter (s.ordersAs order key) :=
    List.filter_congr fun j hj => (hkeep j (h.perm.mem_iff.mpr hj)).ordersAs_eq key
  rw [hl, hids, h.stable key]

/-- A node that goes in after those that it does not order before is the last of its equals. -/
theorem insert [TransCmp order] (h : s.StablySorts order ids (before ++ after))
    (hid : id < s.size) (hlt : ∀ j ∈ before, j < s.size)
    (hbefore : ∀ j ∈ before, ¬ s.OrdersBefore order id j)
    (hafter : ∀ j ∈ after, s.OrdersBefore order id j) :
    s.StablySorts order (ids ++ [id]) (before ++ id :: after) := by
  refine ⟨h.sorted.insert hid hlt hbefore hafter, ?_, ?_⟩
  · have hmid : (before ++ id :: after).Perm (id :: (before ++ after)) := List.perm_middle
    exact (hmid.trans (h.perm.cons id)).trans (List.perm_append_singleton id ids).symm
  · intro key
    have hstable := h.stable key
    rw [List.filter_append] at hstable ⊢
    rw [List.filter_append, ← hstable]
    by_cases heq : s.ordersAs order key id = true
    · -- None of the nodes after it orders the same.
      have hnone : after.filter (s.ordersAs order key) = [] :=
        List.filter_eq_nil_iff.mpr fun j hj => by
          simp [(hafter j hj).ordersAs_eq_false heq]
      simp [heq, hnone]
    · simp [heq]

/-- Without one of its nodes, the list is sorted stably for the nodes that are left. -/
theorem erase (h : s.StablySorts order ids (before ++ id :: after))
    (hnodup : (before ++ id :: after).Nodup) :
    s.StablySorts order (ids.erase id) (before ++ after) := by
  have hrest : (before ++ id :: after).erase id = before ++ after := by
    have hout : id ∉ before := fun hin =>
      (List.nodup_append.mp hnodup).2.2 id hin id List.mem_cons_self rfl
    rw [List.erase_append_right (id :: after) hout, List.erase_cons_head]
  refine ⟨?_, ?_, ?_⟩
  · show s.Sorted order (before ++ after)
    exact h.sorted.sublist ((List.sublist_cons_self id after).append_left before)
  · show (before ++ after).Perm (ids.erase id)
    rw [← hrest]
    exact h.perm.erase id
  · -- Both lists lose `id` wherever it was, and filters commute.
    intro key
    have hstable := congrArg (List.filter (· != id)) (h.stable key)
    rw [List.filter_comm, List.filter_comm (p := (· != id)) (q := s.ordersAs order key)] at hstable
    rw [← hrest, hnodup.erase_eq_filter, (h.perm.nodup_iff.mp hnodup).erase_eq_filter]
    exact hstable

end StablySorts

end Store

end RecordTree
