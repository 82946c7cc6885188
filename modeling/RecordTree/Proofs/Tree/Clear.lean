import RecordTree.Proofs.Walk.PostOrder
import RecordTree.Tree.Replace

/-!
# `RecordTree.Proofs.Tree.Clear`: taking a whole tree apart

The loop walks in post-order and wipes each node right after it has computed the next one.
What it relies on holds at each turn: the nodes still to come have the links they had at the
start.

* `Tree.returns_clear`: the handle is empty afterwards, all nodes of the tree are wiped, and
  their number is returned.
-/

set_option autoImplicit false

namespace RecordTree

variable {ρ σ : Type} [Linked ρ] [LawfulLinked ρ] {t : Tree} {shape : Shape} {x : σ}

/-- The store `s'` differs from `s` in the nodes of `ids`, which are wiped. -/
structure Released (s : Store ρ) (ids : List RecordId) (s' : Store ρ) : Prop where
  size : s'.size = s.size
  payload : s'.payload = s.payload
  gone : ∀ j ∈ ids, s'.node j = .ok .removed
  frame : ∀ j, j ∉ ids → s'.node j = s.node j

/-- Wiping a node, and then those of `ids`, wipes all of them. -/
theorem Released.cons {s s' : Store ρ} {id : RecordId} {ids : List RecordId} (hid : id < s.size)
    (h : Released (s.modifyNode id fun _ => .removed) ids s') : Released s (id :: ids) s' where
  size := h.size.trans (Store.size_modifyNode ..)
  payload := h.payload.trans (Store.payload_modifyNode ..)
  gone j hj := by
    by_cases hin : j ∈ ids
    · exact h.gone j hin
    · obtain rfl : j = id := (List.mem_cons.mp hj).resolve_right hin
      rw [h.frame j hin, Store.node_overwrite hid]
  frame j hj := by
    rw [List.mem_cons, not_or] at hj
    rw [h.frame j hj.2, Store.node_modifyNode, if_neg (Ne.symm hj.1)]

/-- What is left of the walk when the nodes still to come are as they were. -/
theorem Tree.returns_releaseFrom {s₀ s : Store ρ} {l r : List RecordId} {steps : Nat}
    (released : Nat) (h : t.HasShape s₀ shape) (hlist : shape.postorder = l ++ r)
    (hsize : s.size = s₀.size) (hs : ∀ j ∈ r, s.node j = s₀.node j) (hsteps : r.length < steps) :
    (releaseFrom steps released ⟨.postOrder, r.head?⟩).Returns s x fun n s' x' =>
      n = released + r.length ∧ x' = x ∧ Released s r s' := by
  -- Along the nodes still to come. Those before are wiped, and none of them is looked at again.
  induction r generalizing s l steps released with
  | nil =>
    obtain ⟨steps, rfl⟩ := Nat.exists_eq_add_one.mpr hsteps
    simp only [releaseFrom, Update.returns_bind, Update.returns_read]
    refine ⟨none, rfl, Update.returns_pure.mpr ⟨rfl, rfl, rfl, rfl, ?_, fun _ _ => rfl⟩⟩
    simp
  | cons id r ih =>
    obtain ⟨steps, rfl⟩ : ∃ k, steps = k + 1 := Nat.exists_eq_add_one.mpr (by omega)
    have hnodup : shape.postorder.Nodup := (Shape.perm_postorder shape).nodup_iff.mpr h.nodup
    have hid : id < s.size := by
      rw [hsize]
      exact h.lt_size ((Shape.perm_postorder shape).mem_iff.mp (by simp [hlist]))
    have hidr : id ∉ r := by
      rw [hlist] at hnodup
      exact fun hin => notMem_of_nodup_middle hnodup (List.mem_append_right l hin)
    -- The next node is computed before this one is wiped.
    have hadvance : (Cursor.mk .postOrder (some id)).advance s =
        .ok (some (id, ⟨.postOrder, r.head?⟩)) := by
      have hstep := h.postNext_eq hlist hsize hs
      simp only [Cursor.advance, Order.step, hstep]
      rfl
    simp only [List.head?_cons, releaseFrom, Update.returns_bind, Update.returns_read]
    refine ⟨_, hadvance, ?_⟩
    simp only [Update.returns_bind, Update.returns_modifyNode]
    refine ⟨hid, ?_⟩
    rw [List.length_cons] at hsteps
    refine (ih (released + 1) (l := l ++ [id]) (by simp [hlist])
      ((Store.size_modifyNode ..).trans hsize) ?_ (by omega)).mono ?_
    · intro j hj
      have hne : id ≠ j := by
        rintro rfl
        exact hidr hj
      rw [Store.node_modifyNode, if_neg hne]
      exact hs j (List.mem_cons_of_mem id hj)
    · rintro n s' x' ⟨rfl, rfl, hreleased⟩
      exact ⟨by rw [List.length_cons]; omega, rfl, hreleased.cons hid⟩

/-- Clearing wipes all nodes of the tree. -/
theorem Tree.returns_clear {s : Store ρ} (h : t.Keeps s shape) :
    (t.clear : Update ρ σ (Tree × Nat)).Returns s x fun (t', n) s' x' =>
      t' = .empty ∧ n = shape.inorder.length ∧ x' = x ∧ s'.payload = s.payload ∧
        Settled s shape.inorder [] t' s' .leaf := by
  have hcursor : t.cursor s .postOrder = .ok ⟨.postOrder, shape.postorder.head?⟩ := by
    have hfirst := h.spells.postFirst_eq h.size_le
    rw [← h.root_eq] at hfirst
    rw [Tree.cursor, Cursor.start, Order.first, hfirst]
    rfl
  have hlen : shape.postorder.length = shape.inorder.length :=
    (Shape.perm_postorder shape).length_eq
  -- Each step wipes one node, so there are enough of them.
  have hsteps : shape.postorder.length < s.walkLimit + 1 := by
    have hlt := Store.lt_walkLimit h.length_le
    omega
  have hmem : ∀ j, j ∈ shape.postorder ↔ j ∈ shape.inorder := fun j =>
    (Shape.perm_postorder shape).mem_iff
  simp only [clear, Update.returns_bind, Update.returns_read, except_pure_eq_ok]
  refine ⟨_, hcursor, _, rfl, ?_⟩
  refine (returns_releaseFrom 0 h.toHasShape (l := []) rfl rfl (fun _ _ => rfl) hsteps).mono ?_
  rintro n s' x' ⟨rfl, rfl, hreleased⟩
  refine Update.returns_pure.mpr ⟨rfl, by omega, rfl, hreleased.payload, Tree.keeps_empty s', rfl,
    hreleased.size, ?_, ?_⟩
  · exact fun j hj _ => hreleased.gone j ((hmem j).mpr hj)
  · exact fun j hj _ => hreleased.frame j fun hin => hj ((hmem j).mp hin)

end RecordTree
