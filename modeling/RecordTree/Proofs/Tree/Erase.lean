import RecordTree.Proofs.Tree.Splice

/-!
# `RecordTree.Proofs.Tree.Erase`: what deleting a node does

A deletion is a splice, one call to the augmentation, and a repair if a black node left.

* `Tree.returns_erase`: the tree that results is red-black and has all other nodes in their
  old order, and the node is wiped.
* `Tree.returns_deleteWith`: the same behind the guard, which lets every node of a tree through.
* `Tree.rejects_deleteWith`: a node that is not linked is turned down, and nothing changes.
-/

set_option autoImplicit false

namespace RecordTree

variable {ρ σ : Type} [Linked ρ] [LawfulLinked ρ] {aug : Augmentation ρ σ}
  {Right : Nat → Payloads ρ → σ → Shape → Prop} {Was : Payloads ρ → σ → Shape → Prop}
  {s : Store ρ} {x : σ} {t : Tree} {id : RecordId}

/-- The repair after a splice, if one is due. -/
def Tree.mendGap (aug : Augmentation ρ σ) (t : Tree) (gap : Gap) : Update ρ σ Tree :=
  match gap.lost with
  | .black => t.mendBlack aug gap.child gap.parent
  | .red => pure t

omit [LawfulLinked ρ] in
/-- Taking a node out is a splice, a callback for the place that was left, the repair, and the
wiping. -/
theorem Tree.erase_eq (t : Tree) (id : RecordId) : t.erase aug id = (do
    let (t, gap) ← t.splice aug id
    aug.propagate gap.stale none
    let t ← t.mendGap aug gap
    Update.modifyNode id fun _ => .removed
    pure t) := by
  unfold erase mendGap
  congr 1
  funext out
  cases hlost : out.2.lost <;> simp only [hlost, pure_bind]

/-- The repair after a splice, if one is due, takes three rotations at most, and leaves a red-black
tree. -/
theorem Tree.returns_mendGap (turns : aug.Turns Right) {gap : Gap} {C : Context} {u : Shape}
    (h : t.HasShape s (C.fill u)) (hright : Right 0 s.payload x (C.fill u))
    (hchild : gap.child = u.root?) (hparent : gap.parent = C.parent)
    (hlacks : C.Lacks u gap.lost) :
    (t.mendGap aug gap).Returns s x fun t' s' x' => ∃ k ≤ 3, ∃ shape,
      Mending Right k s (C.fill u) t' s' x' shape ∧ ∃ total, shape.RedBlack total := by
  have m : Mending Right 0 s (C.fill u) t s x (C.fill u) := ⟨.refl h, hright⟩
  unfold mendGap
  -- A red node leaves no gap behind. For a black one the repair starts at its place.
  cases hlost : gap.lost with
  | red =>
    rw [hlost] at hlacks
    exact Update.returns_pure.mpr ⟨0, by omega, _, m, hlacks⟩
  | black =>
    rw [hlost] at hlacks
    obtain ⟨total, k, hu, hfits⟩ := hlacks
    simp only [mendBlack, hchild, hparent, Update.returns_bind, Update.returns_read,
      except_pure_eq_ok]
    refine ⟨_, rfl, (returns_mendBlackFrom turns s.repairLimit m hu hfits h.depth_lt).mono ?_⟩
    rintro t' s' x' ⟨k, hk, shape, m', hdone⟩
    refine ⟨k, by omega, shape, m', ?_⟩
    rcases hdone with hdone | ⟨total', -, hdone⟩
    · exact ⟨total, hdone⟩
    · exact ⟨total', hdone⟩

/-- A node that is erased leaves its tree, and all others keep their order. -/
theorem Tree.returns_erase (turns : aug.Turns Right) (shrinks : aug.Shrinks id Was (Right 0))
    {C : Context} {c : Color} {l r : Shape} (h : t.Keeps s (C.fill (.node c l id r)))
    (hwas : Was s.payload x (C.fill (.node c l id r))) :
    (t.erase aug id).Returns s x fun t' s' x' => ∃ k ≤ 3, ∃ shape,
      Settled s (C.fill (.node c l id r)).inorder (C.before ++ l.inorder ++ r.inorder ++ C.after)
        t' s' shape ∧ Right k s'.payload x' shape := by
  have hid : id < s.size := h.lt_size (by simp [Shape.inorder])
  have hnot : id ∉ C.before ++ l.inorder ++ r.inorder ++ C.after := by
    obtain ⟨hleft, hright⟩ := Context.notMem_of_nodup_fill h.nodup
    simpa [and_assoc] using And.intro hleft hright
  rw [erase_eq, Update.returns_bind]
  refine (returns_splice shrinks h hwas).mono ?_
  rintro ⟨t₁, gap⟩ s₁ x₁ ⟨C', u, hs⟩
  simp only [Update.returns_bind]
  -- The summaries are right from here on, and the repair keeps them so.
  refine hs.propagate.mono ?_
  rintro _ s₂ x₂ ⟨hnode, hright⟩
  have hshape := hs.hasShape.congr fun j _ => congrFun hnode j
  refine (returns_mendGap turns hshape hright hs.child hs.parent hs.lacks).mono ?_
  rintro t' s₃ x₃ ⟨k, hk, shape, m, hredBlack⟩
  have hsize : s₃.size = s.size := by
    rw [m.reshaped.size, Store.size_eq_of_node hnode, hs.size]
  have hinorder := m.reshaped.inorder.trans hs.inorder
  simp only [Update.returns_modifyNode, Update.returns_pure]
  refine ⟨hsize ▸ hid, k, hk, shape, ?_, by simpa using m.right⟩
  refine ⟨⟨m.hasShape.congr ?_, hredBlack⟩, hinorder, ?_, ?_, ?_⟩
  · -- Wiping `id` comes last, and `id` is not in the tree any more.
    intro j hj
    rw [Store.node_modifyNode, if_neg]
    rintro rfl
    exact hnot (hinorder ▸ hj)
  · exact (Store.size_modifyNode ..).trans hsize
  · intro j hj hout
    show (s₃.modifyNode id fun _ => .removed).node j = _
    have heq : id = j := by
      rw [Context.inorder_fill, Shape.inorder] at hj
      simp only [List.mem_append, List.mem_cons] at hj hout
      tauto
    subst heq
    exact Store.node_overwrite (hsize ▸ hid) .removed
  · intro j hold hnew
    have hne : id ≠ j := by
      rintro rfl
      exact hold (by simp [Shape.inorder])
    rw [Store.node_modifyNode, if_neg hne, m.reshaped.frame j (hs.inorder ▸ hnew), hnode,
      hs.frame j hne.symm hnew]

/-! ### Behind the guard -/

variable [Listener σ]

/-- Deleting a node of the tree takes just that node out. -/
theorem Tree.returns_deleteWith (turns : aug.Turns Right) (shrinks : aug.Shrinks id Was (Right 0))
    {shape : Shape} {l r : List RecordId} (h : t.Keeps s shape)
    (hlist : shape.inorder = l ++ id :: r) (hwas : Was s.payload x shape) :
    (t.deleteWith aug id).Returns s x
      (fun t' s' x' => ∃ k ≤ 3, ∃ shape', Settled s shape.inorder (l ++ r) t' s' shape' ∧
        Right k s'.payload x' shape')
      (fun _ _ _ => False) := by
  obtain ⟨n, hn, hstate⟩ := h.spells.exists_linked (j := id) (by simp [hlist])
  obtain ⟨C, c, a, b, rfl, rfl, rfl⟩ := h.exists_split hlist
  simp only [deleteWith, checkDelete, Guarded.returns_bind, Guarded.returns_update,
    Update.returns_node]
  refine ⟨n, hn, ?_⟩
  -- All nodes of a tree are linked, so the guard lets this one through.
  simp only [hstate, Guarded.returns_pure]
  have hdone := returns_erase turns shrinks h hwas
  simpa only [List.append_assoc] using hdone

omit [LawfulLinked ρ] in
/-- A node that is not linked cannot be deleted. -/
theorem Tree.rejects_deleteWith {n : Node} (hn : s.node id = .ok n) (hstate : n.state ≠ .linked) :
    (t.deleteWith aug id).Returns s x (fun _ _ _ => False)
      (fun r s' x' => s' = s ∧ x' = Listener.hear r x ∧
        (r = .alreadyRemoved id ∧ n.state = .removed ∨
          r = .neverInserted id ∧ n.state = .detached)) := by
  simp only [deleteWith, checkDelete, Guarded.returns_bind, Guarded.returns_update,
    Update.returns_node]
  refine ⟨n, hn, ?_⟩
  cases hcase : n.state with
  | linked => exact absurd hcase hstate
  | removed => simp
  | detached => simp

end RecordTree
