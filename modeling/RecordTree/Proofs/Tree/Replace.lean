import RecordTree.Proofs.Shape.Represents
import RecordTree.Tree.Replace

/-!
# `RecordTree.Proofs.Tree.Replace`: handing a place over

The new node takes the links and the colour of the old one, so the shape of the tree stays
what it was but for one id.

* `Tree.returns_substitute`: the tree has the new node where the old one stood, and the old
  one is wiped.
* `Tree.returns_replace_iff`, `Tree.rejects_replace`: a replacement is the same behind two
  guards, which want the old node linked and the new one not.
-/

set_option autoImplicit false

namespace RecordTree

variable {ρ σ : Type} [Linked ρ] [LawfulLinked ρ] {s : Store ρ} {x : σ} {t : Tree} {C : Context}
  {c : Color} {l r : Shape} {old new : RecordId}

/-- The store after `new` took over the node `n` of `old`. -/
def Store.substituted (s : Store ρ) (old new : RecordId) (n : Node) : Store ρ :=
  (((((s.modifyNode new fun _ => { n with state := .linked }).setParent n.left
    (some new)).setParent n.right (some new)).changeChild old (some new) n.parent).modifyNode old
    fun _ => .removed)

omit [LawfulLinked ρ] in
/-- Taking over a node adds no record. -/
@[simp] theorem Store.size_substituted (s : Store ρ) (old new : RecordId) (n : Node) :
    (s.substituted old new n).size = s.size := by
  simp [substituted]

/-- Taking over a node changes nodes only. -/
@[simp] theorem Store.payload_substituted (s : Store ρ) (old new : RecordId) (n : Node) :
    (s.substituted old new n).payload = s.payload := by
  simp [substituted]

section Substituted

variable {n m : Node} {j : RecordId}

/-- The new record has the links and the colour of the old one, and is linked. -/
theorem Store.node_substituted_new (hlt : new < s.size) (hne : old ≠ new)
    (hleft : n.left ≠ some new) (hright : n.right ≠ some new) (hparent : n.parent ≠ some new) :
    (s.substituted old new n).node new = .ok { n with state := .linked } := by
  obtain ⟨m, hm⟩ := exists_node_of_lt hlt
  simp [substituted, node_modifyNode, node_setParent, node_changeChild, hm, hne, hleft, hright,
    hparent]

/-- A child of the old record is under the new one. -/
theorem Store.node_substituted_child (hm : s.node j = .ok m) (hold : old ≠ j) (hnew : new ≠ j)
    (hchild : n.left = some j ∧ n.right ≠ some j ∨ n.left ≠ some j ∧ n.right = some j)
    (hparent : n.parent ≠ some j) :
    (s.substituted old new n).node j = .ok (m.withParent (some new)) := by
  rcases hchild with ⟨hleft, hright⟩ | ⟨hleft, hright⟩ <;>
    simp [substituted, node_modifyNode, node_setParent, node_changeChild, hm, hold, hnew, hleft,
      hright, hparent]

/-- The parent of the old record has the new one as its child. -/
theorem Store.node_substituted_parent (hm : s.node j = .ok m) (hold : old ≠ j) (hnew : new ≠ j)
    (hleft : n.left ≠ some j) (hright : n.right ≠ some j) (hparent : n.parent = some j) :
    (s.substituted old new n).node j = .ok (m.swapChild old (some new)) := by
  simp [substituted, node_modifyNode, node_setParent, node_changeChild, hm, hold, hnew, hleft,
    hright, hparent]

/-- No other record changes. -/
theorem Store.node_substituted_of_ne (hold : old ≠ j) (hnew : new ≠ j) (hleft : n.left ≠ some j)
    (hright : n.right ≠ some j) (hparent : n.parent ≠ some j) :
    (s.substituted old new n).node j = s.node j := by
  simp [substituted, node_modifyNode, node_setParent, node_changeChild, hold, hnew, hleft, hright,
    hparent]

end Substituted

/-- When `new` has taken over the node of `old`, it stands in its place, and no record outside of
the tree has another node, except for `old`. -/
theorem Tree.HasShape.substituted {n : Node} (h : t.HasShape s (C.fill (.node c l old r)))
    (hn : s.node old = .ok n) (hnew : new ∉ (C.fill (.node c l old r)).inorder)
    (hlt : new < s.size) :
    (t.withChild (some new) C.parent).HasShape (s.substituted old new n)
        (C.fill (.node c l new r)) ∧
      ∀ j, j ≠ old → j ∉ (C.fill (.node c l new r)).inorder →
        (s.substituted old new n).node j = s.node j := by
  obtain ⟨hnode, hl, hr⟩ := spells_node.mp (represents_fill.mp h.represents).2
  rw [hn] at hnode
  cases hnode
  obtain ⟨htop, hids, hdisj⟩ := Context.nodup_fill.mp h.nodup
  rw [← Shape.join_left] at htop hdisj hnew
  obtain ⟨holdl, holdr, hlnodup, hrnodup, hlr⟩ := Shape.nodup_join.mp htop
  simp only [Context.mem_fill, Shape.mem_join, not_or] at hnew
  obtain ⟨⟨hne, hnewl, hnewr⟩, hnewC⟩ := hnew
  -- The records that change are different ones.
  have holdC : old ∉ C.ids := hdisj (by simp)
  have hlC : l.inorder.Disjoint C.ids := fun j hj => hdisj (by simp [hj])
  have hrC : r.inorder.Disjoint C.ids := fun j hj => hdisj (by simp [hj])
  have hparent : ∀ j, j ∉ C.ids → C.parent ≠ some j := fun j hj hp =>
    hj (Context.mem_ids_of_parent hp)
  have hroot : ∀ (u : Shape) j, j ∉ u.inorder → u.root? ≠ some j := fun u j hj hq =>
    hj (Shape.mem_of_root? hq)
  have hnodup' : (C.fill (.node c l new r)).inorder.Nodup := by
    refine Context.nodup_fill.mpr ⟨?_, hids, ?_⟩
    · -- Outside the tree, `new` repeats none of its nodes.
      rw [← Shape.join_left]
      exact Shape.nodup_join.mpr ⟨hnewl, hnewr, hlnodup, hrnodup, hlr⟩
    · intro j hj
      simp only [Shape.inorder, List.mem_append, List.mem_cons] at hj
      rcases hj with hj | rfl | hj
      · exact hlC hj
      · exact hnewC
      · exact hrC hj
  refine ⟨h.refill hnodup' (spells_node.mpr ⟨?_, hl.move hlnodup ?_ ?_, hr.move hrnodup ?_ ?_⟩)
    ?_ ?_, ?_⟩
  · exact Store.node_substituted_new hlt (Ne.symm hne) (hroot l new hnewl) (hroot r new hnewr)
      (hparent new hnewC)
  · intro j hj hq
    have hold := (ne_of_mem_of_not_mem hj holdl).symm
    have hnew := (ne_of_mem_of_not_mem hj hnewl).symm
    exact Store.node_substituted_of_ne hold hnew hq (hroot r j (hlr hj)) (hparent j (hlC hj))
  · intro j n hq hn
    have hj := Shape.mem_of_root? hq
    have hold := (ne_of_mem_of_not_mem hj holdl).symm
    have hnew := (ne_of_mem_of_not_mem hj hnewl).symm
    exact Store.node_substituted_child hn hold hnew (.inl ⟨hq, hroot r j (hlr hj)⟩)
      (hparent j (hlC hj))
  · intro j hj hq
    have hold := (ne_of_mem_of_not_mem hj holdr).symm
    have hnew := (ne_of_mem_of_not_mem hj hnewr).symm
    exact Store.node_substituted_of_ne hold hnew (hroot l j fun hjl => hlr hjl hj) hq
      (hparent j (hrC hj))
  · intro j n hq hn
    have hj := Shape.mem_of_root? hq
    have hold := (ne_of_mem_of_not_mem hj holdr).symm
    have hnew := (ne_of_mem_of_not_mem hj hnewr).symm
    exact Store.node_substituted_child hn hold hnew (.inr ⟨hroot l j fun hjl => hlr hjl hj, hq⟩)
      (hparent j (hrC hj))
  · intro j hj hp
    have hold := (ne_of_mem_of_not_mem hj holdC).symm
    have hnew := (ne_of_mem_of_not_mem hj hnewC).symm
    exact Store.node_substituted_of_ne hold hnew (hroot l j fun hjl => hlC hjl hj)
      (hroot r j fun hjr => hrC hjr hj) hp
  · intro j n hp hn
    have hj := Context.mem_ids_of_parent hp
    have hold := (ne_of_mem_of_not_mem hj holdC).symm
    have hnew := (ne_of_mem_of_not_mem hj hnewC).symm
    rw [Shape.root?_node, ← h.swapChild_eq rfl hp hn]
    exact Store.node_substituted_parent hn hold hnew (hroot l j fun hjl => hlC hjl hj)
      (hroot r j fun hjr => hrC hjr hj) hp
  · intro j hjold hout
    simp only [Context.mem_fill, Shape.inorder, List.mem_append, List.mem_cons, not_or] at hout
    exact Store.node_substituted_of_ne (Ne.symm hjold) (Ne.symm hout.1.2.1) (hroot l j hout.1.1)
      (hroot r j hout.1.2.2) (hparent j hout.2)

/-- The shape keeps its colours. -/
theorem Context.redBlack_relabel {total : Nat} {C : Context} {c : Color} {l r : Shape}
    {old new : RecordId} (h : (C.fill (.node c l old r)).RedBlack total) :
    (C.fill (.node c l new r)).RedBlack total := by
  rw [← Shape.join_left] at h ⊢
  obtain ⟨k, hb, hfits, hc⟩ := redBlack_fill.mp h
  refine redBlack_fill.mpr ⟨k, ?_, hfits, ?_⟩
  · cases c with
    | red => exact Shape.balanced_join_red.mpr (Shape.balanced_join_red.mp hb)
    | black =>
      obtain ⟨k, rfl⟩ := Shape.pos_of_balanced_black hb
      exact Shape.balanced_join_black.mpr (Shape.balanced_join_black.mp hb)
  · rwa [Shape.color_join] at hc ⊢

omit [LawfulLinked ρ] in
/-- A substitution of a node of the tree returns, and what it leaves is known. -/
theorem Tree.HasShape.returns_substitute_iff {shape : Shape} {n : Node} (h : t.HasShape s shape)
    (hold : old ∈ shape.inorder) (hn : s.node old = .ok n) (hlt : new < s.size)
    {Q : Tree → Store ρ → σ → Prop} :
    (t.substitute old new).Returns s x Q ↔
      Q (t.withChild (some new) n.parent) (s.substituted old new n) x := by
  obtain ⟨C, c, l, r, rfl⟩ := Shape.exists_context hold
  obtain ⟨hnode, -, -⟩ := spells_node.mp (represents_fill.mp h.represents).2
  rw [hn] at hnode
  cases hnode
  -- All three neighbours are nodes of the tree.
  have hmem : ∀ j, C.parent = some j ∨ l.root? = some j ∨ r.root? = some j → j < s.size := by
    intro j hj
    refine h.lt_size (Context.mem_fill.mpr ?_)
    rcases hj with hj | hj | hj
    · exact .inr (Context.mem_ids_of_parent hj)
    · exact .inl (by simp [Shape.inorder, Shape.mem_of_root? hj])
    · exact .inl (by simp [Shape.inorder, Shape.mem_of_root? hj])
  simp only [substitute, Update.returns_bind, Update.returns_node, Update.returns_modifyNode,
    Update.returns_setParent, returns_changeChild, Update.returns_pure, Store.size_modifyNode,
    Store.size_setParent, Store.size_changeChild]
  constructor
  · rintro ⟨m, hm, -, -, -, -, -, hQ⟩
    rw [hn] at hm
    cases hm
    exact hQ
  · intro hQ
    exact ⟨_, hn, hlt, fun j hj => hmem j (.inr (.inl hj)), fun j hj => hmem j (.inr (.inr hj)),
      fun j hj => hmem j (.inl hj), Store.lt_of_node hn, hQ⟩

/-- The old node is wiped. -/
theorem Store.node_substituted_old (n : Node) (hlt : old < s.size) :
    (s.substituted old new n).node old = .ok .removed :=
  Store.node_overwrite (by simpa using hlt) .removed

/-- The new node stands where the old one stood, and the old one is wiped. -/
theorem Tree.returns_substitute (h : t.Keeps s (C.fill (.node c l old r)))
    (hnew : new ∉ (C.fill (.node c l old r)).inorder) (hlt : new < s.size) :
    (t.substitute old new).Returns s x fun t' s' x' =>
      Settled s (C.fill (.node c l old r)).inorder
        (C.before ++ l.inorder ++ new :: r.inorder ++ C.after) t' s' (C.fill (.node c l new r)) ∧
      s'.payload = s.payload ∧ x' = x := by
  obtain ⟨hn, -, -⟩ := spells_node.mp (represents_fill.mp h.represents).2
  obtain ⟨hshape, hframe⟩ := h.toHasShape.substituted hn hnew hlt
  obtain ⟨total, hredBlack⟩ := h.redBlack
  have hinorder : (C.fill (.node c l new r)).inorder =
      C.before ++ l.inorder ++ new :: r.inorder ++ C.after := by
    simp [Context.inorder_fill, Shape.inorder]
  rw [h.toHasShape.returns_substitute_iff (by simp [Shape.inorder]) hn hlt]
  refine ⟨?_, Store.payload_substituted .., rfl⟩
  refine ⟨⟨hshape, total, Context.redBlack_relabel hredBlack⟩, hinorder,
    Store.size_substituted .., ?_, ?_⟩
  · -- Only `old` left the list.
    intro j hj hout
    obtain rfl : old = j := by
      rw [Context.inorder_fill, Shape.inorder] at hj
      simp only [List.mem_append, List.mem_cons] at hj hout
      tauto
    exact Store.node_substituted_old _ (Store.lt_of_node hn)
  · intro j hj hout
    refine hframe j ?_ (hinorder ▸ hout)
    rintro rfl
    exact hj (by simp [Shape.inorder])

/-! ### Behind the guards -/

variable [Listener σ]

omit [LawfulLinked ρ] in
/-- Where the guards let it pass, a replacement is a substitution. -/
theorem Tree.returns_replace_iff {n m : Node} (hold : s.node old = .ok n)
    (hlinked : n.state = .linked) (hnew : s.node new = .ok m) (hstate : m.state ≠ .linked)
    {Q : Tree → Store ρ → σ → Prop} {R : Rejection → Store ρ → σ → Prop} :
    (t.replace old new).Returns s x Q R ↔ (t.substitute old new).Returns s x Q := by
  simp only [replace, checkDelete, checkLink, Guarded.returns_bind, Guarded.returns_update,
    Update.returns_node, hold, hnew, Except.ok.injEq, exists_eq_left', hlinked,
    Guarded.returns_pure, reduceCtorEq, if_false]
  cases hcase : m.state with
  | linked => exact absurd hcase hstate
  | detached => simp only [Guarded.returns_pure]
  | removed => simp only [Guarded.returns_pure]

/-- A node that is not linked can be put in the place of a node of the tree. -/
theorem Tree.returns_replace {shape : Shape} {l r : List RecordId} {n : Node} (h : t.Keeps s shape)
    (hlist : shape.inorder = l ++ old :: r) (hn : s.node new = .ok n) (hstate : n.state ≠ .linked) :
    (t.replace old new).Returns s x
      (fun t' s' x' => ∃ shape', Settled s shape.inorder (l ++ new :: r) t' s' shape' ∧
        s'.payload = s.payload ∧ x' = x)
      (fun _ _ _ => False) := by
  obtain ⟨m, hm, hlinked⟩ := h.spells.exists_linked (j := old) (by simp [hlist])
  have hnew : new ∉ shape.inorder := fun hin => hstate (h.state_eq hin hn)
  obtain ⟨C, c, a, b, rfl, rfl, rfl⟩ := h.exists_split hlist
  rw [returns_replace_iff hm hlinked hn hstate]
  have hdone := returns_substitute (x := x) h hnew (Store.lt_of_node hn)
  simp only [List.append_assoc, List.cons_append] at hdone ⊢
  exact hdone.mono fun t' s' x' hd => ⟨_, hd⟩

omit [LawfulLinked ρ] in
/-- A node that is not linked has no place to give, and one that is linked can take none. -/
theorem Tree.rejects_replace {n m : Node} (hold : s.node old = .ok n) (hnew : s.node new = .ok m)
    (hstate : n.state ≠ .linked ∨ m.state = .linked) :
    (t.replace old new).Returns s x (fun _ _ _ => False)
      (fun r s' x' => s' = s ∧ x' = Listener.hear r x) := by
  simp only [replace, checkDelete, Guarded.returns_bind, Guarded.returns_update,
    Update.returns_node]
  refine ⟨n, hold, ?_⟩
  cases hcase : n.state with
  | removed => simp
  | detached => simp
  | linked =>
    have hlinked : m.state = .linked := hstate.resolve_left fun hne => hne hcase
    simp only [checkLink, reduceCtorEq, if_false, Guarded.returns_pure, Guarded.returns_bind,
      Guarded.returns_update, Update.returns_node]
    refine ⟨n, hold, m, hnew, ?_⟩
    simp [hlinked]

end RecordTree
