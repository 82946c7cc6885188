import RecordTree.Proofs.Augmentation
import RecordTree.Proofs.Tree.MendBlack

/-!
# `RecordTree.Proofs.Tree.Splice`: taking a node out of its links

What a splice leaves behind is said by `Spliced`: a tree without the node, its position of the
gap, and what the colour that left there means for the blacks around it (`Context.Lacks`).

A node with one child at most gives its place to that child (`Tree.returns_spliceChild`). One
with two children gives it to its successor, the left-most node on its right. The successor
is either the right child itself or some way down, and is brought to the same state in both
cases: the right subtree, without the successor, hangs under it. From there on the two cases
are one (`Store.seated`).

* `Tree.returns_splice`: every splice ends in `Spliced`.
-/

set_option autoImplicit false

namespace RecordTree

namespace Context

/-- What it means for a position that a node of this colour left the tree there: nothing for
a red one, and a shortage of one black for a black one. -/
def Lacks (C : Context) (u : Shape) : Color → Prop
  | .red => ∃ total, (C.fill u).RedBlack total
  | .black => ∃ total h, u.Mendable h ∧ C.Fits total (h + 1)

/-- A node with one child at most is left out. -/
theorem lacks_of_redBlack {C : Context} {side : Side} {c : Color} {a : Shape} {id : RecordId}
    {total : Nat} (h : (C.fill (.join side c a id .leaf)).RedBlack total) : C.Lacks a c := by
  obtain ⟨k, hb, hfits, -⟩ := redBlack_fill.mp h
  cases c with
  | red =>
    obtain ⟨ha, -, hac, -⟩ := Shape.balanced_join_red.mp hb
    exact ⟨total, redBlack_fill.mpr ⟨k, ha, hfits, .inl hac⟩⟩
  | black =>
    obtain ⟨k, rfl⟩ := Shape.pos_of_balanced_black hb
    exact ⟨total, k, (Shape.balanced_join_black.mp hb).1.mendable, hfits⟩

/-- What a position lacks does not depend on which record stands above it. -/
theorem Lacks.relabel {inner outer : Context} {side : Side} {c d : Color} {id id' : RecordId}
    {sibling u : Shape} (h : (inner.inside (.under side c id sibling outer)).Lacks u d) :
    (inner.inside (.under side c id' sibling outer)).Lacks u d := by
  have hcolor : (inner.inside (.under side c id sibling outer)).color =
      (inner.inside (.under side c id' sibling outer)).color := by
    cases inner <;> rfl
  cases d with
  | red =>
    obtain ⟨total, hrb⟩ := h
    obtain ⟨k, hu, hfits, hc⟩ := redBlack_fill.mp hrb
    exact ⟨total, redBlack_fill.mpr ⟨k, hu, hfits.relabel, hcolor ▸ hc⟩⟩
  | black =>
    obtain ⟨total, k, hu, hfits⟩ := h
    exact ⟨total, k, hu, hfits.relabel⟩

end Context

variable {ρ σ : Type} [Linked ρ]

/-- `id` was taken out of the tree in `s`, which now has the nodes `new`. The gap is the position
of `u` in `C`, and one more call makes the summaries right. -/
structure Spliced (aug : Augmentation ρ σ) (Now : Payloads ρ → σ → Shape → Prop) (s : Store ρ)
    (id : RecordId) (new : List RecordId) (t : Tree) (gap : Gap) (s' : Store ρ) (x : σ)
    (C : Context) (u : Shape) : Prop where
  hasShape : t.HasShape s' (C.fill u)
  inorder : (C.fill u).inorder = new
  child : gap.child = u.root?
  parent : gap.parent = C.parent
  lacks : C.Lacks u gap.lost
  size : s'.size = s.size
  frame : ∀ j, j ≠ id → j ∉ new → s'.node j = s.node j
  propagate : (aug.propagate gap.stale none).Returns s' x fun _ s'' x' =>
    s''.node = s'.node ∧ Now s''.payload x' (C.fill u)

variable [LawfulLinked ρ] {aug : Augmentation ρ σ} {Was Now : Payloads ρ → σ → Shape → Prop}
  {s : Store ρ} {x : σ} {t : Tree} {C : Context} {id : RecordId}

/-! ### At most one child -/

/-- The tree in a position gives its place to one that stood below it. -/
theorem Tree.HasShape.lifted {side : Side} {c : Color} {a : Shape}
    (h : t.HasShape s (C.fill (.join side c a id .leaf))) :
    (t.withChild a.root? C.parent).HasShape
      ((s.changeChild id a.root? C.parent).setParent a.root? C.parent) (C.fill a) := by
  obtain ⟨hjoin, hctx, hdisj⟩ := Context.nodup_fill.mp h.nodup
  have ha : a.inorder.Nodup := (Shape.nodup_join.mp hjoin).2.2.1
  have hactx : a.inorder.Disjoint C.ids := fun j hj => hdisj (by simp [hj])
  have hspells := (spells_join.mp (represents_fill.mp h.represents).2).2.1
  have hother : ∀ j, a.root? ≠ some j → C.parent ≠ some j →
      ((s.changeChild id a.root? C.parent).setParent a.root? C.parent).node j = s.node j := by
    intro j hroot hparent
    rw [Store.node_setParent, if_neg hroot, Store.node_changeChild, if_neg hparent]
  have hparent_ne : ∀ j ∈ a.inorder, C.parent ≠ some j := fun j hj hp =>
    hactx hj (Context.mem_ids_of_parent hp)
  have hroot_ne : ∀ j ∈ C.ids, a.root? ≠ some j := fun j hj hr =>
    hactx (Shape.mem_of_root? hr) hj
  -- Only the child and the parent change, the one in its parent and the other in its child.
  refine h.refill ?_ ?_ ?_ ?_
  · exact Context.nodup_fill.mpr ⟨ha, hctx, hactx⟩
  · refine hspells.move ha (fun j hj hr => hother j hr (hparent_ne j hj)) ?_
    intro j n hr hn
    rw [Store.node_setParent, if_pos hr, Store.node_changeChild,
      if_neg (hparent_ne j (Shape.mem_of_root? hr)), hn]
    rfl
  · exact fun j hj hp => hother j (hroot_ne j hj) hp
  · intro j n hp hn
    rw [Store.node_setParent, if_neg (hroot_ne j (Context.mem_ids_of_parent hp)),
      Store.node_changeChild, if_pos hp, hn, ← h.swapChild_eq (Shape.root?_join ..) hp hn]
    rfl

/-- A node with one child at most gives its place to the child. -/
theorem Tree.returns_spliceChild (shrinks : aug.Shrinks id Was Now) {side : Side} {c : Color}
    {a : Shape} {n : Node} (h : t.Keeps s (C.fill (.join side c a id .leaf)))
    (hn : s.node id = .ok n) (hwas : Was s.payload x (C.fill (.join side c a id .leaf))) :
    (t.spliceChild id n).Returns s x fun (t', gap) s' x' =>
      Spliced aug Now s id (C.before ++ a.inorder ++ C.after) t' gap s' x' C a := by
  have hnode := h.node_top
  rw [hn] at hnode
  cases hnode
  -- The child that is there takes the place, whichever side it is on.
  have hchild : (Node.placed C.parent side a.root? Shape.leaf.root? c).left.or
      (Node.placed C.parent side a.root? Shape.leaf.root? c).right = a.root? := by
    cases side <;> simp [Node.placed, Node.setChild, Shape.root?]
  have hlifted := h.toHasShape.lifted
  have hpropagate := shrinks.child (x := x) hlifted (by simpa using hwas)
  obtain ⟨total, hrb⟩ := h.redBlack
  simp only [spliceChild, hchild, Node.parent_placed, Node.color_placed, Update.returns_bind,
    returns_changeChild, Update.returns_setParent, Store.size_changeChild, Update.returns_pure]
  refine ⟨fun j hj => h.lt_size ?_, fun j hj => h.lt_size ?_, ?_⟩
  · simp [Context.mem_ids_of_parent hj]
  · simp [Shape.mem_of_root? hj]
  refine ⟨hlifted, Context.inorder_fill .., rfl, rfl, Context.lacks_of_redBlack hrb,
    by simp, fun j hj hnew => ?_, hpropagate⟩
  rw [← Context.inorder_fill, Context.mem_fill, not_or] at hnew
  rw [Store.node_setParent, if_neg fun hr => hnew.1 (Shape.mem_of_root? hr),
    Store.node_changeChild, if_neg fun hp => hnew.2 (Context.mem_ids_of_parent hp)]

/-! ### The successor -/

omit [LawfulLinked ρ] in
/-- The search for the successor ends at the left-most node, and knows the node above it. -/
theorem Tree.successorFrom_eq {steps : Nat} {p : Option RecordId} {u : Shape} {top : RecordId}
    (above : RecordId) (h : Spells s p u) (hroot : u.root? = some top) (hsteps : u.size ≤ steps) :
    ∃ (spine : Context) (d : Color) (succ : RecordId) (r : Shape),
      u = spine.fill (.node d .leaf succ r) ∧ spine.before = [] ∧
        successorFrom s steps top above = .ok (succ, spine.parent.getD above) := by
  -- Along the left links. `above` is what the search remembers of the node before.
  induction u generalizing steps p top above with
  | leaf => cases hroot
  | node c l id r ihl _ =>
    cases hroot
    obtain ⟨hid, hl, -⟩ := spells_node.mp h
    obtain ⟨steps, rfl⟩ : ∃ k, steps = k + 1 := Nat.exists_eq_add_one.mpr (by
      simp only [Shape.size] at hsteps
      omega)
    cases hleft : l.root? with
    | none =>
      obtain rfl : l = .leaf := Shape.eq_leaf_of_root? hleft
      refine ⟨.top, c, id, r, rfl, rfl, ?_⟩
      simp [successorFrom, hid, Node.placed, Node.setChild, Context.parent]
    | some left =>
      have hsize : l.size ≤ steps := by
        simp only [Shape.size] at hsteps
        omega
      obtain ⟨spine, d, succ, u, hl', hbefore, hrun⟩ := ihl id hl hleft hsize
      refine ⟨spine.inside (.under .left c id r .top), d, succ, u, ?_, ?_, ?_⟩
      · rw [Context.fill_inside, ← hl']
        rfl
      · rw [Context.before_inside, hbefore]
        rfl
      · rw [successorFrom, hid]
        simp only [Node.placed, Node.setChild, hleft]
        show successorFrom s steps left id = _
        rw [hrun, Context.parent_inside]
        cases spine.parent <;> rfl

/-- The store after `succ`, with the right subtree already below it, took over the left subtree,
the parent and the colour of `id`. -/
def Store.seated (s : Store ρ) (id succ : RecordId) (left parent : Option RecordId)
    (color : Color) : Store ρ :=
  (((s.modifyNode succ (·.setChild .left left)).setParent left (some succ)).changeChild id
    (some succ) parent).modifyNode succ fun m => { m with parent, color }

omit [LawfulLinked ρ] in
/-- Taking over from a node adds no record. -/
@[simp] theorem Store.size_seated (s : Store ρ) (id succ : RecordId)
    (left parent : Option RecordId) (color : Color) :
    (s.seated id succ left parent color).size = s.size := by
  simp [seated]

/-- Taking over from a node changes nodes only. -/
@[simp] theorem Store.payload_seated (s : Store ρ) (id succ : RecordId)
    (left parent : Option RecordId) (color : Color) :
    (s.seated id succ left parent color).payload = s.payload := by
  simp [seated]

section Seated

variable {succ j : RecordId} {left parent : Option RecordId} {c : Color} {n : Node}

/-- The successor has the left child, the parent and the colour that were taken over. -/
theorem Store.node_seated_succ (hn : s.node succ = .ok n) (hleft : left ≠ some succ)
    (hparent : parent ≠ some succ) : (s.seated id succ left parent c).node succ =
      .ok { n.setChild .left left with parent, color := c } := by
  simp [seated, node_modifyNode, node_setParent, node_changeChild, hn, hleft, hparent]

/-- The left child is under the successor. -/
theorem Store.node_seated_left (hn : s.node j = .ok n) (hsucc : succ ≠ j) (hleft : left = some j)
    (hparent : parent ≠ some j) :
    (s.seated id succ left parent c).node j = .ok (n.withParent (some succ)) := by
  simp [seated, node_modifyNode, node_setParent, node_changeChild, hn, hsucc, hleft, hparent]

/-- The parent has the successor in the place of the node that left. -/
theorem Store.node_seated_parent (hn : s.node j = .ok n) (hsucc : succ ≠ j)
    (hleft : left ≠ some j) (hparent : parent = some j) :
    (s.seated id succ left parent c).node j = .ok (n.swapChild id (some succ)) := by
  simp [seated, node_modifyNode, node_setParent, node_changeChild, hn, hsucc, hleft, hparent]

/-- No other record changes. -/
theorem Store.node_seated_of_ne (hsucc : succ ≠ j) (hleft : left ≠ some j)
    (hparent : parent ≠ some j) : (s.seated id succ left parent c).node j = s.node j := by
  simp [seated, node_modifyNode, node_setParent, node_changeChild, hsucc, hleft, hparent]

end Seated

/-- With the right subtree below it, the successor takes the place of `id`. -/
theorem Tree.HasShape.seated {s₁ : Store ρ} {c : Color} {l r r' : Shape} {succ : RecordId}
    {m : Node} (h : t.HasShape s (C.fill (.node c l id r)))
    (hnodup : (C.fill (.node c l succ r')).inorder.Nodup)
    (hs : ∀ j, j ∈ l.inorder ∨ j ∈ C.ids → s₁.node j = s.node j)
    (hr : Spells s₁ (some succ) r') (hsucc : s₁.node succ = .ok m) (hright : m.right = r'.root?)
    (hstate : m.state = .linked) :
    Tree.HasShape (t.withChild (some succ) C.parent)
        (s₁.seated id succ l.root? C.parent c) (C.fill (.node c l succ r')) ∧
      ∀ j, j ∉ (C.fill (.node c l succ r')).inorder →
        (s₁.seated id succ l.root? C.parent c).node j = s₁.node j := by
  obtain ⟨hjoin, -, hdisj⟩ := Context.nodup_fill.mp hnodup
  rw [← Shape.join_left] at hjoin hdisj
  obtain ⟨hsuccl, hsuccr, hl, -, hlr⟩ := Shape.nodup_join.mp hjoin
  have hspells := (spells_node.mp (represents_fill.mp h.represents).2).2.1
  -- The records that change are different ones.
  have hsuccC : succ ∉ C.ids := hdisj (by simp)
  have hlC : l.inorder.Disjoint C.ids := fun j hj => hdisj (by simp [hj])
  have hrC : r'.inorder.Disjoint C.ids := fun j hj => hdisj (by simp [hj])
  have hroot : ∀ j, j ∉ l.inorder → l.root? ≠ some j := fun j hj hq =>
    hj (Shape.mem_of_root? hq)
  have hparent : ∀ j, j ∉ C.ids → C.parent ≠ some j := fun j hj hp =>
    hj (Context.mem_ids_of_parent hp)
  refine ⟨h.refill hnodup (spells_node.mpr ⟨?_, hspells.move hl ?_ ?_, ?_⟩) ?_ ?_, ?_⟩
  · rw [Store.node_seated_succ hsucc (hroot succ hsuccl) (hparent succ hsuccC)]
    simp [Node.placed, Node.setChild, hright, hstate]
  · intro j hj hq
    rw [Store.node_seated_of_ne (ne_of_mem_of_not_mem hj hsuccl).symm hq (hparent j (hlC hj)),
      hs j (.inl hj)]
  · intro j n hq hn
    have hj := Shape.mem_of_root? hq
    rw [← hs j (.inl hj)] at hn
    exact Store.node_seated_left hn (ne_of_mem_of_not_mem hj hsuccl).symm hq (hparent j (hlC hj))
  · refine hr.congr ?_
    intro j hj
    exact Store.node_seated_of_ne (ne_of_mem_of_not_mem hj hsuccr).symm
      (hroot j fun hjl => hlr hjl hj) (hparent j (hrC hj))
  · intro j hj hp
    rw [Store.node_seated_of_ne (ne_of_mem_of_not_mem hj hsuccC).symm
      (hroot j fun hjl => hlC hjl hj) hp, hs j (.inr hj)]
  · intro j n hp hn
    have hj := Context.mem_ids_of_parent hp
    rw [Shape.root?_node, ← h.swapChild_eq rfl hp hn]
    rw [← hs j (.inr hj)] at hn
    exact Store.node_seated_parent hn (ne_of_mem_of_not_mem hj hsuccC).symm
      (hroot j fun hjl => hlC hjl hj) hp
  · intro j hj
    rw [← Shape.join_left] at hj
    simp only [Context.mem_fill, Shape.mem_join, not_or] at hj
    exact Store.node_seated_of_ne (Ne.symm hj.1.1) (hroot j hj.1.2.1) (hparent j hj.2)

/-! ### A successor further down -/

omit [LawfulLinked ρ] in
/-- A position in the right subtree of a node is a position in the whole tree. -/
theorem Context.fill_right (spine C : Context) (c : Color) (l u : Shape) (id : RecordId) :
    C.fill (.node c l id (spine.fill u)) =
      (spine.inside (.under .right c id l C)).fill u := by
  rw [Context.fill_inside]
  rfl

/-- The store after `succ` left its place under `above` to its `child`, and took `right` below
it. -/
def Store.unhooked (s : Store ρ) (above succ : RecordId) (child : Option RecordId)
    (right : RecordId) : Store ρ :=
  (((s.modifyNode above (·.setChild .left child)).setParent child (some above)).modifyNode succ
    (·.setChild .right (some right))).setParent (some right) (some succ)

/-- Apart from the successor and the right child, unhooking changes the node above the successor,
and the child that is left there. -/
theorem Store.node_unhooked_of_ne {s : Store ρ} {above succ right j : RecordId}
    {child : Option RecordId} (hsucc : succ ≠ j) (hright : right ≠ j) :
    (s.unhooked above succ child right).node j =
      ((s.modifyNode above (·.setChild .left child)).setParent child (some above)).node j := by
  rw [unhooked, node_setParent, if_neg (by simpa using hright), node_modifyNode, if_neg hsucc]

/-- A way down that passes by no node on its left ends at a left child. -/
theorem Context.side_inside_of_before {spine : Context} (outer : Context) {above : RecordId}
    (hparent : spine.parent = some above) (hbefore : spine.before = []) :
    (spine.inside outer).side = .left := by
  cases spine with
  | top => cases hparent
  | under side c p sib up =>
    cases side with
    | left => rfl
    | right => simp [Context.before] at hbefore

/-- A left child leaves its place like any node with one child at most. -/
theorem Tree.HasShape.node_leave {d : Color} {r : Shape} {succ above : RecordId}
    (h : t.HasShape s (C.fill (.join .right d r succ .leaf))) (hparent : C.parent = some above)
    (hside : C.side = .left) (j : RecordId) :
    ((s.modifyNode above (·.setChild .left r.root?)).setParent r.root? (some above)).node j =
      ((s.changeChild succ r.root? (some above)).setParent r.root? (some above)).node j := by
  have habove : above ∈ C.ids := Context.mem_ids_of_parent hparent
  obtain ⟨p, hp⟩ := Store.exists_node_of_lt (h.lt_size (Context.mem_fill.mpr (.inr habove)))
  have hmove : (s.modifyNode above (·.setChild .left r.root?)).node j =
      (s.changeChild succ r.root? (some above)).node j := by
    rw [Store.node_modifyNode, Store.node_changeChild]
    by_cases hj : above = j
    · subst hj
      rw [if_pos rfl, if_pos rfl, hp, except_functor_map_ok, except_functor_map_ok,
        h.swapChild_eq (Shape.root?_join ..) hparent hp, hside]
    · rw [if_neg hj, if_neg (by simpa using hj)]
  rw [Store.node_setParent, Store.node_setParent, hmove]

/-- The right subtree hangs under the successor, which is not in it any more. -/
theorem Tree.HasShape.unhooked {spine : Context} {c d : Color} {l r : Shape}
    {succ above right : RecordId}
    (h : t.HasShape s (C.fill (.node c l id (spine.fill (.node d .leaf succ r)))))
    (habove : spine.parent = some above) (hbefore : spine.before = [])
    (hright : (spine.fill r).root? = some right) :
    Spells (s.unhooked above succ r.root? right) (some succ) (spine.fill r) ∧
      (∃ m, (s.unhooked above succ r.root? right).node succ = .ok m ∧ m.right = some right ∧
        m.state = .linked) ∧
      ∀ j, j ≠ succ → j ∉ (spine.fill r).inorder →
        (s.unhooked above succ r.root? right).node j = s.node j := by
  rw [Context.fill_right, ← Shape.join_left, ← Side.flip_right, Shape.join_flip] at h
  have hparent : (spine.inside (.under .right c id l C)).parent = some above := by
    rw [Context.parent_inside, habove]
    rfl
  have hside := Context.side_inside_of_before (.under .right c id l C) habove hbefore
  -- The tree without the successor, of which the right subtree is a part.
  have hlifted := h.lifted
  rw [hparent, ← Context.fill_right] at hlifted
  have hpart : Spells _ (some id) (spine.fill r) :=
    (spells_node.mp (represents_fill.mp hlifted.represents).2).2.2
  have hnodup : (spine.fill r).inorder.Nodup := by
    have hnode := (Context.nodup_fill.mp hlifted.nodup).1
    rw [← Shape.join_left] at hnode
    exact (Shape.nodup_join.mp hnode).2.2.2.1
  obtain ⟨hjoin, -, hdisj⟩ := Context.nodup_fill.mp h.nodup
  have hsuccr : succ ∉ r.inorder := (Shape.nodup_join.mp hjoin).1
  have hsuccC : succ ∉ (spine.inside (.under .right c id l C)).ids := hdisj (by simp)
  have hsucc_out : succ ∉ (spine.fill r).inorder := by
    rw [Context.mem_fill]
    rintro (hin | hin)
    · exact hsuccr hin
    · refine hsuccC ?_
      rw [Context.mem_ids, Context.before_inside, Context.after_inside, List.mem_append,
        List.mem_append]
      exact (Context.mem_ids.mp hin).imp .inr .inl
  have hsucc_ne : ∀ j ∈ (spine.fill r).inorder, succ ≠ j := by
    rintro j hj rfl
    exact hsucc_out hj
  have hright_succ : right ≠ succ := (hsucc_ne right (Shape.mem_of_root? hright)).symm
  refine ⟨hpart.move hnodup ?_ ?_, ?_, ?_⟩
  · show ∀ j ∈ (spine.fill r).inorder, (spine.fill r).root? ≠ some j → _
    intro j hj hroot
    have hrightj : right ≠ j := by
      rintro rfl
      exact hroot hright
    rw [Store.node_unhooked_of_ne (hsucc_ne j hj) hrightj, h.node_leave hparent hside]
  · -- The top of the right subtree may be `above` itself, so it is told its parent last.
    intro j n hroot hn
    obtain rfl : right = j := Option.some.inj (hright.symm.trans hroot)
    rw [Store.unhooked, Store.node_setParent, if_pos rfl, Store.node_modifyNode,
      if_neg hright_succ.symm, h.node_leave hparent hside, hn]
    rfl
  · -- `succ` keeps its left link, which is empty, and gets the right subtree.
    have hnode := h.node_top
    have habove_succ : above ≠ succ := by
      rintro rfl
      exact hsuccC (Context.mem_ids_of_parent hparent)
    have hchild_succ : r.root? ≠ some succ := fun hq => hsuccr (Shape.mem_of_root? hq)
    refine ⟨.placed (some above) .right (some right) none d, ?_, rfl, rfl⟩
    rw [Store.unhooked, Store.node_setParent, if_neg (by simpa using hright_succ),
      Store.node_modifyNode, if_pos rfl, Store.node_setParent, if_neg hchild_succ,
      Store.node_modifyNode, if_neg habove_succ, hnode, hparent, except_functor_map_ok,
      Node.setChild_placed, Shape.root?_leaf]
  · intro j hj hout
    rw [Context.mem_fill, not_or] at hout
    have hrightj : right ≠ j := by
      rintro rfl
      exact (not_or.mpr hout) (Context.mem_fill.mp (Shape.mem_of_root? hright))
    have habovej : above ≠ j := by
      rintro rfl
      exact hout.2 (Context.mem_ids_of_parent habove)
    rw [Store.node_unhooked_of_ne hj.symm hrightj, Store.node_setParent,
      if_neg fun hq => hout.1 (Shape.mem_of_root? hq), Store.node_modifyNode, if_neg habovej]

/-! ### Both successors -/

/-- The successor of `id` is ready to take over: the right subtree `r` hangs under it, the rest of
the tree is as it was, and one more call makes the summaries right once it has. -/
structure Ready (aug : Augmentation ρ σ) (Now : Payloads ρ → σ → Shape → Prop) (s : Store ρ)
    (C : Context) (c : Color) (l r : Shape) (succ : RecordId) (s₁ : Store ρ) (x₁ : σ) : Prop where
  right : Spells s₁ (some succ) r
  top : ∃ m, s₁.node succ = .ok m ∧ m.right = r.root? ∧ m.state = .linked
  size : s₁.size = s.size
  frame : ∀ j, j ≠ succ → j ∉ r.inorder → s₁.node j = s.node j
  propagate (t₂ : Tree) (s₂ : Store ρ) : s₂.payload = s₁.payload →
    t₂.HasShape s₂ (C.fill (.node c l succ r)) →
    (aug.propagate (some succ) none).Returns s₂ x₁ fun _ s₃ x₃ =>
      s₃.node = s₂.node ∧ Now s₃.payload x₃ (C.fill (.node c l succ r))

/-- The part of a splice that makes the successor ready. -/
def Tree.prepare (aug : Augmentation ρ σ) (id right succ above : RecordId)
    (child : Option RecordId) : Update ρ σ RecordId :=
  if succ = right then do
    aug.copy id succ
    pure succ
  else do
    Update.modifyNode above (·.setChild .left child)
    Update.setParent child (some above)
    Update.modifyNode succ (·.setChild .right (some right))
    Update.setParent (some right) (some succ)
    aug.copy id succ
    aug.propagate (some above) (some succ)
    pure above

omit [LawfulLinked ρ] in
/-- A splice with two children makes the successor ready, and then lets it take over the left child,
the parent and the colour. -/
theorem Tree.spliceSuccessor_eq (t : Tree) (id left right : RecordId) (n : Node) :
    t.spliceSuccessor aug id n left right = (do
      let (succ, above) ← Update.read fun s => successorFrom s s.walkLimit right id
      let moved ← Update.node succ
      let parent ← prepare aug id right succ above moved.right
      Update.modifyNode succ (·.setChild .left (some left))
      Update.setParent (some left) (some succ)
      let t ← t.changeChild id (some succ) n.parent
      Update.modifyNode succ fun m => { m with parent := n.parent, color := n.color }
      pure (t, ⟨moved.right, some parent, moved.color, some succ⟩)) := by
  unfold spliceSuccessor prepare
  congr 1
  funext place
  funext moved
  by_cases h : place.1 = right
  · simp only [h, if_true, bind_assoc, pure_bind]
  · simp only [h, if_false, bind_assoc, pure_bind]

/-- Making the successor ready returns. What it leaves is one step from the tree without `id`. -/
theorem Tree.returns_prepare (shrinks : aug.Shrinks id Was Now) {spine : Context} {c d : Color}
    {l r : Shape} {succ right : RecordId} (hl : l ≠ .leaf)
    (h : t.HasShape s (C.fill (.node c l id (spine.fill (.node d .leaf succ r)))))
    (hnodup : (C.fill (.node c l succ (spine.fill r))).inorder.Nodup)
    (hbefore : spine.before = []) (hright : (spine.fill (.node d .leaf succ r)).root? = some right)
    (hwas : Was s.payload x (C.fill (.node c l id (spine.fill (.node d .leaf succ r))))) :
    (prepare aug id right succ (spine.parent.getD id) r.root?).Returns s x fun parent s₁ x₁ =>
      parent = spine.parent.getD succ ∧ Ready aug Now s C c l (spine.fill r) succ s₁ x₁ := by
  have hid : id < s.size := h.lt_size (by simp [← Shape.join_left])
  have hsucc : succ < s.size := h.lt_size (by simp [← Shape.join_left])
  cases hspine : spine.parent with
  | none =>
    -- The successor is the right child.
    obtain rfl : spine = .top := by
      cases spine with
      | top => rfl
      | under => cases hspine
    simp only [Context.fill, Shape.root?_node, Option.some.injEq] at *
    subst hright
    have hsp := (spells_node.mp (represents_fill.mp h.represents).2).2.2
    obtain ⟨htop, -, hr⟩ := spells_node.mp hsp
    simp only [prepare, if_true, Update.returns_bind, Update.returns_pure]
    refine (shrinks.next hl h hwas).mono ?_
    rintro _ s₁ x₁ ⟨hnode, hnext⟩
    refine ⟨rfl, hr.congr fun j _ => congrFun hnode j, ?_, Store.size_eq_of_node hnode, fun j _ _ =>
      congrFun hnode j, hnext⟩
    exact ⟨_, (congrFun hnode succ).trans htop, rfl, Node.state_placed⟩
  | some above =>
    -- The search went down, so the right child is not the successor.
    have hroot : (spine.fill r).root? = some right := by
      cases spine with
      | top => cases hspine
      | under => rw [← hright]; exact Context.root?_fill_under ..
    obtain ⟨hsp, ⟨m, hm, hmright, hmstate⟩, hframe⟩ := h.unhooked hspine hbefore hroot
    have hne : succ ≠ right := by
      rintro rfl
      rw [← Shape.join_left] at hnodup
      exact (Shape.nodup_join.mp (Context.nodup_fill.mp hnodup).1).2.1 (Shape.mem_of_root? hroot)
    have habove : above < s.size := by
      refine h.lt_size ?_
      simp [← Shape.join_left, Context.mem_ids_of_parent hspine]
    have hchild : ∀ j, r.root? = some j → j < s.size := by
      intro j hj
      refine h.lt_size ?_
      simp [← Shape.join_left, Shape.mem_of_root? hj]
    have hright_lt : right < s.size := by
      refine h.lt_size ?_
      rw [Context.mem_fill, ← Shape.join_left, Shape.mem_join]
      exact .inl (.inr (.inr (Shape.mem_of_root? hright)))
    have hcopy := shrinks.deep (x := x) (d := d) hl hspine hbefore
      (s := s.unhooked above succ r.root? right) (by simpa [Store.unhooked] using hid)
      (by simpa [Store.unhooked] using hsucc) hnodup hsp (by simpa [Store.unhooked] using hwas)
    simp only [prepare, hne, if_false, Option.getD_some, Update.returns_bind,
      Update.returns_modifyNode, Update.returns_setParent, Update.returns_pure,
      Store.size_modifyNode, Store.size_setParent]
    refine ⟨habove, hchild, hsucc, by simpa using hright_lt, hcopy.mono ?_⟩
    rintro _ s₁ x₁ ⟨hnode₁, hrest⟩
    refine hrest.mono ?_
    rintro _ s₂ x₂ ⟨hnode₂, hnext⟩
    have hnode : s₂.node = (s.unhooked above succ r.root? right).node := hnode₂.trans hnode₁
    refine ⟨trivial, hsp.congr fun j _ => congrFun hnode j, ?_, ?_, ?_, hnext⟩
    · exact ⟨m, (congrFun hnode succ).trans hm, hmright.trans hroot.symm, hmstate⟩
    · rw [Store.size_eq_of_node hnode]
      simp [Store.unhooked]
    · exact fun j hj hout => (congrFun hnode j).trans (hframe j hj hout)

/-- A node with two children gives its place to its successor. -/
theorem Tree.returns_spliceSuccessor (shrinks : aug.Shrinks id Was Now) {c : Color} {l r : Shape}
    {left right : RecordId} {n : Node} (h : t.Keeps s (C.fill (.node c l id r)))
    (hn : s.node id = .ok n) (hleft : l.root? = some left) (hright : r.root? = some right)
    (hwas : Was s.payload x (C.fill (.node c l id r))) :
    (t.spliceSuccessor aug id n left right).Returns s x fun (t', gap) s' x' => ∃ C' u,
      Spliced aug Now s id (C.before ++ l.inorder ++ r.inorder ++ C.after) t' gap s' x' C' u := by
  obtain ⟨hnode, -, hr⟩ := spells_node.mp (represents_fill.mp h.represents).2
  rw [hn] at hnode
  cases hnode
  have hsteps : r.size ≤ s.walkLimit := by
    have hpart := h.toHasShape
    rw [← Shape.join_left] at hpart
    exact (Store.lt_walkLimit hpart.far.size_le_of_fill).le
  obtain ⟨spine, d, succ, r', rfl, hbefore, hrun⟩ := successorFrom_eq id hr hright hsteps
  have hsucc : s.node succ = .ok (.placed (spine.parent.or (some id)) .right r'.root? none d) := by
    have h' := h.toHasShape
    rw [Context.fill_right, ← Shape.join_left, ← Side.flip_right, Shape.join_flip] at h'
    rw [h'.node_top, Context.parent_inside]
    rfl
  have hinorder : (C.fill (.node c l succ (spine.fill r'))).inorder =
      C.before ++ l.inorder ++ (spine.fill (.node d .leaf succ r')).inorder ++ C.after := by
    simp [Context.inorder_fill, Shape.inorder, hbefore]
  have hnodup : (C.fill (.node c l succ (spine.fill r'))).inorder.Nodup := by
    refine h.nodup.sublist ?_
    rw [hinorder, Context.inorder_fill C, Shape.inorder]
    simp
  simp only [spliceSuccessor_eq, Update.returns_bind, Update.returns_read, Update.returns_node]
  refine ⟨_, hrun, _, hsucc, ?_⟩
  have hl : l ≠ .leaf := by
    rintro rfl
    cases hleft
  refine (returns_prepare shrinks hl h.toHasShape hnodup hbefore hright hwas).mono ?_
  rintro parent s₁ x₁ ⟨rfl, ready⟩
  obtain ⟨m, hm, hmright, hmstate⟩ := ready.top
  obtain ⟨hsuccl, hlr, hsuccC, hrC⟩ : succ ∉ l.inorder ∧
      l.inorder.Disjoint (spine.fill r').inorder ∧ succ ∉ C.ids ∧
      (spine.fill r').inorder.Disjoint C.ids := by
    obtain ⟨htop, -, hdisj⟩ := Context.nodup_fill.mp hnodup
    rw [← Shape.join_left] at htop hdisj
    obtain ⟨hsuccl, -, -, -, hlr⟩ := Shape.nodup_join.mp htop
    exact ⟨hsuccl, hlr, hdisj (by simp), fun j hj => hdisj (by simp [hj])⟩
  have hsame : ∀ j, j ∈ l.inorder ∨ j ∈ C.ids → s₁.node j = s.node j := by
    rintro j (hj | hj)
    · exact ready.frame j (fun heq => hsuccl (heq ▸ hj)) fun hin => hlr hj hin
    · exact ready.frame j (fun heq => hsuccC (heq ▸ hj)) fun hin => hrC hin hj
  -- Made ready in either way, the successor takes the place of `id`.
  obtain ⟨hseated, hframe⟩ := h.toHasShape.seated hnodup hsame ready.right hm hmright hmstate
  have hlt : ∀ j, j ∈ (C.fill (.node c l succ (spine.fill r'))).inorder → j < s₁.size := by
    intro j hj
    simpa using hseated.lt_size hj
  simp only [Update.returns_modifyNode, Update.returns_setParent, returns_changeChild,
    Update.returns_pure, Store.size_modifyNode, Store.size_setParent, Store.size_changeChild]
  refine ⟨Store.lt_of_node hm, fun j hj => hlt j ?_, fun j hj => hlt j ?_, Store.lt_of_node hm,
    spine.inside (.under .right c succ l C), r', ?_⟩
  · simp [Shape.inorder, Shape.mem_of_root? (hleft.trans hj)]
  · exact Context.mem_fill.mpr (.inr (Context.mem_ids_of_parent hj))
  rw [← hleft]
  refine ⟨?_, ?_, rfl, ?_, ?_, ?_, ?_, ?_⟩
  · show Tree.HasShape _ _ ((spine.inside (.under .right c succ l C)).fill r')
    rw [← Context.fill_right]
    exact hseated
  · show ((spine.inside (.under .right c succ l C)).fill r').inorder = _
    rw [← Context.fill_right, hinorder]
  · show _ = (spine.inside (.under .right c succ l C)).parent
    rw [Context.parent_inside]
    cases spine.parent <;> rfl
  · -- For the blacks it is the successor that left its place, whatever stands at the top.
    show (spine.inside (.under .right c succ l C)).Lacks r' _
    obtain ⟨total, hrb⟩ := h.redBlack
    rw [Context.fill_right, ← Shape.join_left, ← Side.flip_right, Shape.join_flip] at hrb
    exact (Context.lacks_of_redBlack hrb).relabel
  · exact (Store.size_seated ..).trans ready.size
  · intro j hj hnew
    rw [← hinorder] at hnew
    refine (hframe j hnew).trans (ready.frame j ?_ ?_)
    · rintro rfl
      exact hnew (by simp [Shape.inorder])
    · intro hin
      exact hnew (by simp [Shape.inorder, hin])
  · rw [← Context.fill_right]
    exact ready.propagate _ _ (Store.payload_seated ..) hseated

/-- Every splice leaves a tree without the node. -/
theorem Tree.returns_splice (shrinks : aug.Shrinks id Was Now) {c : Color} {l r : Shape}
    (h : t.Keeps s (C.fill (.node c l id r))) (hwas : Was s.payload x (C.fill (.node c l id r))) :
    (t.splice aug id).Returns s x fun (t', gap) s' x' => ∃ C' u,
      Spliced aug Now s id (C.before ++ l.inorder ++ r.inorder ++ C.after) t' gap s' x' C' u := by
  have hn := (spells_node.mp (represents_fill.mp h.represents).2).1
  simp only [splice, Update.returns_bind, Update.returns_node]
  refine ⟨_, hn, ?_⟩
  cases l with
  | leaf =>
    rw [← Shape.join_left, ← Side.flip_right, Shape.join_flip] at h hwas
    refine (returns_spliceChild shrinks h hn hwas).mono fun out s' x' hs => ⟨C, r, ?_⟩
    simpa [Shape.inorder] using hs
  | node cl ll left lr =>
    cases r with
    | leaf =>
      rw [← Shape.join_left] at h hwas
      refine (returns_spliceChild shrinks h hn hwas).mono fun out s' x' hs =>
        ⟨C, .node cl ll left lr, ?_⟩
      simpa [Shape.inorder] using hs
    | node cr rl right rr =>
      exact returns_spliceSuccessor shrinks h hn rfl rfl hwas

end RecordTree
