import Mathlib.Data.List.Nodup
import RecordTree.Shape

/-!
# `RecordTree.Proofs.Shape.Context`: positions in a tree, and what is around them

A `Context` is a tree with one position left open, told from that position upward: on which
side of its parent it lies, the parent, the subtree on the parent's other side, and so on to
the top. `Context.fill` puts a tree into the position. Repairs walk upward from a
position, so this is the order in which they see the tree.

`Shape.join` is a node with its subtrees named by a side, `near` and `far`, so that a
statement and its mirror image are one.

* `Context.inorder_fill`: the nodes before the position, the nodes in it, the nodes after it.
* `Context.redBlack_fill`: a tree is red-black exactly when what is in the position and what
  is around it (`Context.Fits`) agree on the number of blacks, and red does not meet red.
* `Shape.exists_context`: each node of a tree is at the top of some position.
-/

set_option autoImplicit false

namespace RecordTree

open List (Perm)

/-! ### Lists without repetitions -/

section Lists

variable {α : Type} {l r : List α} {a : α}

/-- In a list without repetitions, an element is none of the others. -/
theorem notMem_of_nodup_middle (h : (l ++ a :: r).Nodup) : a ∉ l ++ r :=
  (List.nodup_cons.mp (List.nodup_middle.mp h)).1

/-- A list without repetitions splits at an element in one way only. -/
theorem split_unique {l' r' : List α} (h : (l ++ a :: r).Nodup)
    (hlist : l ++ a :: r = l' ++ a :: r') : l = l' ∧ r = r' := by
  have hnot := notMem_of_nodup_middle h
  rw [List.mem_append, not_or] at hnot
  obtain ⟨hl, -, hr⟩ := (List.append_cons_inj_of_notMem hnot.1 hnot.2).mp hlist
  exact ⟨hl, hr⟩

end Lists

namespace Shape

/-! ### Nodes by side -/

/-- The tree with `id` at the top, `near` below it at `side`, and `far` on the other side. -/
def join (side : Side) (color : Color) (near : Shape) (id : RecordId) (far : Shape) : Shape :=
  match side with
  | .left => .node color near id far
  | .right => .node color far id near

/-- On the left, a join is a node with its parts in their order. -/
theorem join_left (c : Color) (a b : Shape) (id : RecordId) :
    join .left c a id b = .node c a id b := rfl

/-- From the other side, a join has its parts exchanged. -/
@[simp] theorem join_flip (side : Side) (c : Color) (a b : Shape) (id : RecordId) :
    join side.flip c a id b = join side c b id a := by
  cases side <;> rfl

/-- The colour of a join is the one at its top. -/
@[simp] theorem color_join (side : Side) (c : Color) (a b : Shape) (id : RecordId) :
    (join side c a id b).color = c := by
  cases side <;> rfl

/-- The root of a node is its id. -/
@[simp] theorem root?_node (c : Color) (l r : Shape) (id : RecordId) :
    (node c l id r).root? = some id := rfl

/-- An empty shape has no root. -/
@[simp] theorem root?_leaf : leaf.root? = none := rfl

/-- The root of a join is the id at its top. -/
@[simp] theorem root?_join (side : Side) (c : Color) (a b : Shape) (id : RecordId) :
    (join side c a id b).root? = some id := by
  cases side <;> rfl

/-- The nodes of a tree: its top, and those below. -/
theorem perm_inorder_join (side : Side) (c : Color) (a b : Shape) (id : RecordId) :
    Perm (join side c a id b).inorder (id :: (a.inorder ++ b.inorder)) := by
  cases side with
  | left => exact List.perm_middle
  | right => exact List.perm_middle.trans ((List.perm_append_comm).cons id)

/-- The nodes of a join are the top and those of both parts. -/
@[simp] theorem mem_join {side : Side} {c : Color} {a b : Shape} {id j : RecordId} :
    j ∈ (join side c a id b).inorder ↔ j = id ∨ j ∈ a.inorder ∨ j ∈ b.inorder := by
  rw [(perm_inorder_join side c a b id).mem_iff]
  simp

/-- No node stands twice in a join if none does in a part, the top is in neither part, and the parts
have no node in common. -/
theorem nodup_join {side : Side} {c : Color} {a b : Shape} {id : RecordId} :
    (join side c a id b).inorder.Nodup ↔
      id ∉ a.inorder ∧ id ∉ b.inorder ∧ a.inorder.Nodup ∧ b.inorder.Nodup ∧
        a.inorder.Disjoint b.inorder := by
  rw [(perm_inorder_join side c a b id).nodup_iff]
  simp [List.nodup_append', and_assoc]

/-- The root is one of the nodes. -/
theorem mem_of_root? {t : Shape} {id : RecordId} (h : t.root? = some id) : id ∈ t.inorder := by
  cases t with
  | leaf => cases h
  | node c l top r =>
    cases h
    simp [inorder]

/-- A shape that is not empty has a root. -/
theorem root?_ne_none {t : Shape} (h : t ≠ .leaf) : t.root? ≠ none := by
  cases t with
  | leaf => exact absurd rfl h
  | node c l id r => exact Option.some_ne_none id

/-- A shape without a root is empty. -/
theorem eq_leaf_of_root? {t : Shape} (h : t.root? = none) : t = .leaf := by
  by_contra hne
  exact root?_ne_none hne h

/-- An empty shape counts as black, so a red one is not empty. -/
theorem ne_leaf_of_red {t : Shape} (h : t.color = .red) : t ≠ .leaf := by
  rintro rfl
  cases h

/-- Where blacks are due on the paths, there are nodes. -/
theorem Balanced.ne_leaf {h : Nat} {t : Shape} (hb : t.Balanced (h + 1)) : t ≠ .leaf := by
  rintro rfl
  cases hb

/-- A node, by side. -/
theorem exists_join_of_ne {t : Shape} (h : t ≠ .leaf) (side : Side) :
    ∃ a id b, t = join side t.color a id b := by
  cases t with
  | leaf => exact absurd rfl h
  | node c l id r =>
    cases side
    · exact ⟨l, id, r, rfl⟩
    · exact ⟨r, id, l, rfl⟩

/-- A tree with `id` at the top, by side. -/
theorem exists_join {t : Shape} {id : RecordId} (h : t.root? = some id) (side : Side) :
    ∃ a b, t = join side t.color a id b := by
  have hne : t ≠ .leaf := by
    rintro rfl
    cases h
  obtain ⟨a, top, b, hjoin⟩ := exists_join_of_ne hne side
  rw [hjoin, root?_join] at h
  cases h
  exact ⟨a, b, hjoin⟩

/-- A balanced red node has balanced children of the same height, and both are black. -/
theorem balanced_join_red {h : Nat} {side : Side} {a b : Shape} {id : RecordId} :
    Balanced h (join side .red a id b) ↔
      Balanced h a ∧ Balanced h b ∧ a.color = .black ∧ b.color = .black := by
  constructor
  · intro hb
    cases side <;> cases hb <;> simp_all
  · rintro ⟨ha, hb, hca, hcb⟩
    cases side
    · exact .red ha hb hca hcb
    · exact .red hb ha hcb hca

/-- A balanced black node has balanced children with one black less on their paths. -/
theorem balanced_join_black {h : Nat} {side : Side} {a b : Shape} {id : RecordId} :
    Balanced (h + 1) (join side .black a id b) ↔ Balanced h a ∧ Balanced h b := by
  constructor
  · intro hb
    cases side <;> cases hb <;> simp_all
  · rintro ⟨ha, hb⟩
    cases side
    · exact .black ha hb
    · exact .black hb ha

/-- With a black node on top, one black at least is on each path. -/
theorem pos_of_balanced_black {h : Nat} {side : Side} {a b : Shape} {id : RecordId}
    (hb : Balanced h (join side .black a id b)) : ∃ k, h = k + 1 := by
  cases side <;> cases hb <;> exact ⟨_, rfl⟩

/-- The shape with the colour `c` at its top. -/
def paint (c : Color) : Shape → Shape
  | leaf => leaf
  | node _ l id r => node c l id r

/-- Painting a join paints its top. -/
@[simp] theorem paint_join (c d : Color) (side : Side) (a b : Shape) (id : RecordId) :
    (join side c a id b).paint d = join side d a id b := by
  cases side <;> rfl

/-- A shape that was painted black is black, even if it is empty. -/
@[simp] theorem color_paint_black (t : Shape) : (t.paint .black).color = .black := by
  cases t <;> rfl

/-- A shape of the colour `c` does not change when it is painted in `c`. -/
theorem paint_eq_self {t : Shape} {c : Color} (h : t.color = c) : t.paint c = t := by
  subst h
  cases t <;> rfl

/-- A balanced tree with a red top gains a black when the top is painted black. -/
theorem Balanced.paint_black {h : Nat} {t : Shape} (hb : t.Balanced h) (hred : t.color = .red) :
    (t.paint .black).Balanced (h + 1) := by
  cases hb with
  | leaf => cases hred
  | red hl hr => exact .black hl hr
  | black => cases hred

/-- The root is black, no red node has a red child, and each path down has `h` black nodes. -/
def RedBlack (h : Nat) (t : Shape) : Prop := t.color = .black ∧ t.Balanced h

end Shape

/-! ### Contexts -/

/-- A tree with one position left open, from that position upward. -/
inductive Context where
  /-- The position is the whole tree. -/
  | top
  /-- The position is at `side` of `id`, which has `sibling` on its other side. -/
  | under (side : Side) (color : Color) (id : RecordId) (sibling : Shape) (above : Context)

namespace Context

/-- The tree with `t` in the open position. -/
def fill : Context → Shape → Shape
  | top, t => t
  | under side color id sibling above, t => above.fill (.join side color t id sibling)

/-- The node that the position is a child of. -/
def parent : Context → Option RecordId
  | top => none
  | under _ _ id _ _ => some id

/-- The side of its parent on which the position lies. A whole tree counts as left. -/
def side : Context → Side
  | top => .left
  | under side _ _ _ _ => side

/-- The colour above the position. Above the root it counts as red, since a root is black. -/
def color : Context → Color
  | top => .red
  | under _ color _ _ _ => color

/-- The nodes that come before the position. -/
def before : Context → List RecordId
  | top => []
  | under .left _ _ _ above => above.before
  | under .right _ id sibling above => above.before ++ (sibling.inorder ++ [id])

/-- The nodes that come after the position. -/
def after : Context → List RecordId
  | top => []
  | under .left _ id sibling above => id :: sibling.inorder ++ above.after
  | under .right _ _ _ above => above.after

/-- The nodes around the position. -/
def ids (C : Context) : List RecordId := C.before ++ C.after

/-- The number of nodes above the position. -/
def depth : Context → Nat
  | top => 0
  | under _ _ _ _ above => above.depth + 1

/-- The open position of `inner`, with the whole of `inner` in the position of `outer`. -/
def inside : Context → Context → Context
  | top, outer => outer
  | under side color id sibling above, outer =>
    under side color id sibling (above.inside outer)

/-- Filling a position in a position is filling the outer one with what comes of the inner one. -/
@[simp] theorem fill_inside (inner outer : Context) (t : Shape) :
    (inner.inside outer).fill t = outer.fill (inner.fill t) := by
  induction inner generalizing t with
  | top => rfl
  | under side color id sibling above ih => exact ih _

/-- The nodes before the outer position come before those of the inner context. -/
@[simp] theorem before_inside (inner outer : Context) :
    (inner.inside outer).before = outer.before ++ inner.before := by
  induction inner with
  | top => simp [inside, before]
  | under side color id sibling above ih => cases side <;> simp [inside, before, ih]

/-- The nodes after the outer position come after those of the inner context. -/
@[simp] theorem after_inside (inner outer : Context) :
    (inner.inside outer).after = inner.after ++ outer.after := by
  induction inner with
  | top => simp [inside, after]
  | under side color id sibling above ih => cases side <;> simp [inside, after, ih]

/-- The parent is the one of the inner context, unless that is a whole tree. -/
@[simp] theorem parent_inside (inner outer : Context) :
    (inner.inside outer).parent = inner.parent.or outer.parent := by
  cases inner <;> rfl

/-- From left to right come the nodes before the position, those in it, and those after it. -/
theorem inorder_fill (C : Context) (t : Shape) :
    (C.fill t).inorder = C.before ++ t.inorder ++ C.after := by
  induction C generalizing t with
  | top => simp [fill, before, after]
  | under side color id sibling above ih =>
    rw [fill, ih]
    cases side <;> simp [Shape.join, Shape.inorder, before, after]

/-- A node in the position stands between the nodes before the position, with its left subtree, and
its right subtree, with the nodes after. -/
theorem inorder_fill_node (C : Context) (c : Color) (l r : Shape) (id : RecordId) :
    (C.fill (.node c l id r)).inorder =
      (C.before ++ l.inorder) ++ id :: (r.inorder ++ C.after) := by
  simp [inorder_fill, Shape.inorder]

/-- A node comes once among the nodes of a tree without repetition. -/
theorem notMem_of_nodup_fill {C : Context} {c : Color} {l r : Shape} {id : RecordId}
    (h : (C.fill (.node c l id r)).inorder.Nodup) :
    id ∉ C.before ++ l.inorder ∧ id ∉ r.inorder ++ C.after := by
  rw [inorder_fill_node] at h
  exact not_or.mp (List.mem_append.not.mp (notMem_of_nodup_middle h))

/-- A node is none of those below it and around it. -/
theorem ne_of_nodup_fill {C : Context} {c : Color} {l r : Shape} {id j : RecordId}
    (h : (C.fill (.node c l id r)).inorder.Nodup)
    (hj : j ∈ l.inorder ∨ j ∈ r.inorder ∨ j ∈ C.ids) : j ≠ id := by
  obtain ⟨hleft, hright⟩ := notMem_of_nodup_fill h
  rintro rfl
  simp only [ids, List.mem_append, not_or] at hj hleft hright
  tauto

/-- With nothing in the position, the nodes are those around it. -/
@[simp] theorem inorder_fill_leaf (C : Context) : (C.fill .leaf).inorder = C.ids := by
  simp [inorder_fill, ids, Shape.inorder]

/-- The nodes around a position come before it or after it. -/
theorem mem_ids {C : Context} {j : RecordId} :
    j ∈ C.ids ↔ j ∈ C.before ∨ j ∈ C.after :=
  List.mem_append

/-- The nodes of a tree: those in the position, and those around it. -/
theorem perm_inorder_fill (C : Context) (t : Shape) :
    Perm (C.fill t).inorder (t.inorder ++ C.ids) := by
  rw [inorder_fill, ids, List.append_assoc]
  exact (List.perm_append_comm_assoc _ _ _)

/-- The nodes of a filled context are those in the position and those around it. -/
@[simp] theorem mem_fill {C : Context} {t : Shape} {j : RecordId} :
    j ∈ (C.fill t).inorder ↔ j ∈ t.inorder ∨ j ∈ C.ids := by
  rw [(perm_inorder_fill C t).mem_iff, List.mem_append]

/-- More nodes in a position are more nodes in the whole. -/
theorem fill_subset {C : Context} {t u : Shape} (h : t.inorder ⊆ u.inorder) :
    (C.fill t).inorder ⊆ (C.fill u).inorder := fun _ hj =>
  mem_fill.mpr ((mem_fill.mp hj).imp_left fun hin => h hin)

/-- A rotation keeps the order of the nodes. -/
theorem inorder_rotate (C : Context) (side : Side) (c d : Color) (a b e : Shape)
    (id up : RecordId) :
    (C.fill (.join side d (.join side c a id b) up e)).inorder =
      (C.fill (.join side c a id (.join side d b up e))).inorder := by
  cases side <;> simp [inorder_fill, Shape.join, Shape.inorder]

/-- No node stands twice if none does in the position or around it, and none in both. -/
theorem nodup_fill {C : Context} {t : Shape} :
    (C.fill t).inorder.Nodup ↔
      t.inorder.Nodup ∧ C.ids.Nodup ∧ t.inorder.Disjoint C.ids := by
  rw [(perm_inorder_fill C t).nodup_iff, List.nodup_append']

/-- The nodes around a position are its parent, those of the sibling, and those around the
parent. -/
theorem perm_ids_under (side : Side) (color : Color) (id : RecordId) (sibling : Shape)
    (above : Context) :
    Perm (under side color id sibling above).ids (id :: (sibling.inorder ++ above.ids)) := by
  have hfill := perm_inorder_fill (under side color id sibling above) .leaf
  have habove := perm_inorder_fill above (.join side color .leaf id sibling)
  have hjoin := Shape.perm_inorder_join side color .leaf sibling id
  simp only [Shape.inorder, List.nil_append] at hfill hjoin
  exact hfill.symm.trans (habove.trans (hjoin.append_right above.ids))

/-- A node around a position is its parent, one of the sibling, or one around the parent. -/
@[simp] theorem mem_ids_under {side : Side} {color : Color} {id j : RecordId} {sibling : Shape}
    {above : Context} :
    j ∈ (under side color id sibling above).ids ↔
      j = id ∨ j ∈ sibling.inorder ∨ j ∈ above.ids := by
  rw [(perm_ids_under side color id sibling above).mem_iff]
  simp

/-- Around a whole tree there is nothing. -/
@[simp] theorem ids_top : top.ids = [] := rfl

/-- Around a position no node stands twice if none does in the sibling or around the parent, the
parent is in neither, and the two have none in common. -/
theorem nodup_ids_under {side : Side} {color : Color} {id : RecordId} {sibling : Shape}
    {above : Context} :
    (under side color id sibling above).ids.Nodup ↔
      id ∉ sibling.inorder ∧ id ∉ above.ids ∧ sibling.inorder.Nodup ∧ above.ids.Nodup ∧
        sibling.inorder.Disjoint above.ids := by
  rw [(perm_ids_under side color id sibling above).nodup_iff]
  simp [List.nodup_append', and_assoc]

/-- The parent of a position is around it. -/
theorem mem_ids_of_parent {C : Context} {id : RecordId} (h : C.parent = some id) :
    id ∈ C.ids := by
  cases C with
  | top => cases h
  | under side color top sibling above =>
    cases h
    simp

/-- The nodes above a position are around it. -/
theorem depth_le_length_ids (C : Context) : C.depth ≤ C.ids.length := by
  induction C with
  | top => simp [depth]
  | under side color id sibling above ih =>
    rw [(perm_ids_under side color id sibling above).length_eq]
    simp only [depth, List.length_cons, List.length_append]
    omega

/-- Below a parent, what is in the position does not change the root. -/
@[simp] theorem root?_fill_under (side : Side) (color : Color) (id : RecordId) (sibling : Shape)
    (above : Context) (t u : Shape) :
    ((under side color id sibling above).fill t).root? =
      ((under side color id sibling above).fill u).root? := by
  induction above generalizing side color id sibling t u with
  | top => simp [fill]
  | under side' color' id' sibling' above' ih => exact ih ..

/-! ### Red-black contexts -/

/-- Filled with a tree of black height `h` whose top is black, the context is a red-black tree
of black height `total`. -/
inductive Fits (total : Nat) : Nat → Context → Prop where
  | top : Fits total total top
  | red {h : Nat} {side : Side} {id : RecordId} {sibling : Shape} {above : Context} :
      sibling.Balanced h → sibling.color = .black → above.color = .black → Fits total h above →
      Fits total h (under side .red id sibling above)
  | black {h : Nat} {side : Side} {id : RecordId} {sibling : Shape} {above : Context} :
      sibling.Balanced h → Fits total (h + 1) above →
      Fits total h (under side .black id sibling above)

/-- A tree is red-black exactly when the tree in a position and the context around it agree
on the number of blacks, and are not both red where they meet. -/
theorem redBlack_fill {total : Nat} {C : Context} {t : Shape} :
    (C.fill t).RedBlack total ↔
      ∃ h, t.Balanced h ∧ Fits total h C ∧ (t.color = .black ∨ C.color = .black) := by
  -- On the way up the tree in the position grows by one node, so `t` varies.
  induction C generalizing t with
  | top =>
    constructor
    · rintro ⟨hc, hb⟩
      exact ⟨total, hb, .top, .inl hc⟩
    · rintro ⟨h, hb, hf, hc⟩
      cases hf
      exact ⟨by simpa [color, fill] using hc, hb⟩
  | under side c id sibling above ih =>
    rw [fill, ih]
    constructor
    · rintro ⟨h, hb, hf, hc⟩
      cases c with
      | red =>
        obtain ⟨ht, hs, hct, hcs⟩ := Shape.balanced_join_red.mp hb
        have habove : above.color = .black := by simpa using hc
        exact ⟨h, ht, .red hs hcs habove hf, .inl hct⟩
      | black =>
        -- A black node has one more black below it than its children have.
        obtain ⟨k, rfl⟩ := Shape.pos_of_balanced_black hb
        obtain ⟨ht, hs⟩ := Shape.balanced_join_black.mp hb
        exact ⟨k, ht, .black hs hf, .inr rfl⟩
    · rintro ⟨h, hb, hf, hc⟩
      cases hf with
      | red hs hcs habove hf =>
        have hct : t.color = .black := by simpa [color] using hc
        exact ⟨h, Shape.balanced_join_red.mpr ⟨hb, hs, hct, hcs⟩, hf, .inr habove⟩
      | black hs hf =>
        exact ⟨h + 1, Shape.balanced_join_black.mpr ⟨hb, hs⟩, hf, .inl (by simp)⟩

/-- Which node stands next to a position does not matter. -/
theorem Fits.relabel {total h : Nat} {side : Side} {c : Color} {id id' : RecordId} {sibling : Shape}
    {inner outer : Context} (hf : Fits total h (inner.inside (under side c id sibling outer))) :
    Fits total h (inner.inside (under side c id' sibling outer)) := by
  induction inner generalizing h with
  | top =>
    cases hf with
    | red hs hcs ha hf => exact .red hs hcs ha hf
    | black hs hf => exact .black hs hf
  | under side' c' j sibling' above ih =>
    -- The id that changes may be the one right above, whose colour does not.
    have hcolor : ∀ k, (above.inside (under side c k sibling outer)).color =
        (above.inside (under side c id' sibling outer)).color := by
      intro k
      cases above <;> rfl
    cases hf with
    | red hs hcs ha hf => exact .red hs hcs (hcolor id ▸ ha) (ih hf)
    | black hs hf => exact .black hs (ih hf)

/-- Two black-topped trees under the node next to a position. -/
theorem Fits.redBlack_join {total h : Nat} {side side' : Side} {c : Color} {id id' : RecordId}
    {sibling a b : Shape} {above : Context} (hf : Fits total h (under side c id sibling above))
    (ha : a.Balanced h) (hac : a.color = .black) (hb : b.Balanced h) (hbc : b.color = .black) :
    (above.fill (.join side' c a id' b)).RedBlack total := by
  cases hf with
  | red _ _ habovec habove =>
    exact redBlack_fill.mpr
      ⟨h, Shape.balanced_join_red.mpr ⟨ha, hb, hac, hbc⟩, habove, .inr habovec⟩
  | black _ habove =>
    exact redBlack_fill.mpr
      ⟨h + 1, Shape.balanced_join_black.mpr ⟨ha, hb⟩, habove, .inl (Shape.color_join ..)⟩

end Context

/-! ### Finding positions -/

/-- Each node of a tree is at the top of a position. -/
theorem Shape.exists_context {t : Shape} {id : RecordId} (h : id ∈ t.inorder) :
    ∃ (C : Context) (c : Color) (l r : Shape), t = C.fill (.node c l id r) := by
  induction t with
  | leaf => cases h
  | node c l top r ihl ihr =>
    simp only [inorder, List.mem_append, List.mem_cons] at h
    rcases h with hl | rfl | hr
    · obtain ⟨C, c', l', r', rfl⟩ := ihl hl
      exact ⟨C.inside (.under .left c top r .top), c', l', r', by simp [Context.fill, join]⟩
    · exact ⟨.top, c, l, r, rfl⟩
    · obtain ⟨C, c', l', r', rfl⟩ := ihr hr
      exact ⟨C.inside (.under .right c top l .top), c', l', r', by simp [Context.fill, join]⟩

end RecordTree
