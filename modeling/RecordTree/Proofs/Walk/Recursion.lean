import RecordTree.Proofs.Cached.Run
import RecordTree.Proofs.Interval.Run
import RecordTree.Proofs.Walk.PostOrder
import RecordTree.Proofs.Walk.PreOrder

/-!
# `RecordTree.Proofs.Walk.Recursion`: walks without a stack against recursion

`Order.list` lists the nodes of a shape by recursion over it, in any of the four orders. In each of
them the steps of a walk lead along that list (`Tree.HasShape.visits_list`), and the walk over a
subtree begins with the node that is first in it (`Spells.first_eq`). So what a cursor hands out is
the list, or the part of it that begins where the cursor stands (`Tree.Traverses`).

The two steps in order undo each other (`Tree.HasShape.neighbor_flip`).

`walks_of_reachable` says all this of the states that calls lead to.
-/

set_option autoImplicit false

namespace RecordTree

/-! ### The lists -/

namespace Order

/-- The nodes of a tree in the order, by recursion. -/
def list (order : Order) : Shape → List RecordId
  | .leaf => []
  | .node _ l id r =>
    match order with
    | ascending => order.list l ++ id :: order.list r
    | descending => order.list r ++ id :: order.list l
    | postOrder => order.list l ++ (order.list r ++ [id])
    | preOrder => id :: (order.list l ++ order.list r)

/-- Towards a side, the recursion gives the nodes in order, read towards that side. -/
theorem list_towards (side : Side) (t : Shape) : (towards side).list t = side.order t.inorder := by
  induction t with
  | leaf => cases side <;> rfl
  | node c l id r ihl ihr =>
    cases side <;> simp_all [towards, list, Side.order, Shape.inorder]

/-- The ascending list is the one from left to right. -/
theorem list_ascending (t : Shape) : ascending.list t = t.inorder := list_towards .right t

/-- The descending list is the one from right to left. -/
theorem list_descending (t : Shape) : descending.list t = t.inorder.reverse := list_towards .left t

/-- The recursion gives the nodes in post-order. -/
theorem list_postOrder (t : Shape) : postOrder.list t = t.postorder := by
  induction t with
  | leaf => rfl
  | node c l id r ihl ihr => rw [list, ihl, ihr, Shape.postorder]

/-- The recursion gives the nodes in pre-order. -/
theorem list_preOrder (t : Shape) : preOrder.list t = t.preorder := by
  induction t with
  | leaf => rfl
  | node c l id r ihl ihr => rw [list, ihl, ihr, Shape.preorder]

/-- Whatever the order, the list has the nodes of the tree. -/
theorem perm_list (order : Order) (t : Shape) : (order.list t).Perm t.inorder := by
  cases order with
  | ascending => rw [list_ascending]
  | descending =>
    rw [list_descending]
    exact List.reverse_perm t.inorder
  | postOrder =>
    rw [list_postOrder]
    exact t.perm_postorder
  | preOrder =>
    rw [list_preOrder]
    exact t.perm_preorder

/-- A shape with a root has a node in every order. -/
theorem list_ne_nil (order : Order) {t : Shape} {id : RecordId} (h : t.root? = some id) :
    order.list t ≠ [] :=
  List.ne_nil_of_mem ((order.perm_list t).mem_iff.mpr (Shape.mem_of_root? h))

/-- The nodes of a subtree come one right after the other. -/
theorem infix_list_fill (order : Order) (C : Context) (u : Shape) :
    order.list u <:+: order.list (C.fill u) := by
  cases order with
  | ascending =>
    rw [list_ascending, list_ascending]
    exact ⟨C.before, C.after, (C.inorder_fill u).symm⟩
  | descending =>
    rw [list_descending, list_descending]
    exact ⟨C.after.reverse, C.before.reverse, by simp [C.inorder_fill u]⟩
  | postOrder =>
    rw [list_postOrder, list_postOrder]
    exact ⟨C.postBefore, C.postAfter, (C.postorder_fill u).symm⟩
  | preOrder =>
    rw [list_preOrder, list_preOrder]
    exact ⟨C.preBefore, C.preAfter, (C.preorder_fill u).symm⟩

end Order

variable {ρ σ : Type} [Linked ρ] {s : Store ρ}

/-! ### The walks -/

/-- The walk over a subtree begins with the node that is first in the list. -/
theorem Spells.first_eq {up : Option RecordId} {u : Shape} (h : Spells s up u) (order : Order)
    (hsize : u.size ≤ s.size) : order.first s u.root? = .ok (order.list u).head? := by
  cases order with
  | ascending =>
    rw [Order.list_ascending]
    exact h.extreme_eq .right hsize
  | descending =>
    rw [Order.list_descending]
    exact h.extreme_eq .left hsize
  | postOrder =>
    rw [Order.list_postOrder]
    exact h.postFirst_eq hsize
  | preOrder =>
    rw [Order.list_preOrder, Shape.head?_preorder]
    rfl

/-- The walks over the tree in `order` go through `l`: the whole walk through all of it, one from a
node on through what is left of it there, with the node or without, and one over the subtree of a
node through what is left of it at the first node of the subtree. -/
structure Tree.Traverses (t : Tree) (s : Store ρ) (order : Order) (l : List RecordId) : Prop where
  walk_eq : t.walk s order = .ok l
  fromNode_eq : ∀ before id after, l = before ++ id :: after →
    (Cursor.fromNode id order).toList s = .ok (id :: after)
  afterNode_eq : ∀ before id after, l = before ++ id :: after →
    ∃ cursor, Cursor.afterNode s id order = .ok cursor ∧ cursor.toList s = .ok after
  start_eq : ∀ id ∈ l, ∃ below cursor before first after,
    s.shapeFrom s.walkLimit (some id) = .ok below ∧ (order.list below).head? = some first ∧
      l = before ++ first :: after ∧ Cursor.start s (some id) order = .ok cursor ∧
        cursor.toList s = .ok (first :: after)

namespace Tree.HasShape

variable {t : Tree} {shape : Shape}

/-- The steps in an order lead along the list. -/
theorem visits_list (h : t.HasShape s shape) (order : Order) :
    order.Visits s (order.list shape) := by
  cases order with
  | ascending =>
    rw [Order.list_ascending]
    exact h.visits_towards .right
  | descending =>
    rw [Order.list_descending]
    exact h.visits_towards .left
  | postOrder =>
    rw [Order.list_postOrder]
    exact h.visits_postOrder
  | preOrder =>
    rw [Order.list_preOrder]
    exact h.visits_preOrder

/-- In no order does a node come twice. -/
theorem nodup_list (h : t.HasShape s shape) (order : Order) : (order.list shape).Nodup :=
  (order.perm_list shape).nodup_iff.mpr h.nodup

/-- In no order are there more nodes than records. -/
theorem length_list_le (h : t.HasShape s shape) (order : Order) :
    (order.list shape).length ≤ s.size := by
  rw [(order.perm_list shape).length_eq]
  exact h.length_le

/-- A cursor of any order stands at the first node of its list. -/
theorem cursor_eq (h : t.HasShape s shape) (order : Order) :
    t.cursor s order = .ok ⟨order, (order.list shape).head?⟩ := by
  rw [Tree.cursor, Cursor.start, h.root_eq, h.spells.first_eq order h.size_le]
  rfl

/-- What a cursor hands out that stands at the first node of a rest of the list. -/
theorem toList_eq (h : t.HasShape s shape) (order : Order) {before after : List RecordId}
    (hlist : order.list shape = before ++ after) :
    (Cursor.mk order after.head?).toList s = .ok after := by
  refine Cursor.listFrom_eq (h.visits_list order) hlist (Store.lt_walkLimit ?_)
  have hlen := h.length_list_le order
  rw [hlist, List.length_append] at hlen
  omega

/-- The walks of any order go through its list. -/
theorem traverses (h : t.HasShape s shape) (order : Order) :
    t.Traverses s order (order.list shape) where
  walk_eq := by
    rw [walk, h.cursor_eq order]
    exact h.toList_eq order (List.nil_append _).symm
  fromNode_eq before id after hlist := h.toList_eq order hlist
  afterNode_eq before id after hlist := by
    have hrest : order.list shape = (before ++ [id]) ++ after := by simp [hlist]
    refine ⟨⟨order, after.head?⟩, ?_, h.toList_eq order hrest⟩
    rw [Cursor.afterNode, h.visits_list order before id after hlist]
    rfl
  start_eq id hid := by
    obtain ⟨C, c, a, b, rfl⟩ := Shape.exists_context ((order.perm_list shape).mem_iff.mp hid)
    have hbelow : Spells s C.parent (.node c a id b) := (represents_fill.mp h.represents).2
    have hsize : (Shape.node c a id b).size ≤ s.size := h.size_le_of_fill
    obtain ⟨before, after, hlist⟩ := order.infix_list_fill C (.node c a id b)
    -- The subtree has nodes, so the walk begins with one of them and not behind it.
    obtain ⟨first, rest, hfirst⟩ :=
      List.exists_cons_of_ne_nil (order.list_ne_nil (Shape.root?_node c a b id))
    have hsplit : order.list (C.fill (.node c a id b)) = before ++ first :: (rest ++ after) := by
      rw [← hlist, hfirst]
      simp
    have hstart := hbelow.first_eq order hsize
    rw [hfirst, Shape.root?_node] at hstart
    refine ⟨_, _, before, first, rest ++ after,
      hbelow.shapeFrom_eq (Store.lt_walkLimit hsize).le, by rw [hfirst]; rfl, hsplit, ?_,
      h.toList_eq order hsplit⟩
    rw [Cursor.start, hstart]
    rfl

/-! ### Steps to both sides -/

/-- A step to one side is undone by the step to the other side. -/
theorem neighbor_flip (h : t.HasShape s shape) (side : Side) {a b : RecordId}
    (ha : a ∈ shape.inorder) (hstep : s.neighbor side a = .ok (some b)) :
    s.neighbor side.flip b = .ok (some a) := by
  have hflip : side.flip.order shape.inorder = (side.order shape.inorder).reverse := by
    cases side <;> simp [Side.order]
  have hin : a ∈ side.order shape.inorder := Side.mem_order.mpr ha
  obtain ⟨before, after, hlist⟩ := List.append_of_mem hin
  have hnext : s.neighbor side a = .ok after.head? := by
    have hvisits := h.visits_towards side before a after hlist
    cases side <;> exact hvisits
  rw [hnext, Except.ok.injEq] at hstep
  obtain ⟨rest, rfl⟩ := List.head?_eq_some_iff.mp hstep
  -- The other way round, `a` comes right after `b`.
  have hback : side.flip.order shape.inorder = rest.reverse ++ b :: a :: before.reverse := by
    rw [hflip, hlist]
    simp
  have hvisits := h.visits_towards side.flip rest.reverse b (a :: before.reverse) hback
  cases side <;> exact hvisits

/-- A step forward is undone by a step back, and the other way round. -/
theorem next_eq_some_iff (h : t.HasShape s shape) {a b : RecordId} (ha : a ∈ shape.inorder)
    (hb : b ∈ shape.inorder) : s.next a = .ok (some b) ↔ s.prev b = .ok (some a) :=
  ⟨fun hnext => h.neighbor_flip .right ha hnext,
    fun hprev => h.neighbor_flip .left hb hprev⟩

end Tree.HasShape

/-- A node without links has no neighbours. -/
theorem Store.neighbor_of_bare {id : RecordId} {state : State}
    (hn : s.node id = .ok { state }) (side : Side) : s.neighbor side id = .ok none := by
  have hchild : ∀ side, ({ state } : Node).child side = none := by
    intro side
    cases side <;> rfl
  rw [Store.neighbor, hn]
  simp only [bind, Except.bind, hchild, Store.climb, Store.walkLimit, Store.climbFrom, hn]
  rfl

/-! ### Reachable states -/

/-- The walks over the tree in all orders go through the lists of its nodes that recursion over its
shape gives, and the steps in order to either side undo each other. -/
structure Tree.WalksBy (t : Tree) (s : Store ρ) (shape : Shape) : Prop where
  shape_eq : t.shape s = .ok shape
  nodup : ∀ order : Order, (order.list shape).Nodup
  mem_iff : ∀ (order : Order) j, j ∈ order.list shape ↔ s.Reaches t.root j
  traverses : ∀ order : Order, t.Traverses s order (order.list shape)
  next_iff_prev : ∀ a b, s.Reaches t.root a → s.Reaches t.root b →
    (s.next a = .ok (some b) ↔ s.prev b = .ok (some a))

/-- Likewise of a cached tree, whose own cursors are those of the tree. The cached node is where the
ascending one starts. -/
structure CachedTree.WalksBy (t : CachedTree) (s : Store ρ) (shape : Shape) : Prop extends
    t.tree.WalksBy s shape where
  cursor_eq : ∀ order, t.cursor s order = t.tree.cursor s order
  ascending_eq : t.tree.cursor s .ascending = .ok t.ascending

/-- The walks over a tree go by recursion over its shape. -/
theorem Tree.HasShape.walksBy {t : Tree} {shape : Shape} (h : t.HasShape s shape) :
    t.WalksBy s shape where
  shape_eq := h.shape_eq
  nodup := h.nodup_list
  mem_iff order j := by rw [(order.perm_list shape).mem_iff, h.represents.reaches_iff]
  traverses := h.traverses
  next_iff_prev a b ha hb := by
    rw [h.represents.reaches_iff] at ha hb
    exact h.next_eq_some_iff ha hb

/-- The walks over a cached tree do so too, and the cached node is where the ascending one
starts. -/
theorem CachedTree.Keeps.walksBy {t : CachedTree} {shape : Shape} (h : t.Keeps s shape) :
    t.WalksBy s shape where
  toWalksBy := h.keeps.walksBy
  cursor_eq order := by
    cases order with
    | ascending => exact (h.cursor_towards .right).trans (h.keeps.cursor_towards .right).symm
    | descending | postOrder | preOrder => rfl
  ascending_eq := by
    rw [h.ascending_eq]
    exact h.keeps.cursor_towards .right

/-- Only nodes of trees have neighbours. -/
theorem Forest.Shaped.mem_of_neighbor {ι : Type} {f : Forest ι ρ σ} {shapes : ι → Shape}
    (h : f.Shaped shapes) {side : Side} {a b : RecordId}
    (hstep : f.store.neighbor side a = .ok (some b)) : ∃ i, a ∈ (shapes i).inorder := by
  have hread := hstep
  rw [Store.neighbor] at hread
  obtain ⟨n, hn, -⟩ := except_bind_eq_ok.mp hread
  by_cases hstate : n.state = .linked
  · exact (h.linked_iff a n hn).mp hstate
  · rw [h.bare a n hn hstate] at hn
    rw [Store.neighbor_of_bare hn] at hstep
    cases hstep

/-- In every reachable state, the walks over a tree in the four orders go through the lists of its
nodes that recursion gives, from any of its nodes on, and end. Among all records of the forest, one
is the successor of another exactly if the other is its predecessor. -/
theorem walks_of_reachable {ι κ : Type} [LawfulLinked ρ] [Listener σ] [Spanned ι κ]
    [LawfulSpanned ι] [LinearOrder κ] :
    (∀ {τ : Type} [DecidableEq τ] (f : Forest τ ρ σ), f.Reachable →
      (∀ i, ∃ shape, (f.trees i).WalksBy f.store shape) ∧
      ∀ a b, f.store.next a = .ok (some b) ↔ f.store.prev b = .ok (some a)) ∧
    (∀ f : Cached ρ σ, f.Reachable → ∃ shape, f.tree.WalksBy f.store shape) ∧
    ∀ f : Intervals ι σ, f.Reachable → ∃ shape, f.tree.cached.WalksBy f.store shape := by
  refine ⟨?_, ?_, ?_⟩
  · intro τ _ f hreachable
    obtain ⟨shapes, hshaped⟩ := hreachable.exists_shaped
    refine ⟨fun i => ⟨_, (hshaped.keeps i).walksBy⟩, fun a b => ⟨fun hnext => ?_, fun hprev => ?_⟩⟩
    · obtain ⟨i, ha⟩ := hshaped.mem_of_neighbor hnext
      exact (hshaped.keeps i).neighbor_flip .right ha hnext
    · obtain ⟨i, hb⟩ := hshaped.mem_of_neighbor hprev
      exact (hshaped.keeps i).neighbor_flip .left hb hprev
  · intro f hreachable
    obtain ⟨shape, hkeeps⟩ := hreachable.exists_keeps
    exact ⟨shape, hkeeps.walksBy⟩
  · intro f hreachable
    obtain ⟨shape, hkeeps⟩ := hreachable.exists_keeps
    exact ⟨shape, hkeeps.cached.walksBy⟩

/-- In the tree of `Forest.pair` the second node is the right child of the first one. It comes first
in post-order, and a walk in pre-order that goes on behind the first node hands it out. In the tree
of `Cached.sample` the first node is the left child of the second one, and the walk in post-order
from there on has both. -/
theorem walks_pair :
    (Forest.pair.trees true).walk Forest.pair.store .postOrder = .ok [1, 0] ∧
    (∃ cursor, Cursor.afterNode Forest.pair.store 0 .preOrder = .ok cursor ∧
      cursor.toList Forest.pair.store = .ok [1]) ∧
    Forest.pair.store.prev 1 = .ok (some 0) ∧
    (Cursor.fromNode 0 .postOrder).toList Cached.sample.store = .ok [0, 1] := by
  obtain ⟨hforest, -, -⟩ := walks_of_reachable (ρ := Node) (σ := Unit) (ι := Entry Nat) (κ := Nat)
  obtain ⟨-, hcached, -⟩ :=
    walks_of_reachable (ρ := Entry Nat) (σ := Unit) (ι := Entry Nat) (κ := Nat)
  obtain ⟨hwalks, hsteps⟩ := hforest Forest.pair Forest.reachable_pair
  obtain ⟨shape, hby⟩ := hwalks true
  obtain rfl : shape = .node .black .leaf 0 (.node .red .leaf 1 .leaf) :=
    (Except.ok.inj hby.shape_eq).symm
  obtain ⟨shape', hby'⟩ := hcached Cached.sample Cached.reachable_sample
  obtain rfl : shape' = .node .black (.node .red .leaf 0 .leaf) 1 .leaf :=
    (Except.ok.inj hby'.shape_eq).symm
  exact ⟨(hby.traverses .postOrder).walk_eq, (hby.traverses .preOrder).afterNode_eq [] 0 [1] rfl,
    (hsteps 0 1).mp rfl, (hby'.traverses .postOrder).fromNode_eq [] 0 [1] rfl⟩

end RecordTree
