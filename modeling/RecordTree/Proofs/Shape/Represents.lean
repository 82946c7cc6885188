import Mathlib.Data.List.Basic
import Mathlib.Data.List.Perm.Subperm
import Mathlib.Tactic.Linarith
import RecordTree.Proofs.Returns
import RecordTree.Proofs.Shape.Context

/-!
# `RecordTree.Proofs.Shape.Represents`: shapes spelled out by links

`Represents` ties a shape to the links of a store. This module says node by node what that
means, for a shape (`spells_join`) and for the context of a position (`Surrounds`), and how
the two come together (`represents_fill`).

`Tree.HasShape` is the invariant of a handle: the records below its root spell out a shape in
which no record stands twice. What it says about a record depends on the links of the
records in the shape and on nothing else (`Tree.HasShape.congr`), so changes elsewhere keep
it. `Tree.HasShape.refill` puts another subtree in a position.

`Tree.Keeps` adds that the shape is red-black, which is what holds between calls. `Settled` is
what every call does to a handle and the records: the tree goes from one list of nodes to
another, the nodes that left it are wiped, and all others stay as they were.
-/

set_option autoImplicit false

namespace RecordTree

/-! ### The node at a place -/

namespace Node

/-- The node under `parent` with the children `near`, at `side`, and `far`. -/
def placed (parent : Option RecordId) (side : Side) (near far : Option RecordId)
    (color : Color) : Node :=
  (({ parent, color, state := .linked } : Node).setChild side near).setChild side.flip far

variable {parent near far : Option RecordId} {side : Side} {color : Color}

/-- From the other side, a placed node has its children exchanged. -/
@[simp] theorem placed_flip : placed parent side.flip near far color =
    placed parent side far near color := by
  cases side <;> rfl

/-- At its side, a placed node has the near child. -/
@[simp] theorem child_placed : (placed parent side near far color).child side = near := by
  cases side <;> rfl

/-- At the other side, it has the far child. -/
@[simp] theorem child_flip_placed :
    (placed parent side near far color).child side.flip = far := by
  cases side <;> rfl

/-- A placed node is under the parent that was given. -/
@[simp] theorem parent_placed : (placed parent side near far color).parent = parent := by
  cases side <;> rfl

/-- It has the colour that was given. -/
@[simp] theorem color_placed : (placed parent side near far color).color = color := by
  cases side <;> rfl

/-- It is linked. -/
@[simp] theorem state_placed : (placed parent side near far color).state = .linked := by
  cases side <;> rfl

/-- Changing the near child places the node with another one. -/
@[simp] theorem setChild_placed (new : Option RecordId) :
    (placed parent side near far color).setChild side new =
      placed parent side new far color := by
  cases side <;> rfl

/-- Changing the far child places the node with another one. -/
@[simp] theorem setChild_flip_placed (new : Option RecordId) :
    (placed parent side near far color).setChild side.flip new =
      placed parent side near new color := by
  cases side <;> rfl

/-- Putting a placed node under another parent places it there. -/
@[simp] theorem withParent_placed (new : Option RecordId) :
    (placed parent side near far color).withParent new =
      placed new side near far color := by
  cases side <;> rfl

/-- Colouring a placed node places it with another colour. -/
@[simp] theorem withColor_placed (new : Color) :
    (placed parent side near far color).withColor new =
      placed parent side near far new := by
  cases side <;> rfl

/-- The side of the near child is found, unless the far child is the same. -/
theorem sideOf_placed (h : near ≠ far) :
    (placed parent side near far color).sideOf near = side := by
  cases side with
  | left => simp [sideOf, placed, setChild]
  | right => simp [sideOf, placed, setChild, Ne.symm h]

/-- Exchanging the near child places the node with the new one. -/
theorem swapChild_placed {old : RecordId} (new : Option RecordId) (h : far ≠ some old) :
    (placed parent side (some old) far color).swapChild old new =
      placed parent side new far color := by
  rw [swapChild, sideOf_placed (Ne.symm h), setChild_placed]

end Node

variable {ρ : Type} [Linked ρ] {s s' : Store ρ}

/-! ### Shapes -/

/-- The records of `t` are linked as `t` says, with `parent` above them. -/
def Spells (s : Store ρ) (parent : Option RecordId) (t : Shape) : Prop :=
  Represents s parent t.root? t

/-- Nothing needs to be linked for an empty shape. -/
@[simp] theorem spells_leaf (parent : Option RecordId) : Spells s parent .leaf := .leaf parent

/-- The links below a position spell out a shape if the position holds its root. -/
theorem represents_iff {parent position : Option RecordId} {t : Shape} :
    Represents s parent position t ↔ position = t.root? ∧ Spells s parent t := by
  constructor
  · intro h
    cases h with
    | leaf => exact ⟨rfl, .leaf parent⟩
    | node hn hp hs hl hr => exact ⟨rfl, .node hn hp hs hl hr⟩
  · rintro ⟨rfl, h⟩
    exact h

/-- The links spell out a join if the node at its top is placed between the roots of its parts,
whose links are spelled out below it. -/
theorem spells_join {parent : Option RecordId} {side : Side} {c : Color} {a b : Shape}
    {id : RecordId} :
    Spells s parent (.join side c a id b) ↔
      s.node id = .ok (.placed parent side a.root? b.root? c) ∧
        Spells s (some id) a ∧ Spells s (some id) b := by
  constructor
  · intro h
    -- `Represents` names children by left and right, so each side is read off by itself.
    cases side with
    | left =>
      cases h with
      | node hn hp hs hl hr =>
        obtain ⟨hleft, hl⟩ := represents_iff.mp hl
        obtain ⟨hright, hr⟩ := represents_iff.mp hr
        refine ⟨hn.trans (congrArg _ ?_), hl, hr⟩
        simp [Node.placed, Node.setChild, ← hp, ← hs, ← hleft, ← hright]
    | right =>
      cases h with
      | node hn hp hs hl hr =>
        obtain ⟨hleft, hl⟩ := represents_iff.mp hl
        obtain ⟨hright, hr⟩ := represents_iff.mp hr
        refine ⟨hn.trans (congrArg _ ?_), hr, hl⟩
        simp [Node.placed, Node.setChild, ← hp, ← hs, ← hleft, ← hright]
  · rintro ⟨hn, ha, hb⟩
    cases side with
    | left => exact .node hn rfl rfl ha hb
    | right => exact .node hn rfl rfl hb ha

/-- The links spell out a node if it is placed between the roots of its subtrees, whose links are
spelled out below it. -/
theorem spells_node {parent : Option RecordId} {c : Color} {l r : Shape} {id : RecordId} :
    Spells s parent (.node c l id r) ↔
      s.node id = .ok (.placed parent .left l.root? r.root? c) ∧
        Spells s (some id) l ∧ Spells s (some id) r := by
  rw [← Shape.join_left, spells_join]

/-- A spelled shape depends on the links of its own records only. -/
theorem Spells.congr {parent : Option RecordId} {t : Shape} (h : Spells s parent t)
    (hs : ∀ j ∈ t.inorder, s'.node j = s.node j) : Spells s' parent t := by
  induction t generalizing parent with
  | leaf => exact spells_leaf parent
  | node c l id r ihl ihr =>
    rw [spells_node] at h ⊢
    obtain ⟨hid, hl, hr⟩ := h
    simp only [Shape.inorder, List.mem_append, List.mem_cons] at hs
    exact ⟨(hs id (by simp)).trans hid, ihl hl fun j hj => hs j (.inl hj),
      ihr hr fun j hj => hs j (.inr (.inr hj))⟩

/-- All records of a spelled shape are in the store, and linked. -/
theorem Spells.exists_linked {parent : Option RecordId} {t : Shape} (h : Spells s parent t)
    {j : RecordId} (hj : j ∈ t.inorder) : ∃ n, s.node j = .ok n ∧ n.state = .linked := by
  induction t generalizing parent with
  | leaf => cases hj
  | node c l id r ihl ihr =>
    obtain ⟨hid, hl, hr⟩ := spells_node.mp h
    simp only [Shape.inorder, List.mem_append, List.mem_cons] at hj
    rcases hj with hj | rfl | hj
    · exact ihl hl hj
    · exact ⟨_, hid, Node.state_placed⟩
    · exact ihr hr hj

/-- A shape moves under another parent when its top does. -/
theorem Spells.move {parent new : Option RecordId} {t : Shape} (h : Spells s parent t)
    (hnodup : t.inorder.Nodup) (hbelow : ∀ j ∈ t.inorder, t.root? ≠ some j → s'.node j = s.node j)
    (htop : ∀ j n, t.root? = some j → s.node j = .ok n →
      s'.node j = .ok (n.withParent new)) : Spells s' new t := by
  cases t with
  | leaf => exact spells_leaf new
  | node c l id r =>
    -- Only the top is told its parent. Those below are told by the top, which stays.
    rw [← Shape.join_left] at *
    obtain ⟨hid, hl, hr⟩ := spells_join.mp h
    obtain ⟨hidl, hidr, -, -, -⟩ := Shape.nodup_join.mp hnodup
    refine spells_join.mpr ⟨?_, hl.congr ?_, hr.congr ?_⟩
    · exact (htop id _ (by simp) hid).trans (congrArg _ (Node.withParent_placed new))
    · intro j hj
      refine hbelow j (by simp [hj]) ?_
      rintro ⟨⟩
      exact hidl hj
    · intro j hj
      refine hbelow j (by simp [hj]) ?_
      rintro ⟨⟩
      exact hidr hj

/-! ### Contexts -/

/-- The records around the position are linked as `C` says, below `root`, with `hole` in
the position. -/
def Surrounds (s : Store ρ) (root : Option RecordId) : Context → Option RecordId → Prop
  | .top, hole => root = hole
  | .under side color id sibling above, hole =>
    s.node id = .ok (.placed above.parent side hole sibling.root? color) ∧
      Spells s (some id) sibling ∧ Surrounds s root above (some id)

/-- The links spell out a filled context if those around the position do, and those in the
position. -/
theorem represents_fill {root : Option RecordId} {C : Context} {t : Shape} :
    Represents s none root (C.fill t) ↔ Surrounds s root C t.root? ∧ Spells s C.parent t := by
  induction C generalizing t with
  | top => exact represents_iff
  | under side c id sibling above ih =>
    rw [Context.fill, ih, Shape.root?_join, spells_join, Surrounds, Context.parent]
    tauto

/-- A part of a spelled shape is spelled, below the node that it hangs on. -/
theorem Spells.of_fill {up : Option RecordId} {C : Context} {t : Shape}
    (h : Spells s up (C.fill t)) : Spells s (C.parent.or up) t := by
  induction C generalizing t with
  | top => exact h
  | under side c id sibling above ih => exact (spells_join.mp (ih h)).2.1

omit [Linked ρ] in
/-- Different records are no more than the store has. -/
theorem Store.length_le_size {l : List RecordId} (hnodup : l.Nodup) (hlt : ∀ j ∈ l, j < s.size) :
    l.length ≤ s.size := by
  have hsub : l ⊆ List.range s.size := fun j hj => List.mem_range.mpr (hlt j hj)
  simpa using (List.subperm_of_subset hnodup hsub).length_le

omit [Linked ρ] in
/-- Repairs run on more steps than there are records above a position, with some to spare. -/
theorem Context.depth_add_two_le {C : Context} (hnodup : C.ids.Nodup)
    (hlt : ∀ j ∈ C.ids, j < s.size) : C.depth + 2 ≤ s.repairLimit := by
  -- No record stands twice around the position, so they are no more than the store has.
  have hle := Store.length_le_size hnodup hlt
  have hdepth := C.depth_le_length_ids
  have hlimit : s.size + 2 ≤ s.repairLimit := by
    unfold Store.repairLimit
    nlinarith
  omega

/-- A context depends on the links of its own records only. -/
theorem Surrounds.congr {root : Option RecordId} {C : Context} {hole : Option RecordId}
    (h : Surrounds s root C hole) (hs : ∀ j ∈ C.ids, s'.node j = s.node j) :
    Surrounds s' root C hole := by
  induction C generalizing hole with
  | top => exact h
  | under side c id sibling above ih =>
    obtain ⟨hid, hsib, habove⟩ := h
    simp only [Context.mem_ids_under] at hs
    exact ⟨(hs id (.inl rfl)).trans hid, hsib.congr fun j hj => hs j (.inr (.inl hj)),
      ih habove fun j hj => hs j (.inr (.inr hj))⟩

/-- Another child in the position is a change to the node above it, or to the handle. -/
theorem Surrounds.refill {t : Tree} {C : Context} {hole new : Option RecordId}
    (h : Surrounds s t.root C hole) (hnodup : C.ids.Nodup)
    (hs : ∀ j ∈ C.ids, C.parent ≠ some j → s'.node j = s.node j)
    (hparent : ∀ j n, C.parent = some j → s.node j = .ok n →
      s'.node j = .ok (n.setChild C.side new)) :
    Surrounds s' (t.withChild new C.parent).root C new := by
  cases C with
  | top => rfl
  | under side c id sibling above =>
    obtain ⟨hid, hsib, habove⟩ := h
    obtain ⟨hidsib, hidabove, -, -, -⟩ := Context.nodup_ids_under.mp hnodup
    refine ⟨?_, hsib.congr fun j hj => hs j (by simp [hj]) ?_,
      habove.congr fun j hj => hs j (by simp [hj]) ?_⟩
    · rw [hparent id _ rfl hid, Context.side, Node.setChild_placed]
    · rintro ⟨⟩
      exact hidsib hj
    · rintro ⟨⟩
      exact hidabove hj

/-! ### Handles -/

/-- The records below the handle's root spell out `shape`, and each stands there once. -/
structure Tree.HasShape (t : Tree) (s : Store ρ) (shape : Shape) : Prop where
  represents : Represents s none t.root shape
  nodup : shape.inorder.Nodup

namespace Tree.HasShape

variable {t : Tree} {shape : Shape}

/-- A shape depends on its own nodes only. -/
theorem congr (h : t.HasShape s shape) (hs : ∀ j ∈ shape.inorder, s'.node j = s.node j) :
    t.HasShape s' shape := by
  obtain ⟨hroot, hspells⟩ := represents_iff.mp h.represents
  exact ⟨represents_iff.mpr ⟨hroot, hspells.congr hs⟩, h.nodup⟩

/-- The root of the handle is that of the shape. -/
theorem root_eq (h : t.HasShape s shape) : t.root = shape.root? :=
  (represents_iff.mp h.represents).1

/-- The links from the root on spell out the shape. -/
theorem spells (h : t.HasShape s shape) : Spells s none shape :=
  (represents_iff.mp h.represents).2

/-- The position of the far child of a node. -/
theorem far {C : Context} {side : Side} {c : Color} {a b : Shape} {id : RecordId}
    (h : t.HasShape s (C.fill (.join side c a id b))) :
    t.HasShape s ((Context.under side.flip c id a C).fill b) := by
  rwa [Context.fill, Shape.join_flip]

/-- The node at the top of a position. -/
theorem node_top {C : Context} {side : Side} {c : Color} {a b : Shape} {id : RecordId}
    (h : t.HasShape s (C.fill (.join side c a id b))) :
    s.node id = .ok (.placed C.parent side a.root? b.root? c) :=
  (spells_join.mp (represents_fill.mp h.represents).2).1

/-- The two children of a node are different ones. -/
theorem child_ne {C : Context} {side : Side} {c : Color} {a b : Shape} {id j : RecordId}
    (h : t.HasShape s (C.fill (.join side c a id b))) (hj : j ∈ a.inorder) :
    b.root? ≠ some j := by
  intro hb
  have hjoin := (Context.nodup_fill.mp h.nodup).1
  exact (Shape.nodup_join.mp hjoin).2.2.2.2 hj (Shape.mem_of_root? hb)

/-- Another tree in a position. -/
theorem refill {C : Context} {a b : Shape} (h : t.HasShape s (C.fill a))
    (hnodup : (C.fill b).inorder.Nodup) (hb : Spells s' C.parent b)
    (hs : ∀ j ∈ C.ids, C.parent ≠ some j → s'.node j = s.node j)
    (hparent : ∀ j n, C.parent = some j → s.node j = .ok n →
      s'.node j = .ok (n.setChild C.side b.root?)) :
    (t.withChild b.root? C.parent).HasShape s' (C.fill b) := by
  have hctx := (Context.nodup_fill.mp hnodup).2.1
  have hsur := (represents_fill.mp h.represents).1.refill hctx hs hparent
  exact ⟨represents_fill.mpr ⟨hsur, hb⟩, hnodup⟩

/-- Where the node above a position keeps the top of the tree in it. -/
theorem swapChild_eq {C : Context} {a : Shape} (h : t.HasShape s (C.fill a)) {old j : RecordId}
    {n : Node} (hroot : a.root? = some old) (hj : C.parent = some j) (hn : s.node j = .ok n)
    (new : Option RecordId) : n.swapChild old new = n.setChild C.side new := by
  cases C with
  | top => cases hj
  | under side c id sibling above =>
    cases hj
    -- `swapChild` looks for `old` on the left first. It is not on the other side as well.
    have hid := h.node_top (C := above)
    have hne : sibling.root? ≠ some old :=
      h.child_ne (C := above) (Shape.mem_of_root? hroot)
    rw [hn] at hid
    cases hid
    rw [hroot, Node.swapChild_placed new hne, Context.side, Node.setChild_placed]

/-- The colour of a position is that of the shape in it. -/
theorem returns_colorOf {σ : Type} {x : σ} {Q : Color → Store ρ → σ → Prop} {C : Context}
    {u : Shape} (h : t.HasShape s (C.fill u)) :
    (Update.colorOf u.root?).Returns s x Q ↔ Q u.color s x := by
  cases u with
  | leaf => simp [Update.colorOf, Shape.root?, Shape.color]
  | node c l id r =>
    have hid := (spells_node.mp (represents_fill.mp h.represents).2).1
    simp [Update.colorOf, Shape.root?, Shape.color, hid]

/-- A node splits the nodes of its tree into those before it and those after it. -/
theorem exists_split {id : RecordId} {l r : List RecordId}
    (h : t.HasShape s shape) (hlist : shape.inorder = l ++ id :: r) :
    ∃ (C : Context) (c : Color) (a b : Shape), shape = C.fill (.node c a id b) ∧
      l = C.before ++ a.inorder ∧ r = b.inorder ++ C.after := by
  -- A list without repetition splits at `id` in one way only.
  have hmem : id ∈ shape.inorder := by simp [hlist]
  obtain ⟨C, c, a, b, rfl⟩ := Shape.exists_context hmem
  have hnodup := h.nodup
  rw [Context.inorder_fill_node] at hlist hnodup
  obtain ⟨hl, hr⟩ := split_unique hnodup hlist
  exact ⟨C, c, a, b, rfl, hl.symm, hr.symm⟩

/-- The nodes of a tree are records of the store. -/
theorem lt_size (h : t.HasShape s shape) {j : RecordId} (hj : j ∈ shape.inorder) :
    j < s.size := by
  obtain ⟨n, hn, -⟩ := h.spells.exists_linked hj
  exact Store.lt_of_node hn

/-- The nodes of a tree are linked. -/
theorem state_eq (h : t.HasShape s shape) {j : RecordId} {n : Node} (hj : j ∈ shape.inorder)
    (hn : s.node j = .ok n) : n.state = .linked := by
  obtain ⟨m, hm, hstate⟩ := h.spells.exists_linked hj
  rw [hn] at hm
  cases hm
  exact hstate

/-- A tree has no more nodes than the store has records. -/
theorem size_le (h : t.HasShape s shape) : shape.size ≤ s.size := by
  have hle := Store.length_le_size h.nodup fun j hj => h.lt_size hj
  rwa [Shape.length_inorder] at hle

/-- A tree has no more nodes than the store has records. -/
theorem length_le (h : t.HasShape s shape) : shape.inorder.length ≤ s.size := by
  rw [Shape.length_inorder]
  exact h.size_le

/-- A part of a tree has no more nodes than the store has records either. -/
theorem size_le_of_fill {C : Context} {u : Shape} (h : t.HasShape s (C.fill u)) :
    u.size ≤ s.size := by
  have hle := h.length_le
  rw [(Context.perm_inorder_fill C u).length_eq, List.length_append, Shape.length_inorder] at hle
  omega

/-- Repairs run on more steps than a position lies deep. -/
theorem depth_lt {C : Context} {u : Shape} (h : t.HasShape s (C.fill u)) :
    C.depth < s.repairLimit := by
  have hids := (Context.nodup_fill.mp h.nodup).2.1
  have hle := Context.depth_add_two_le hids fun j hj => h.lt_size (by simp [hj])
  omega

end Tree.HasShape

/-- The handle's records spell out a red-black tree. -/
structure Tree.Keeps (t : Tree) (s : Store ρ) (shape : Shape) : Prop extends
    t.HasShape s shape where
  redBlack : ∃ h, shape.RedBlack h

/-- The empty handle keeps the empty shape. -/
theorem Tree.keeps_empty (s : Store ρ) : Tree.empty.Keeps s .leaf where
  represents := .leaf none
  nodup := List.nodup_nil
  redBlack := ⟨0, rfl, .leaf⟩

/-- What a tree keeps depends on its nodes only. -/
theorem Tree.Keeps.congr {t : Tree} {shape : Shape} (h : t.Keeps s shape)
    (hs : ∀ j ∈ shape.inorder, s'.node j = s.node j) : t.Keeps s' shape where
  toHasShape := h.toHasShape.congr hs
  redBlack := h.redBlack

/-- A call took the tree from the nodes `old` in `s` to the nodes `new`, which the handle `t`
reaches in `s'`. -/
structure Settled (s : Store ρ) (old new : List RecordId) (t : Tree) (s' : Store ρ)
    (shape : Shape) : Prop where
  keeps : t.Keeps s' shape
  inorder : shape.inorder = new
  size : s'.size = s.size
  /-- The nodes that left the tree are wiped. -/
  gone : ∀ j ∈ old, j ∉ new → s'.node j = .ok .removed
  /-- All nodes that are in neither are as they were. -/
  frame : ∀ j, j ∉ old → j ∉ new → s'.node j = s.node j

/-- What was settled counts from any store with the same nodes. -/
theorem Settled.of_node_eq {s₁ : Store ρ} {old new : List RecordId} {t : Tree} {shape : Shape}
    (h : Settled s₁ old new t s' shape) (hnode : s₁.node = s.node) :
    Settled s old new t s' shape where
  keeps := h.keeps
  inorder := h.inorder
  size := h.size.trans (Store.size_eq_of_node hnode)
  gone := h.gone
  frame j hold hnew := by rw [h.frame j hold hnew, hnode]

/-- What a record is after a call: a node of the tree, one that left it, or what it was. -/
theorem Settled.cases {old new : List RecordId} {t : Tree} {shape : Shape}
    (h : Settled s old new t s' shape) {id : RecordId} {n : Node} (hn : s'.node id = .ok n) :
    (id ∈ new ∧ n.state = .linked) ∨ (id ∉ new ∧ id ∈ old ∧ n = .removed) ∨
      (id ∉ new ∧ id ∉ old ∧ s.node id = .ok n) := by
  by_cases hin : id ∈ new
  · have hmem : id ∈ shape.inorder := by rwa [h.inorder]
    exact .inl ⟨hin, h.keeps.state_eq hmem hn⟩
  · by_cases hold : id ∈ old
    · rw [h.gone id hold hin] at hn
      cases hn
      exact .inr (.inl ⟨hin, hold, rfl⟩)
    · rw [h.frame id hold hin] at hn
      exact .inr (.inr ⟨hin, hold, hn⟩)

/-- If only nodes of the tree were linked, this is so again. -/
theorem Settled.mem_of_linked {old new : List RecordId} {t : Tree} {shape : Shape}
    (h : Settled s old new t s' shape)
    (hold : ∀ id n, s.node id = .ok n → n.state = .linked → id ∈ old) {id : RecordId} {n : Node}
    (hn : s'.node id = .ok n) (hstate : n.state = .linked) : id ∈ shape.inorder := by
  rw [h.inorder]
  rcases h.cases hn with ⟨hin, -⟩ | ⟨-, -, rfl⟩ | ⟨-, hout, hn'⟩
  · exact hin
  · cases hstate
  · exact absurd (hold id n hn' hstate) hout

end RecordTree
