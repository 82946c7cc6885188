import RecordTree.Proofs.CachedTree
import RecordTree.Proofs.Walk.Recursion

/-!
# `RecordTree.Proofs.Tree.Rename`: a replacement is a renaming

A replacement copies one node and patches the links of its neighbours one by one. What comes out is
the tree as it was, with `new` read for `old` (`relabel`) in all its links.

* `Spells.node_map`: a node is told by the shape it stands in, so where the records spell out a
  shape with its ids mapped, the links of each node are mapped as well.
* `Tree.Renamed`: what a replacement leaves of the handle, the records and the walks, and
  `Tree.Keeps.renames_replace`: that it does.
* `CachedTree.renames_replace`: so it is with a cached tree, whatever node it has cached.
-/

set_option autoImplicit false

namespace RecordTree

/-! ### Mapping ids -/

/-- Reads `new` for `old`. -/
def relabel (old new : RecordId) : RecordId → RecordId := Function.update id old new

section Renaming

variable {old new j : RecordId}

/-- The old id is read as the new one. -/
@[simp] theorem relabel_self : relabel old new old = new := Function.update_self ..

/-- All other ids are read as they are. -/
theorem relabel_of_ne (h : j ≠ old) : relabel old new j = j := Function.update_of_ne h ..

end Renaming

/-- The node with the ids in its links mapped. -/
def Node.mapLinks (f : RecordId → RecordId) (n : Node) : Node :=
  { n with parent := n.parent.map f, left := n.left.map f, right := n.right.map f }

/-- A placed node with its links mapped is placed between mapped links. -/
@[simp] theorem Node.mapLinks_placed (f : RecordId → RecordId) (parent : Option RecordId)
    (side : Side) (near far : Option RecordId) (color : Color) :
    (placed parent side near far color).mapLinks f =
      placed (parent.map f) side (near.map f) (far.map f) color := by
  cases side <;> rfl

namespace Shape

variable {f : RecordId → RecordId}

/-- The tree with its ids mapped. -/
def map (f : RecordId → RecordId) : Shape → Shape
  | leaf => leaf
  | node c l id r => node c (l.map f) (f id) (r.map f)

/-- The root of a mapped shape is the mapped root. -/
@[simp] theorem root?_map (f : RecordId → RecordId) (t : Shape) :
    (t.map f).root? = t.root?.map f := by
  cases t <;> rfl

/-- A mapped join is a join of mapped parts. -/
@[simp] theorem map_join (f : RecordId → RecordId) (side : Side) (c : Color) (a b : Shape)
    (id : RecordId) : (join side c a id b).map f = join side c (a.map f) (f id) (b.map f) := by
  cases side <;> rfl

/-- Ids that are mapped to themselves stay. -/
theorem map_eq_self {t : Shape} (h : ∀ j ∈ t.inorder, f j = j) : t.map f = t := by
  induction t with
  | leaf => rfl
  | node c l id r ihl ihr =>
    simp only [inorder, List.mem_append, List.mem_cons] at h
    rw [map, ihl fun j hj => h j (.inl hj), h id (by simp), ihr fun j hj => h j (.inr (.inr hj))]

end Shape

/-- The lists of nodes are mapped along. -/
theorem Order.list_map (order : Order) (f : RecordId → RecordId) (t : Shape) :
    order.list (t.map f) = (order.list t).map f := by
  induction t with
  | leaf => rfl
  | node c l id r ihl ihr => cases order <;> simp [Shape.map, Order.list, ihl, ihr]

namespace Context

variable {C : Context}

/-- What is around a position stays if its ids are mapped to themselves. -/
theorem map_fill {f : RecordId → RecordId} (h : ∀ j ∈ C.ids, f j = j) (t : Shape) :
    (C.fill t).map f = C.fill (t.map f) := by
  induction C generalizing t with
  | top => rfl
  | under side c id sibling above ih =>
    simp only [mem_ids_under] at h
    have hsibling : sibling.map f = sibling := Shape.map_eq_self fun j hj => h j (.inr (.inl hj))
    rw [fill, ih fun j hj => h j (.inr (.inr hj)), Shape.map_join, h id (.inl rfl), hsibling, fill]

/-- In a tree without repetitions only the one node is renamed. -/
theorem map_relabel {c : Color} {l r : Shape} {old new : RecordId}
    (h : (C.fill (.node c l old r)).inorder.Nodup) :
    (C.fill (.node c l old r)).map (relabel old new) = C.fill (.node c l new r) := by
  have hne := fun j => ne_of_nodup_fill (j := j) h
  have hl : l.map (relabel old new) = l :=
    Shape.map_eq_self fun j hj => relabel_of_ne (hne j (.inl hj))
  have hr : r.map (relabel old new) = r :=
    Shape.map_eq_self fun j hj => relabel_of_ne (hne j (.inr (.inl hj)))
  rw [map_fill fun j hj => relabel_of_ne (hne j (.inr (.inr hj))), Shape.map, hl, hr,
    relabel_self]

end Context

variable {ρ σ : Type} [Linked ρ] {s s' : Store ρ}

/-- Records that spell out the mapped shape have the mapped links. -/
theorem Spells.node_map {f : RecordId → RecordId} {up : Option RecordId} {t : Shape}
    (h : Spells s up t) (h' : Spells s' (up.map f) (t.map f)) {j : RecordId} {n : Node}
    (hj : j ∈ t.inorder) (hn : s.node j = .ok n) : s'.node (f j) = .ok (n.mapLinks f) := by
  induction t generalizing up with
  | leaf => cases hj
  | node c l id r ihl ihr =>
    obtain ⟨hid, hl, hr⟩ := spells_node.mp h
    obtain ⟨hid', hl', hr'⟩ := spells_node.mp h'
    simp only [Shape.inorder, List.mem_append, List.mem_cons] at hj
    rcases hj with hj | rfl | hj
    · exact ihl hl hl' hj
    · rw [hn] at hid
      cases hid
      rw [hid', Node.mapLinks_placed, Shape.root?_map, Shape.root?_map]
    · exact ihr hr hr' hj

/-! ### Renamed trees -/

/-- The tree of `t'` in `s'` is that of `t` in `s` with `new` read for `old`: at the root, in the
links of its nodes, and so in its shape and in all walks over it, also in one that goes on from some
node. The node of `old` is that of `new` now, and `old` has left the tree. No record but these two
and the neighbours of `old` has changed at all, and none has in what it holds besides its node. -/
structure Tree.Renamed (t : Tree) (s : Store ρ) (old new : RecordId) (t' : Tree) (s' : Store ρ) :
    Prop where
  root_eq : t'.root = t.root.map (relabel old new)
  node_eq : ∀ j n, s.Reaches t.root j → j ≠ old → s.node j = .ok n →
    s'.node j = .ok (n.mapLinks (relabel old new))
  node_new : ∃ n, s.node old = .ok n ∧ n.state = .linked ∧ s'.node new = .ok n
  node_old : s'.node old = .ok .removed
  fetch_eq : ∀ j n, s.node old = .ok n → j ≠ old → j ≠ new → n.parent ≠ some j →
    n.left ≠ some j → n.right ≠ some j → s'.fetch j = s.fetch j
  payload_eq : s'.payload = s.payload
  shape_eq : ∃ shape, t.shape s = .ok shape ∧ t'.shape s' = .ok (shape.map (relabel old new))
  walk_eq : ∀ order, ∃ l, t.walk s order = .ok l ∧
    t'.walk s' order = .ok (l.map (relabel old new))
  fromNode_eq : ∀ order j, s.Reaches t.root j →
    ∃ l, (Cursor.fromNode j order).toList s = .ok l ∧
      (Cursor.fromNode (relabel old new j) order).toList s' = .ok (l.map (relabel old new))

section Replace

variable [LawfulLinked ρ] {t : Tree} {old new : RecordId} {shape : Shape} {n m : Node} {x : σ}

/-- The substitution of a node of the tree by a record outside of it renames it. -/
theorem Tree.HasShape.renamed (h : t.HasShape s shape) (hold : old ∈ shape.inorder)
    (hn : s.node old = .ok n) (hnew : new ∉ shape.inorder) (hlt : new < s.size) :
    t.Renamed s old new (t.withChild (some new) n.parent) (s.substituted old new n) := by
  obtain ⟨C, c, l, r, rfl⟩ := Shape.exists_context hold
  obtain ⟨htop, -, -⟩ := spells_node.mp (represents_fill.mp h.represents).2
  rw [hn] at htop
  cases htop
  obtain ⟨h', -⟩ := h.substituted hn hnew hlt
  rw [← Context.map_relabel h.nodup] at h'
  have hnode : ∀ j n, j ∈ (C.fill (.node c l old r)).inorder → s.node j = .ok n →
      (s.substituted old new _).node (relabel old new j) = .ok (n.mapLinks (relabel old new)) :=
    fun j n hj hn => h.spells.node_map h'.spells hj hn
  -- A node has no link to itself, so the renaming leaves the links of `old` alone.
  have hne := fun j => Context.ne_of_nodup_fill (j := j) h.nodup
  have hparent : C.parent ≠ some old := fun hp =>
    hne old (.inr (.inr (Context.mem_ids_of_parent hp))) rfl
  have hleft : l.root? ≠ some old := fun hp => hne old (.inl (Shape.mem_of_root? hp)) rfl
  have hright : r.root? ≠ some old := fun hp => hne old (.inr (.inl (Shape.mem_of_root? hp))) rfl
  have hfixed : ∀ o : Option RecordId, o ≠ some old → o.map (relabel old new) = o := by
    intro o ho
    cases o with
    | none => rfl
    | some j => exact congrArg some (relabel_of_ne fun hj => ho (congrArg some hj))
  refine ⟨?_, ?_, ?_, Store.node_substituted_old _ (Store.lt_of_node hn), ?_,
    Store.payload_substituted .., ⟨_, h.shape_eq, h'.shape_eq⟩, ?_, ?_⟩
  · rw [h.root_eq, ← Shape.root?_map]
    exact h'.root_eq
  · intro j m hreach hj hm
    have hin := (h.represents.reaches_iff j).mp hreach
    have hmap := hnode j m hin hm
    rwa [relabel_of_ne hj] at hmap
  · refine ⟨_, hn, Node.state_placed, ?_⟩
    have hmap := hnode old _ hold hn
    rwa [relabel_self, Node.mapLinks_placed, hfixed _ hparent, hfixed _ hleft,
      hfixed _ hright] at hmap
  · intro j m hm hjold hjnew hp hl hr
    rw [hn] at hm
    cases hm
    exact Store.fetch_congr
      (Store.node_substituted_of_ne (Ne.symm hjold) (Ne.symm hjnew) hl hr hp)
      (congrFun (Store.payload_substituted ..) j)
  · intro order
    refine ⟨_, (h.traverses order).walk_eq, ?_⟩
    rw [← Order.list_map]
    exact (h'.traverses order).walk_eq
  · intro order j hreach
    have hin := (h.represents.reaches_iff j).mp hreach
    obtain ⟨before, after, hlist⟩ := List.append_of_mem ((order.perm_list _).mem_iff.mpr hin)
    refine ⟨_, (h.traverses order).fromNode_eq before j after hlist, ?_⟩
    refine (h'.traverses order).fromNode_eq (before.map (relabel old new)) _
      (after.map (relabel old new)) ?_
    rw [Order.list_map, hlist, List.map_append, List.map_cons]

variable [Listener σ]

/-- Replacing a node of the tree by a record that is not linked renames it. -/
theorem Tree.Keeps.renames_replace (h : t.Keeps s shape) (hold : old ∈ shape.inorder)
    (hm : s.node new = .ok m) (hstate : m.state ≠ .linked) :
    (t.replace old new).Returns s x (fun t' s' x' => x' = x ∧ t.Renamed s old new t' s')
      fun _ _ _ => False := by
  obtain ⟨n, hn, hlinked⟩ := h.spells.exists_linked hold
  have hnew : new ∉ shape.inorder := fun hin => hstate (h.state_eq hin hm)
  rw [returns_replace_iff hn hlinked hm hstate,
    h.toHasShape.returns_substitute_iff hold hn (Store.lt_of_node hm)]
  exact ⟨rfl, h.toHasShape.renamed hold hn hnew (Store.lt_of_node hm)⟩

end Replace

/-! ### Cached trees -/

/-- So is the cached tree of `t'` that of `t`, with the cached node renamed, if it is `old`, and
with its own walks. -/
structure CachedTree.Renamed (t : CachedTree) (s : Store ρ) (old new : RecordId) (t' : CachedTree)
    (s' : Store ρ) : Prop extends t.tree.Renamed s old new t'.tree s' where
  leftmost_eq : t'.leftmost = t.leftmost.map (relabel old new)
  cursor_eq : ∀ order, ∃ cursor cursor' l, t.cursor s order = .ok cursor ∧
    cursor.toList s = .ok l ∧ t'.cursor s' order = .ok cursor' ∧
      cursor'.toList s' = .ok (l.map (relabel old new))
  ascending_eq : ∃ l, t.ascending.toList s = .ok l ∧
    t'.ascending.toList s' = .ok (l.map (relabel old new))

/-- Without a cached node the walks start where those of the tree do. -/
theorem CachedTree.cursor_of_none {t : CachedTree} (h : t.leftmost = none) (order : Order) :
    t.cursor s order = t.tree.cursor s order := by
  cases order <;> simp [cursor, h]

/-- The ascending walk starts at the cached node. -/
theorem CachedTree.cursor_of_some {t : CachedTree} {j : RecordId} (h : t.leftmost = some j)
    (s : Store ρ) : t.cursor s .ascending = .ok (.fromNode j .ascending) := by
  simp [cursor, h, pure, Except.pure]

/-- The cached node is renamed with the others. -/
theorem CachedTree.renamed_of_tree {t t' : CachedTree} {old new : RecordId}
    (h : t.tree.Renamed s old new t'.tree s')
    (hleftmost : t'.leftmost = t.leftmost.map (relabel old new))
    (hreach : ∀ j ∈ t.leftmost, s.Reaches t.tree.root j) : t.Renamed s old new t' s' where
  toRenamed := h
  leftmost_eq := hleftmost
  cursor_eq order := by
    obtain ⟨l, hwalk, hwalk'⟩ := h.walk_eq order
    obtain ⟨cursor, hcursor, hlist⟩ := except_bind_eq_ok.mp hwalk
    obtain ⟨cursor', hcursor', hlist'⟩ := except_bind_eq_ok.mp hwalk'
    -- A cached node only matters in ascending order, where it is the start.
    cases hfirst : t.leftmost with
    | none =>
      rw [hfirst] at hleftmost
      exact ⟨cursor, cursor', l, (cursor_of_none hfirst order).trans hcursor, hlist,
        (cursor_of_none hleftmost order).trans hcursor', hlist'⟩
    | some j =>
      rw [hfirst] at hleftmost
      cases order with
      | descending | postOrder | preOrder =>
        exact ⟨cursor, cursor', l, hcursor, hlist, hcursor', hlist'⟩
      | ascending =>
        obtain ⟨rest, hrest, hrest'⟩ := h.fromNode_eq .ascending j (hreach j hfirst)
        exact ⟨_, _, rest, cursor_of_some hfirst s, hrest, cursor_of_some hleftmost s', hrest'⟩
  ascending_eq := by
    rw [ascending, ascending, hleftmost]
    cases hfirst : t.leftmost with
    | none => exact ⟨[], rfl, rfl⟩
    | some j => exact h.fromNode_eq .ascending j (hreach j hfirst)

/-- A replacement in a cached tree is one in the tree. -/
theorem CachedTree.renames_replace [LawfulLinked ρ] [Listener σ] {t : CachedTree} {shape : Shape}
    {old new : RecordId} {m : Node} {x : σ} (h : t.tree.Keeps s shape)
    (hfirst : ∀ j ∈ t.leftmost, j ∈ shape.inorder) (hold : old ∈ shape.inorder)
    (hm : s.node new = .ok m) (hstate : m.state ≠ .linked) :
    (t.replace old new).Returns s x (fun t' s' x' => x' = x ∧ t.Renamed s old new t' s')
      fun _ _ _ => False := by
  rw [replace, Guarded.returns_bind]
  refine (h.renames_replace hold hm hstate).mono ?_ fun _ _ _ hr => hr
  rintro tree s' x' ⟨hx, hrenamed⟩
  refine Guarded.returns_pure.mpr ⟨hx, renamed_of_tree hrenamed ?_ fun j hj =>
    (h.represents.reaches_iff j).mpr (hfirst j hj)⟩
  show (if t.leftmost = some old then some new else t.leftmost) = _
  cases hcache : t.leftmost with
  | none => rfl
  | some j =>
    by_cases hj : j = old
    · subst hj
      simp
    · simp [hj, relabel_of_ne hj]

end RecordTree
