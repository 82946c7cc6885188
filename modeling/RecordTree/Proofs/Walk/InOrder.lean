import RecordTree.Proofs.Cached.Run
import RecordTree.Proofs.Walk.Drain

/-!
# `RecordTree.Proofs.Walk.InOrder`: deleting along a walk in order

A walk in order goes from a node to its neighbour in the list of nodes, and a deletion takes its
node out of that list and changes no more of it, however it turns the tree. So the node after
the one that was handed out stays the next one (`Sheds.drainable`). This holds of any handle that
deletes like that: of a plain tree (`sheds_tree`) and of a cached one (`sheds_cachedTree`).

`drain_walk_of_reachable` says it of the states that calls lead to.
-/

set_option autoImplicit false

namespace RecordTree

variable {ι ρ σ τ : Type} [Linked ρ] {s s₀ s₁ s₂ : Store ρ} {shape : Shape}

/-! ### One deletion after the other -/

/-- Two calls, of which the first one took no node in. -/
theorem Settled.trans {old mid new : List RecordId} {t₁ t₂ : Tree} {shape₁ shape₂ : Shape}
    (h : Settled s₀ old mid t₁ s₁ shape₁) (h' : Settled s₁ mid new t₂ s₂ shape₂)
    (hsub : mid ⊆ old) : Settled s₀ old new t₂ s₂ shape₂ where
  keeps := h'.keeps
  inorder := h'.inorder
  size := h'.size.trans h.size
  gone j hold hnew := by
    by_cases hmid : j ∈ mid
    · exact h'.gone j hmid hnew
    · rw [h'.frame j hmid hnew]
      exact h.gone j hold hmid
  frame j hold hnew := by
    have hmid : j ∉ mid := fun hin => hold (hsub hin)
    rw [h'.frame j hmid hnew, h.frame j hold hmid]

/-- The tree has some of the nodes `all` that it had in `s₀`. The others have been deleted. -/
structure Remains (s₀ : Store ρ) (all : List RecordId) (t : Tree) (s : Store ρ) (shape : Shape) :
    Prop where
  settled : Settled s₀ all shape.inorder t s shape
  subset : shape.inorder ⊆ all

/-- Before any deletion, all nodes remain. -/
theorem Tree.Keeps.remains {t : Tree} (h : t.Keeps s shape) :
    Remains s shape.inorder t s shape where
  settled := ⟨h, rfl, rfl, fun _ hold hnew => absurd hold hnew, fun _ _ _ => rfl⟩
  subset := fun _ hj => hj

/-- After a deletion, the other nodes that were left remain. -/
theorem Remains.shed {all l r : List RecordId} {id : RecordId} {t t' : Tree} {shape' : Shape}
    (h : Remains s₀ all t s shape) (hlist : shape.inorder = l ++ id :: r)
    (hs : Settled s shape.inorder (l ++ r) t' s₁ shape') : Remains s₀ all t' s₁ shape' where
  settled := by
    rw [hs.inorder]
    exact h.settled.trans hs h.subset
  subset := by
    rw [hs.inorder]
    refine List.Subset.trans ?_ h.subset
    rw [hlist]
    exact ((List.sublist_cons_self id r).append_left l).subset

/-- The handles of a kind delete, whichever node of the tree it is, and go on being what `Held`
says. They hold what remains of the nodes `all`. -/
structure Sheds (delete : τ → RecordId → Guarded ρ σ τ) (tree : τ → Tree)
    (Held : Store ρ → List RecordId → τ → Store ρ → Shape → Prop) : Prop where
  remains {s₀ s : Store ρ} {all : List RecordId} {t : τ} {shape : Shape} :
    Held s₀ all t s shape → Remains s₀ all (tree t) s shape
  delete {s₀ s : Store ρ} {all l r : List RecordId} {t : τ} {x : σ} {shape : Shape}
    {id : RecordId} : Held s₀ all t s shape → shape.inorder = l ++ id :: r →
      (delete t id).Returns s x
        (fun t' s' _ => ∃ shape', shape'.inorder = l ++ r ∧ Held s₀ all t' s' shape')
        fun _ _ _ => False

section Handles

variable [LawfulLinked ρ] [Listener σ]

/-- Plain trees shed their nodes. -/
theorem sheds_tree : Sheds (Tree.delete : Tree → RecordId → Guarded ρ σ Tree) id Remains where
  remains h := h
  delete {s₀ s all l r t x shape id} h hlist := by
    have hdelete := Tree.returns_deleteWith (x := x) (Augmentation.turns_none fun _ _ => True)
      (Augmentation.shrinks_none _ id) h.settled.keeps hlist trivial
    refine hdelete.mono ?_ fun _ _ _ hf => hf
    rintro t' s' x' ⟨k, -, shape', hs, -⟩
    exact ⟨shape', hs.inorder, h.shed hlist hs⟩

/-- The cache goes on naming the first of the nodes that are left. -/
theorem sheds_cachedTree :
    Sheds (CachedTree.delete : CachedTree → RecordId → Guarded ρ σ CachedTree) CachedTree.tree
      fun s₀ all t s shape =>
        Remains s₀ all t.tree s shape ∧ t.leftmost = shape.inorder.head? where
  remains h := h.1
  delete {s₀ s all l r t x shape id} h hlist := by
    obtain ⟨hremains, hleftmost⟩ := h
    have hdelete := CachedTree.returns_deleteWith (x := x)
      (Augmentation.turns_none fun _ _ => True) (Augmentation.shrinks_none _ id)
      ⟨hremains.settled.keeps, hleftmost⟩ hlist trivial
    refine hdelete.mono ?_ fun _ _ _ hf => hf
    rintro t' s' x' ⟨k, -, shape', hs, hleftmost', -⟩
    exact ⟨shape', hs.inorder, hremains.shed hlist hs, hleftmost'⟩

end Handles

/-! ### The drain -/

section Drain

variable {delete : τ → RecordId → Guarded ρ σ τ} {tree : τ → Tree}
  {Held : Store ρ → List RecordId → τ → Store ρ → Shape → Prop}

/-- Whatever a handle holds, the tree in it is red-black. -/
theorem Sheds.keeps (h : Sheds delete tree Held) {all : List RecordId} {t : τ}
    (hheld : Held s₀ all t s shape) : (tree t).Keeps s shape :=
  (h.remains hheld).settled.keeps

/-- A walk in order, to either side, stays right while its nodes are deleted: the next node is a
neighbour of the current one, and still is the next one if that goes. -/
theorem Sheds.drainable (h : Sheds delete tree Held) (s₀ : Store ρ) (all : List RecordId)
    (side : Side) :
    Drainable Cursor.advance delete fun walk rest cursor t s _ =>
      ∃ shape before, Held s₀ all t s shape ∧ shape.inorder = walk ∧
        side.order walk = before ++ rest ∧ cursor = ⟨.towards side, rest.head?⟩ where
  finish := by
    rintro walk cursor t s x ⟨shape, before, -, -, -, rfl⟩
    rfl
  step := by
    rintro walk rest id cursor t s x ⟨shape, before, hheld, rfl, hlist, rfl⟩
    have hshape := (h.keeps hheld).toHasShape
    refine ⟨_, Cursor.advance_eq (hshape.visits_towards side) hlist, ?_, ?_⟩
    · exact ⟨shape, before ++ [id], hheld, rfl, by simp [hlist], rfl⟩
    · obtain ⟨a, b, hsplit, horder⟩ := Side.exists_split hlist
      rw [filter_ne_middle hshape.nodup hsplit]
      refine (h.delete hheld hsplit).mono ?_ fun _ _ _ hf => hf
      rintro t' s' x' ⟨shape', hrest, hheld'⟩
      exact ⟨shape', before, hheld', hrest, horder, rfl⟩

/-- Of the nodes `l` of a walk, those that are `out` have left the tree and are wiped. The walk
goes through the others as it did. No other record's node has changed since `s₀`. -/
structure Thinned (s₀ : Store ρ) (order : Order) (l : List RecordId) (out : RecordId → Bool)
    (t : Tree) (s : Store ρ) : Prop where
  walk_eq : t.walk s order = .ok (l.filter (!out ·))
  reaches_iff : ∀ j, s.Reaches t.root j ↔ j ∈ l ∧ out j = false
  removed : ∀ j ∈ l, out j = true → s.node j = .ok .removed
  frame : ∀ j, j ∉ l → s.node j = s₀.node j
  empty : (∀ j ∈ l, out j = true) → t = .empty

/-- A tree in which some of its nodes remain is thinned, for the walks towards either side. -/
theorem Remains.thinned {l : List RecordId} {t : Tree} {out : RecordId → Bool} (side : Side)
    (h : Remains s₀ l t s shape) (hrest : shape.inorder = l.filter (!out ·)) :
    Thinned s₀ (.towards side) (side.order l) out t s := by
  have hkeeps := h.settled.keeps
  have hmem : ∀ j, j ∈ shape.inorder ↔ j ∈ l ∧ out j = false := by
    intro j
    rw [hrest, List.mem_filter, Bool.not_eq_true']
  refine ⟨?_, fun j => ?_, fun j hj hout => ?_, fun j hj => ?_, fun hall => ?_⟩
  · rw [hkeeps.walk_towards side, Side.filter_order, hrest]
  · rw [hkeeps.represents.reaches_iff, hmem, Side.mem_order]
  · exact h.settled.gone j (Side.mem_order.mp hj) (by simp [hmem, hout])
  · rw [Side.mem_order] at hj
    exact h.settled.frame j hj fun hin => hj (h.subset hin)
  · -- If all nodes are out, nothing is left of the shape.
    have hnone : shape.inorder = [] := by
      rw [List.eq_nil_iff_forall_not_mem]
      intro j hj
      obtain ⟨hin, hout⟩ := (hmem j).mp hj
      simp [hall j (Side.mem_order.mpr hin)] at hout
    have hleaf : shape = .leaf := by
      cases shape with
      | leaf => rfl
      | node c l id r => simp [Shape.inorder] at hnone
    have hroot := hkeeps.root_eq
    rw [hleaf] at hroot
    cases t
    exact congrArg Tree.mk hroot

/-- A drain of a walk in order hands out the whole walk, and thins the tree out. -/
theorem Sheds.drains (h : Sheds delete tree Held) (side : Side) {t : τ}
    (hheld : Held s shape.inorder t s shape) (chosen : Nat → RecordId → Store ρ → Bool) (x : σ) :
    Drains Cursor.advance delete chosen ⟨.towards side, (side.order shape.inorder).head?⟩ t s x
      (side.order shape.inorder) fun out t' s' =>
        Thinned s (.towards side) (side.order shape.inorder) out (tree t') s' ∧
          ∃ shape', Held s shape.inorder t' s' shape' := by
  have hnodup := (h.keeps hheld).nodup
  refine ((h.drainable s shape.inorder side).drains (x := x) chosen
    ⟨shape, [], hheld, rfl, rfl, rfl⟩ (Side.nodup_order.mpr hnodup)).mono ?_
  rintro out t' s' ⟨rest, cursor, x', shape', before, hheld', hrest, -, -⟩
  exact ⟨(h.remains hheld').thinned side hrest, shape', hheld'⟩

end Drain

/-! ### Reachable states -/

variable [LawfulLinked ρ] [DecidableEq ι] [Listener σ]

/-- In every reachable state, of plain trees or of a cached one, the nodes of the ascending and of
the descending walk can be deleted through the handle while the walk's cursor hands them out. The
cursor hands out the walk as it was before the first deletion, and no deletion is turned down. The
tree is left with the other nodes in the order that they had, and a cached one with its first node
in the cache. -/
theorem drain_walk_of_reachable (side : Side) (chosen : Nat → RecordId → Store ρ → Bool) :
    (∀ (f : Forest ι ρ σ) (i : ι), f.Reachable → ∃ l cursor,
      (f.trees i).walk f.store (.towards side) = .ok l ∧ l.Nodup ∧ (∀ j, j ∈ l ↔ f.Holds i j) ∧
      (f.trees i).cursor f.store (.towards side) = .ok cursor ∧
      Drains Cursor.advance Tree.delete chosen cursor (f.trees i) f.store f.context l
        fun out t s => Thinned f.store (.towards side) l out t s) ∧
    ∀ f : Cached ρ σ, f.Reachable → ∃ l cursor,
      f.tree.tree.walk f.store (.towards side) = .ok l ∧ l.Nodup ∧ (∀ j, j ∈ l ↔ f.Holds j) ∧
      f.tree.cursor f.store (.towards side) = .ok cursor ∧
      Drains Cursor.advance CachedTree.delete chosen cursor f.tree f.store f.context l
        fun out t s => Thinned f.store (.towards side) l out t.tree s ∧
          t.tree.first s = .ok t.first := by
  constructor
  · intro f i hreachable
    obtain ⟨shapes, hshaped⟩ := hreachable.exists_shaped
    have hkeeps := hshaped.keeps i
    refine ⟨_, _, hkeeps.walk_towards side, Side.nodup_order.mpr hkeeps.nodup, fun j => ?_,
      hkeeps.cursor_towards side, ?_⟩
    · rw [Side.mem_order, hshaped.holds_iff]
    · exact (sheds_tree.drains side hkeeps.remains chosen f.context).mono
        fun out t s hleaves => hleaves.1
  · intro f hreachable
    obtain ⟨shape, hkeeps⟩ := hreachable.exists_keeps
    refine ⟨_, _, hkeeps.keeps.walk_towards side, Side.nodup_order.mpr hkeeps.keeps.nodup,
      fun j => ?_, hkeeps.cursor_towards side, ?_⟩
    · rw [Side.mem_order, Cached.holds_iff hkeeps]
    · -- The cache goes on naming the first of the nodes that are left.
      refine (sheds_cachedTree.drains side ⟨hkeeps.keeps.remains, hkeeps.leftmost_eq⟩ chosen
        f.context).mono ?_
      rintro out t s ⟨hthinned, shape', hremains, hleftmost⟩
      refine ⟨hthinned, ?_⟩
      rw [hremains.settled.keeps.first_eq, CachedTree.first, hleftmost]

/-- The descending walk over the first tree of `Forest.pair`, with all nodes deleted, empties it.
The ascending walk over the tree of `Cached.sample`, with the first node deleted, leaves the second
one. -/
theorem drain_walk_pair :
    (∃ cursor, (Forest.pair.trees true).cursor Forest.pair.store .descending = .ok cursor ∧
      (drain Cursor.advance Tree.delete (fun _ _ _ => true) 3 0 cursor
        (Forest.pair.trees true)).Returns Forest.pair.store () fun d s _ =>
          d.ids = [1, 0] ∧ d.rejected = none ∧ d.tree = .empty ∧ s.node 0 = .ok .removed) ∧
    ∃ cursor, Cached.sample.tree.cursor Cached.sample.store .ascending = .ok cursor ∧
      (drain Cursor.advance CachedTree.delete (fun _ id _ => id == 0) 3 0 cursor
        Cached.sample.tree).Returns Cached.sample.store () fun d s _ =>
          d.ids = [0, 1] ∧ d.rejected = none ∧ d.tree.tree.walk s .ascending = .ok [1] := by
  constructor
  · obtain ⟨l, cursor, hwalk, -, -, hcursor, hdrains⟩ :=
      (drain_walk_of_reachable .left fun _ _ _ => true).1 _ true Forest.reachable_pair
    cases hwalk
    refine ⟨cursor, hcursor, (hdrains.returns_of_choice (p := fun _ => true) 3).mono ?_⟩
    rintro d s _ ⟨hids, hrejected, hthinned⟩
    have hids : d.ids = [1, 0] := hids
    rw [hids] at hthinned
    exact ⟨hids, hrejected, hthinned.empty (by decide), hthinned.removed 0 (by decide) rfl⟩
  · obtain ⟨l, cursor, hwalk, -, -, hcursor, hdrains⟩ :=
      (drain_walk_of_reachable (ι := Unit) .right fun _ id _ => id == 0).2 _ Cached.reachable_sample
    cases hwalk
    refine ⟨cursor, hcursor, (hdrains.returns_of_choice 3).mono ?_⟩
    rintro d s _ ⟨hids, hrejected, hthinned, -⟩
    have hids : d.ids = [0, 1] := hids
    rw [hids] at hthinned
    exact ⟨hids, hrejected, hthinned.walk_eq⟩

end RecordTree
