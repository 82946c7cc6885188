import RecordTree.CachedTree
import RecordTree.Proofs.Tree.Clear
import RecordTree.Proofs.Tree.Erase
import RecordTree.Proofs.Tree.Insert
import RecordTree.Proofs.Tree.Reject
import RecordTree.Proofs.Tree.Replace
import RecordTree.Proofs.Tree.Validate
import RecordTree.Proofs.Walk.Cursor

/-!
# `RecordTree.Proofs.CachedTree`: the cache names the first node

`CachedTree.Keeps` adds to what a tree keeps that the cached node is the first one. The calls on
a cached tree do to the tree what the plain ones do, and keep the cache right:

* an insertion goes in front of all nodes exactly if its descent went left all the way
  (`CachedTree.returns_insertWith`),
* a deletion changes which node is first only if it takes that one out, when the next one
  follows (`CachedTree.returns_deleteWith`),
* and a replacement only if it puts another node in the place of that one
  (`CachedTree.returns_replace`).
-/

set_option autoImplicit false

namespace RecordTree

variable {ρ σ : Type} [Linked ρ]

namespace CachedTree

/-- The handle's records spell out a red-black tree, and the cache names its first node. -/
structure Keeps (t : CachedTree) (s : Store ρ) (shape : Shape) : Prop where
  keeps : t.tree.Keeps s shape
  leftmost_eq : t.leftmost = shape.inorder.head?

/-- An empty handle keeps the empty shape in every store. -/
theorem keeps_empty (s : Store ρ) : empty.Keeps s .leaf := ⟨Tree.keeps_empty s, rfl⟩

/-- What a cached tree keeps depends on its nodes only. -/
theorem Keeps.congr {s s' : Store ρ} {t : CachedTree} {shape : Shape} (h : t.Keeps s shape)
    (hs : ∀ j ∈ shape.inorder, s'.node j = s.node j) : t.Keeps s' shape :=
  ⟨h.keeps.congr hs, h.leftmost_eq⟩

/-- The walk from the cached node begins with the first one. -/
theorem Keeps.ascending_eq {s : Store ρ} {t : CachedTree} {shape : Shape} (h : t.Keeps s shape) :
    t.ascending = ⟨.ascending, shape.inorder.head?⟩ := by
  rw [ascending, h.leftmost_eq]

/-- The walks in order begin where those of the tree do. -/
theorem Keeps.cursor_towards {s : Store ρ} {t : CachedTree} {shape : Shape} (h : t.Keeps s shape)
    (side : Side) :
    t.cursor s (.towards side) = .ok ⟨.towards side, (side.order shape.inorder).head?⟩ := by
  have htree := h.keeps.cursor_towards side
  cases side with
  | left => exact htree
  | right =>
    -- Without a cached node the handle asks the tree for the first one.
    cases hleftmost : t.leftmost with
    | none => simpa only [cursor, Order.towards, hleftmost] using htree
    | some id =>
      rw [h.leftmost_eq] at hleftmost
      simp only [cursor, Order.towards, Side.order, h.leftmost_eq, hleftmost]
      rfl

/-- A validation answers with the black height of the tree. -/
theorem Keeps.passes_validate {s : Store ρ} {t : CachedTree} {shape : Shape} {height : Nat}
    {order : ρ → ρ → Ordering} [Std.OrientedCmp order] {compare : Comparator ρ σ}
    (h : t.Keeps s shape) (hheight : shape.Balanced height) (hanswers : compare.Answers order)
    (hsorted : s.Sorted order shape.inorder) (x : σ) :
    (t.validate s compare).Passes x fun answer _ => answer = height := by
  simp only [validate, Check.passes_bind, Check.passes_read, Check.passes_refuse,
    Check.passes_pure]
  refine (h.keeps.passes_validate hheight hanswers hsorted x).mono fun answer _ hanswer => ?_
  exact ⟨_, h.keeps.first_eq, by simp [h.leftmost_eq], hanswer⟩

/-- What comes first when `id` is put between `l` and `r`. -/
theorem head?_insert (l r : List RecordId) (id : RecordId) :
    (l ++ id :: r).head? = if l.isEmpty then some id else (l ++ r).head? := by
  cases l <;> rfl

/-- A node of a list without repetitions comes first if nothing comes before it. -/
theorem head?_eq_some_iff_of_nodup {l r : List RecordId} {id : RecordId}
    (h : (l ++ id :: r).Nodup) : (l ++ id :: r).head? = some id ↔ l = [] := by
  cases l with
  | nil => simp
  | cons j l =>
    have hne : j ≠ id := by
      rintro rfl
      exact (List.nodup_cons.mp h).1 (by simp)
    simp [hne]

/-- The cached node is the one that no other node comes before. -/
theorem Keeps.leftmost_eq_some_iff {s : Store ρ} {t : CachedTree} {shape : Shape}
    {l r : List RecordId} {id : RecordId} (h : t.Keeps s shape)
    (hlist : shape.inorder = l ++ id :: r) : t.leftmost = some id ↔ l = [] := by
  have hnodup := h.keeps.nodup
  rw [hlist] at hnodup
  rw [h.leftmost_eq, hlist, head?_eq_some_iff_of_nodup hnodup]

variable [LawfulLinked ρ] [Listener σ] {aug : Augmentation ρ σ}
  {Right : Nat → Payloads ρ → σ → Shape → Prop} {Was : Payloads ρ → σ → Shape → Prop}
  {s : Store ρ} {x : σ} {t : CachedTree} {id : RecordId}

/-- Linking at an empty position whose flag tells whether it is the first one. -/
theorem returns_linkWith (turns : aug.Turns Right) (grows : aug.Grows id Was (Right 0))
    {C : Context} {vacancy : Vacancy} {n : Node} (h : t.Keeps s (C.fill .leaf))
    (hn : s.node id = .ok n) (hslot : vacancy.slot.Names C)
    (hflag : vacancy.leftmost = C.before.isEmpty)
    (hwas : n.state ≠ .linked → Was s.payload x (C.fill .leaf)) :
    (t.linkWith aug vacancy id).Returns s x
      (fun t' s' x' => n.state ≠ .linked ∧ ∃ k ≤ 2, ∃ shape,
        Settled s (C.fill .leaf).inorder (C.before ++ id :: C.after) t'.tree s' shape ∧
          t'.leftmost = shape.inorder.head? ∧ Right k s'.payload x' shape)
      (fun r s' x' => n.state = .linked ∧ r = .stillLinked id n.parent ∧ s' = s ∧
        x' = Listener.hear r x) := by
  rw [linkWith, Guarded.returns_bind]
  refine (Tree.returns_linkWith turns grows h.keeps hn hslot hwas).mono ?_ fun r s' x' hr => hr
  rintro tree s' x' ⟨hstate, k, hk, shape, hs, hright⟩
  -- The flag tells whether anything comes before the position, and so which node is first now.
  refine Guarded.returns_pure.mpr ⟨hstate, k, hk, shape, hs, ?_, hright⟩
  rw [hs.inorder, head?_insert, ← hflag, h.leftmost_eq, Context.inorder_fill_leaf]
  rfl

/-- Inserting by a comparator. -/
theorem returns_insertWith (turns : aug.Turns Right) (grows : aug.Grows id Was (Right 0))
    {shape : Shape} (compare : Comparator ρ σ) (h : t.Keeps s shape) {n : Node}
    (hn : s.node id = .ok n) (hwas : n.state ≠ .linked → ∀ x', Was s.payload x' shape) :
    (t.insertWith aug id compare).Returns s x
      (fun t' s' x' => n.state ≠ .linked ∧ ∃ C : Context, shape = C.fill .leaf ∧
        (∀ order, compare.Answers order → C.Follows (s.OrdersBefore order id)) ∧
        ∃ k ≤ 2, ∃ shape',
          Settled s shape.inorder (C.before ++ id :: C.after) t'.tree s' shape' ∧
            t'.leftmost = shape'.inorder.head? ∧ Right k s'.payload x' shape')
      (fun r s' _ => n.state = .linked ∧ r = .stillLinked id n.parent ∧ s' = s) := by
  obtain ⟨C, x₁, rfl, hdesc, hfollow⟩ :=
    Tree.returns_descend compare x h.keeps.toHasShape (Store.lt_of_node hn)
  simp only [insertWith, findSlot, Guarded.returns_bind, Guarded.returns_update,
    Update.returns_query]
  refine ⟨_, x₁, hdesc, ?_⟩
  refine (returns_linkWith turns grows h hn C.names_slot rfl fun hstate =>
    hwas hstate x₁).mono ?_ ?_
  · rintro t' s' x' ⟨hstate, hdone⟩
    exact ⟨hstate, C, rfl, hfollow, hdone⟩
  · rintro r s' x' ⟨hstate, hr, hs, -⟩
    exact ⟨hstate, hr, hs⟩

/-- Deleting a node of the tree. -/
theorem returns_deleteWith (turns : aug.Turns Right) (shrinks : aug.Shrinks id Was (Right 0))
    {shape : Shape} {l r : List RecordId} (h : t.Keeps s shape)
    (hlist : shape.inorder = l ++ id :: r) (hwas : Was s.payload x shape) :
    (t.deleteWith aug id).Returns s x
      (fun t' s' x' => ∃ k ≤ 3, ∃ shape',
        Settled s shape.inorder (l ++ r) t'.tree s' shape' ∧
          t'.leftmost = shape'.inorder.head? ∧ Right k s'.payload x' shape')
      (fun _ _ _ => False) := by
  have hdelete := Tree.returns_deleteWith turns shrinks h.keeps hlist hwas
  unfold deleteWith
  by_cases hcache : t.leftmost = some id
  · -- The node stands nowhere else, so nothing comes before it.
    obtain rfl := (h.leftmost_eq_some_iff hlist).mp hcache
    simp only [if_pos hcache, Guarded.returns_bind, Guarded.returns_update, Update.returns_read]
    -- The next node is read off before the deletion moves any links.
    refine ⟨_, h.keeps.next_eq hlist, hdelete.mono ?_ fun _ _ _ hr => hr⟩
    rintro tree s' x' ⟨k, hk, shape', hs, hright⟩
    exact Guarded.returns_pure.mpr ⟨k, hk, shape', hs, by rw [hs.inorder]; rfl, hright⟩
  · simp only [if_neg hcache, Guarded.returns_bind]
    refine hdelete.mono ?_ fun _ _ _ hr => hr
    rintro tree s' x' ⟨k, hk, shape', hs, hright⟩
    refine Guarded.returns_pure.mpr ⟨k, hk, shape', hs, ?_, hright⟩
    rw [hs.inorder]
    show t.leftmost = _
    cases l with
    | nil => exact absurd ((h.leftmost_eq_some_iff hlist).mpr rfl) hcache
    | cons j l =>
      rw [h.leftmost_eq, hlist]
      rfl

omit [LawfulLinked ρ] in
/-- A node that is not linked cannot be deleted. -/
theorem rejects_deleteWith {shape : Shape} (h : t.Keeps s shape) {n : Node}
    (hn : s.node id = .ok n) (hstate : n.state ≠ .linked) :
    (t.deleteWith aug id).Returns s x (fun _ _ _ => False)
      (fun r s' x' => s' = s ∧ x' = Listener.hear r x ∧
        (r = .alreadyRemoved id ∧ n.state = .removed ∨
          r = .neverInserted id ∧ n.state = .detached)) := by
  -- The cached node is linked, so it is not this one, and nothing is read before the guard.
  have hcache : t.leftmost ≠ some id := by
    intro hcache
    rw [h.leftmost_eq] at hcache
    exact hstate (h.keeps.state_eq (List.mem_of_head? hcache) hn)
  simp only [deleteWith, if_neg hcache, Guarded.returns_bind]
  exact (Tree.rejects_deleteWith hn hstate).mono (fun _ _ _ hf => hf.elim) fun _ _ _ hr => hr

/-- Putting a node that is not linked in the place of a node of the tree. -/
theorem returns_replace {shape : Shape} {l r : List RecordId} {old new : RecordId} {n : Node}
    (h : t.Keeps s shape) (hlist : shape.inorder = l ++ old :: r) (hn : s.node new = .ok n)
    (hstate : n.state ≠ .linked) :
    (t.replace old new).Returns s x
      (fun t' s' x' => ∃ shape', Settled s shape.inorder (l ++ new :: r) t'.tree s' shape' ∧
        t'.leftmost = shape'.inorder.head? ∧ s'.payload = s.payload ∧ x' = x)
      (fun _ _ _ => False) := by
  rw [replace, Guarded.returns_bind]
  refine (Tree.returns_replace h.keeps hlist hn hstate).mono ?_ fun _ _ _ hr => hr
  rintro tree s' x' ⟨shape', hs, hpayload, hx⟩
  refine Guarded.returns_pure.mpr ⟨shape', hs, ?_, hpayload, hx⟩
  rw [hs.inorder]
  show (if t.leftmost = some old then some new else t.leftmost) = _
  cases l with
  | nil =>
    rw [if_pos ((h.leftmost_eq_some_iff hlist).mpr rfl)]
    rfl
  | cons j l =>
    rw [if_neg fun hold => List.cons_ne_nil j l ((h.leftmost_eq_some_iff hlist).mp hold),
      h.leftmost_eq, hlist]
    rfl

omit [LawfulLinked ρ] in
/-- A node that is not linked has no place to give, and one that is linked can take none. -/
theorem rejects_replace {old new : RecordId} {n m : Node} (hold : s.node old = .ok n)
    (hnew : s.node new = .ok m) (hstate : n.state ≠ .linked ∨ m.state = .linked) :
    (t.replace old new).Returns s x (fun _ _ _ => False)
      (fun r s' x' => s' = s ∧ x' = Listener.hear r x) := by
  rw [replace, Guarded.returns_bind]
  exact (Tree.rejects_replace hold hnew hstate).mono (fun _ _ _ hf => hf.elim) fun _ _ _ hr => hr

omit [Listener σ] in
/-- Clearing wipes all nodes of the tree. -/
theorem returns_clear {shape : Shape} (h : t.Keeps s shape) :
    (t.clear : Update ρ σ (CachedTree × Nat)).Returns s x fun (t', n) s' x' =>
      t' = .empty ∧ n = shape.inorder.length ∧ x' = x ∧ s'.payload = s.payload ∧
        Settled s shape.inorder [] t'.tree s' .leaf := by
  simp only [clear, Update.returns_bind]
  refine (Tree.returns_clear h.keeps).mono ?_
  rintro ⟨tree, n⟩ s' x' ⟨rfl, hn, hx, hpayload, hs⟩
  exact Update.returns_pure.mpr ⟨rfl, hn, hx, hpayload, hs⟩

/-! ### What the guards turn down -/

omit [LawfulLinked ρ]

/-- A link that the guards turn down leaves the store as it was. -/
theorem rejectsSilently_linkWith (aug : Augmentation ρ σ) (t : CachedTree) (vacancy : Vacancy)
    (id : RecordId) : (t.linkWith aug vacancy id).RejectsSilently :=
  (t.tree.rejectsSilently_linkWith aug vacancy.slot id).bind_pure

/-- So does an insertion. -/
theorem rejectsSilently_insertWith (aug : Augmentation ρ σ) (t : CachedTree) (id : RecordId)
    (compare : Comparator ρ σ) : (t.insertWith aug id compare).RejectsSilently :=
  (Guarded.silent_query _).bind_rejectsSilently fun vacancy =>
    t.rejectsSilently_linkWith aug vacancy id

/-- So does a deletion, although the cache looks for the next node before the guard is asked. -/
theorem rejectsSilently_deleteWith (aug : Augmentation ρ σ) (t : CachedTree) (id : RecordId) :
    (t.deleteWith aug id).RejectsSilently := by
  have hdelete := t.tree.rejectsSilently_deleteWith aug id
  unfold deleteWith
  split_ifs
  · exact (Guarded.silent_read _).bind_rejectsSilently fun _ => hdelete.bind_pure
  · exact hdelete.bind_pure

/-- So does a replacement. -/
theorem rejectsSilently_replace (t : CachedTree) (old new : RecordId) :
    (t.replace old new : Guarded ρ σ CachedTree).RejectsSilently :=
  (t.tree.rejectsSilently_replace old new).bind_pure

end CachedTree

end RecordTree
