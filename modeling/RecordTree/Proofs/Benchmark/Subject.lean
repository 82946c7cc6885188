import RecordTree.Benchmark.Run
import RecordTree.Proofs.CachedTree
import RecordTree.Proofs.Forest.Invariant
import RecordTree.Proofs.Tree.Find
import RecordTree.Proofs.Walk.PostOrder

/-!
# `RecordTree.Proofs.Benchmark.Subject`: what the benchmark can rely on

`Subject.Lawful` says what the benchmark needs of a kind of tree: an insertion and a deletion
settle one node and change no keys, and a walk begins where one over the plain tree does. Both
kinds are lawful.

`Subject.Sound` is then the state of the items between two calls. The records that are linked are
the nodes of the tree, and they are sorted by their keys.

* `Subject.Sound.returns_insert`, `Subject.Sound.returns_delete`: the calls keep it.
* `Subject.Sound.lookUp_eq`: a node that is looked up is found, or another one of the same key.
-/

set_option autoImplicit false

namespace RecordTree.Benchmark

open Std

/-- The order of items by their keys. -/
def byKey (a b : Item) : Ordering := compare a.key b.key

instance : TransCmp byKey := inferInstanceAs (TransCmp (compareOn Item.key))

/-- The comparator of the benchmark answers by the keys. -/
theorem compareKey_answers : compareKey.Answers byKey := Comparator.answers_of byKey

/-- The order by keys does not look at nodes. -/
theorem byKey_withNode (r : Item) (n : Node) : byKey (Linked.withNode r n) r = .eq :=
  Std.compare_self

namespace Subject

/-- What the benchmark needs of a kind of tree. -/
class Lawful (τ : Type) [Subject τ] where
  /-- What a handle keeps between calls. -/
  Keeps : τ → Store Item → Shape → Prop
  keeps_empty (s : Store Item) : Keeps Subject.empty s .leaf
  tree_keeps {t : τ} {s : Store Item} {shape : Shape} :
    Keeps t s shape → (Subject.tree t).Keeps s shape
  congr {t : τ} {s s' : Store Item} {shape : Shape} : Keeps t s shape →
    (∀ j ∈ shape.inorder, s'.node j = s.node j) → Keeps t s' shape
  cursor_eq {t : τ} {s : Store Item} {shape : Shape} : Keeps t s shape → ∀ order,
    Subject.cursor t s order = (Subject.tree t).cursor s order
  returns_insert {t : τ} {s : Store Item} {shape : Shape} {id : RecordId} {n : Node} :
    Keeps t s shape → s.node id = .ok n → n.state ≠ .linked →
    (Subject.insert t id).Returns s ()
      (fun t' s' _ => ∃ C : Context, shape = C.fill .leaf ∧
        C.Follows (s.OrdersBefore byKey id) ∧ ∃ shape',
          Settled s shape.inorder (C.before ++ id :: C.after) (Subject.tree t') s' shape' ∧
            Keeps t' s' shape' ∧ s'.payload = s.payload)
      fun _ _ _ => False
  returns_delete {t : τ} {s : Store Item} {shape : Shape} {id : RecordId} {l r : List RecordId} :
    Keeps t s shape → shape.inorder = l ++ id :: r →
    (Subject.delete t id).Returns s ()
      (fun t' s' _ => ∃ shape', Settled s shape.inorder (l ++ r) (Subject.tree t') s' shape' ∧
        Keeps t' s' shape' ∧ s'.payload = s.payload)
      fun _ _ _ => False

instance : Lawful Tree where
  Keeps := Tree.Keeps
  keeps_empty := Tree.keeps_empty
  tree_keeps h := h
  congr := Tree.Keeps.congr
  cursor_eq _ _ := rfl
  returns_insert {t s shape id n} h hn hstate := by
    refine (Tree.returns_insertWith (x := ()) (Augmentation.turns_none fun p _ => p = s.payload)
      (Augmentation.grows_none (fun p _ => p = s.payload) id) compareKey h hn
      fun _ _ => rfl).mono ?_ fun _ _ _ hr => hstate hr.1
    intro t' s' x hdone
    obtain ⟨-, C, hshape, hfollows, k, -, shape', hs, hpayload⟩ := hdone
    exact ⟨C, hshape, hfollows byKey compareKey_answers, shape', hs, hs.keeps, hpayload⟩
  returns_delete {t s shape id l r} h hlist := by
    refine (Tree.returns_deleteWith (x := ()) (Augmentation.turns_none fun p _ => p = s.payload)
      (Augmentation.shrinks_none (fun p _ => p = s.payload) id) h hlist rfl).mono ?_
      fun _ _ _ hr => hr
    intro t' s' x hdone
    obtain ⟨k, -, shape', hs, hpayload⟩ := hdone
    exact ⟨shape', hs, hs.keeps, hpayload⟩

instance : Lawful CachedTree where
  Keeps := CachedTree.Keeps
  keeps_empty := CachedTree.keeps_empty
  tree_keeps h := h.keeps
  congr := CachedTree.Keeps.congr
  cursor_eq {t s shape} h order := by
    show t.cursor s order = t.tree.cursor s order
    cases order with
    | ascending => exact (h.cursor_towards .right).trans (h.keeps.cursor_towards .right).symm
    | descending | postOrder | preOrder => cases hleftmost : t.leftmost <;> rfl
  returns_insert {t s shape id n} h hn hstate := by
    refine (CachedTree.returns_insertWith (x := ())
      (Augmentation.turns_none fun p _ => p = s.payload)
      (Augmentation.grows_none (fun p _ => p = s.payload) id) compareKey h hn
      fun _ _ => rfl).mono ?_ fun _ _ _ hr => hstate hr.1
    intro t' s' x hdone
    obtain ⟨-, C, hshape, hfollows, k, -, shape', hs, hleftmost, hpayload⟩ := hdone
    exact ⟨C, hshape, hfollows byKey compareKey_answers, shape', hs, ⟨hs.keeps, hleftmost⟩,
      hpayload⟩
  returns_delete {t s shape id l r} h hlist := by
    refine (CachedTree.returns_deleteWith (x := ())
      (Augmentation.turns_none fun p _ => p = s.payload)
      (Augmentation.shrinks_none (fun p _ => p = s.payload) id) h hlist rfl).mono ?_
      fun _ _ _ hr => hr
    intro t' s' x hdone
    obtain ⟨k, -, shape', hs, hleftmost, hpayload⟩ := hdone
    exact ⟨shape', hs, ⟨hs.keeps, hleftmost⟩, hpayload⟩

variable {τ : Type} [Subject τ] [Lawful τ] {t : τ} {s : Store Item} {shape : Shape} {id : RecordId}

/-- The items between two calls: those that are linked are the nodes of the tree, and their keys
ascend. -/
structure Sound (t : τ) (s : Store Item) (shape : Shape) : Prop where
  keeps : Lawful.Keeps t s shape
  sorted : s.Sorted byKey shape.inorder
  mem_of_linked : ∀ id n, s.node id = .ok n → n.state = .linked → id ∈ shape.inorder

namespace Sound

/-- The links of a sound tree spell out a red-black tree. -/
theorem tree_keeps (h : Sound t s shape) : (Subject.tree t).Keeps s shape :=
  Lawful.tree_keeps h.keeps

/-- In a sound tree exactly the nodes are linked. -/
theorem linked_iff (h : Sound t s shape) {n : Node} (hn : s.node id = .ok n) :
    n.state = .linked ↔ id ∈ shape.inorder :=
  ⟨h.mem_of_linked id n hn, fun hin => h.tree_keeps.state_eq hin hn⟩

/-- Fresh items, before any of them is inserted. -/
theorem of_fresh (hfresh : ∀ id n, s.node id = .ok n → n = {}) :
    Sound (Subject.empty : τ) s .leaf where
  keeps := Lawful.keeps_empty s
  sorted := .nil
  mem_of_linked id n hn hstate := by
    rw [hfresh id n hn] at hstate
    cases hstate

/-- A new item is in no tree yet. -/
theorem push (h : Sound t s shape) (key : UInt64) : Sound t (s.push { key }) shape := by
  have hlt : ∀ j ∈ shape.inorder, j < s.size := fun j hj => h.tree_keeps.lt_size hj
  refine ⟨Lawful.congr h.keeps fun j hj => Store.node_push_of_lt _ (hlt j hj), ?_, ?_⟩
  · exact h.sorted.congr fun j hj => Store.keepsOrder_push _ (hlt j hj)
  · intro id n hn hstate
    rcases Store.node_of_push hn with hn | ⟨-, rfl⟩
    · exact h.mem_of_linked id n hn hstate
    · cases hstate

/-- What is settled without a change of keys, in an order in which it was sorted before, is
sound. -/
theorem of_settled {old new : List RecordId} {t' : τ} {s' : Store Item} {shape' : Shape}
    (hs : Settled s old new (Subject.tree t') s' shape') (hkeeps : Lawful.Keeps t' s' shape')
    (hpayload : s'.payload = s.payload) (hsorted : s.Sorted byKey new)
    (hlinked : ∀ id n, s.node id = .ok n → n.state = .linked → id ∈ old) : Sound t' s' shape' where
  keeps := hkeeps
  sorted := by
    rw [hs.inorder]
    refine hsorted.congr fun j hj => Store.keepsOrder_of_payload byKey_withNode hpayload ?_
    rw [← hs.inorder] at hj
    rw [← hs.size]
    exact hs.keeps.lt_size hj
  mem_of_linked _ _ := hs.mem_of_linked hlinked

/-- An insertion of an item that is not linked adds it to the nodes, and changes no key. -/
theorem returns_insert (h : Sound t s shape) (hid : id < s.size) (hout : id ∉ shape.inorder) :
    (Subject.insert t id).Returns s ()
      (fun t' s' _ => ∃ shape', Sound t' s' shape' ∧ s'.payload = s.payload ∧
        ∀ j, j ∈ shape'.inorder ↔ j = id ∨ j ∈ shape.inorder)
      fun _ _ _ => False := by
  obtain ⟨n, hn⟩ := Store.exists_node_of_lt hid
  have hstate : n.state ≠ .linked := fun hlinked => hout (h.mem_of_linked id n hn hlinked)
  refine (Lawful.returns_insert h.keeps hn hstate).mono ?_ fun _ _ _ hr => hr
  intro t' s' x hdone
  obtain ⟨C, hshape, hfollows, shape', hs, hkeeps, hpayload⟩ := hdone
  have hold : shape.inorder = C.before ++ C.after := by
    rw [hshape, Context.inorder_fill_leaf]
    rfl
  have hlt : ∀ j ∈ C.before, j < s.size := by
    intro j hj
    refine h.tree_keeps.lt_size ?_
    rw [hold]
    exact List.mem_append_left _ hj
  -- In a sorted tree the descent divides the nodes by the order.
  have hsorted := h.sorted
  rw [hold] at hsorted
  obtain ⟨hbefore, hafter⟩ := hfollows.divides (hsorted.pairwise_ordersBefore id)
  have hnew := hsorted.insert hid hlt hbefore hafter
  refine ⟨shape', of_settled hs hkeeps hpayload hnew h.mem_of_linked, hpayload, fun j => ?_⟩
  rw [hs.inorder, hold, List.perm_middle.mem_iff, List.mem_cons]

/-- A deletion of a node takes it out, and changes no key. -/
theorem returns_delete (h : Sound t s shape) (hin : id ∈ shape.inorder) :
    (Subject.delete t id).Returns s ()
      (fun t' s' _ => ∃ shape', Sound t' s' shape' ∧ s'.payload = s.payload ∧
        ∀ j, j ∈ shape'.inorder ↔ j ≠ id ∧ j ∈ shape.inorder)
      fun _ _ _ => False := by
  obtain ⟨l, r, hlist⟩ := List.append_of_mem hin
  refine (Lawful.returns_delete h.keeps hlist).mono ?_ fun _ _ _ hr => hr
  intro t' s' x hdone
  obtain ⟨shape', hs, hkeeps, hpayload⟩ := hdone
  -- A sorted list stays sorted without one of its members.
  have hnew : s.Sorted byKey (l ++ r) := by
    have hsorted := h.sorted
    rw [hlist] at hsorted
    exact hsorted.sublist ((List.sublist_cons_self id r).append_left l)
  refine ⟨shape', of_settled hs hkeeps hpayload hnew h.mem_of_linked, hpayload, fun j => ?_⟩
  have hnodup := h.tree_keeps.nodup
  rw [hlist] at hnodup ⊢
  have hnot := notMem_of_nodup_middle hnodup
  rw [hs.inorder, List.perm_middle.mem_iff, List.mem_cons]
  constructor
  · intro hj
    exact ⟨ne_of_mem_of_not_mem hj hnot, .inr hj⟩
  · intro hj
    exact hj.2.resolve_left hj.1

/-- Looking up an item comes to an end, and finds one if the item is linked. -/
theorem lookUp_eq (h : Sound t s shape) (hid : id < s.size) :
    ∃ found, lookUp t s id = .ok found ∧ (id ∈ shape.inorder → found ≠ none) := by
  obtain ⟨r, hr⟩ := Store.exists_fetch_of_lt hid
  obtain ⟨found, x, hrun, hfinds⟩ :=
    h.tree_keeps.toHasShape.returns_find (.of (byKey · r)) ()
  refine ⟨found, ?_, fun hin => ?_⟩
  · have hprobe : probeKey r.key = .of (byKey · r) := rfl
    rw [lookUp, hr]
    simp only [bind, Except.bind, hprobe, StateT.run', hrun]
    rfl
  · rintro rfl
    have hnone := hfinds _ (Probe.answers_of _) (h.sorted.rises r)
    exact hnone id hin r hr ReflCmp.compare_self

/-- The height that is measured is that of the shape. -/
theorem shape_eq (h : Sound t s shape) : (Subject.tree t).shape s = .ok shape :=
  h.tree_keeps.toHasShape.shape_eq

/-- Both walks visit all nodes. -/
theorem exists_count (h : Sound t s shape) {order : Order}
    (horder : order = .ascending ∨ order = .postOrder) :
    ∃ cursor, Subject.cursor t s order = .ok cursor ∧ cursor.count s = .ok shape.size := by
  have hkeeps := h.tree_keeps
  rw [Lawful.cursor_eq h.keeps order]
  rcases horder with rfl | rfl
  · refine ⟨_, hkeeps.toHasShape.cursor_towards .right, ?_⟩
    rw [← Shape.length_inorder]
    exact Cursor.count_eq hkeeps.visits_ascending hkeeps.length_le
  · refine ⟨_, hkeeps.toHasShape.cursor_postOrder, ?_⟩
    rw [← Shape.length_postorder]
    refine Cursor.count_eq hkeeps.visits_postOrder ?_
    rw [Shape.length_postorder]
    exact hkeeps.size_le

end Sound

end Subject

end RecordTree.Benchmark
