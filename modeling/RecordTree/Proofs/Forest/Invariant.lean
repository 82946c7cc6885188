import RecordTree.Proofs.Forest.Basic
import RecordTree.Proofs.Tree.Clear
import RecordTree.Proofs.Tree.Erase
import RecordTree.Proofs.Tree.Insert
import RecordTree.Proofs.Tree.Reject
import RecordTree.Proofs.Tree.Replace

/-!
# `RecordTree.Proofs.Forest.Invariant`: what every run of calls keeps

`Forest.Shaped` is the invariant of a forest: each handle keeps a red-black tree, no record is in
two of them, and a record is in one exactly when its node says so. All calls are alike to it,
since each of them is `Settled`: it moves one tree from a list of nodes to another and leaves
the rest alone (`Forest.Shaped.settle`). What is particular to a call is which list it moves to
(`Call.Takes`).

* `Forest.Shaped.returns_call`: the step. A permitted call returns, and either a guard turned it
  down and nothing changed, or the invariant holds again and the list of nodes went where the
  call takes it.
* `Forest.redBlack_of_reachable`: the run. The invariant holds in every reachable state, and
  there every permitted call returns.
-/

set_option autoImplicit false

namespace RecordTree

variable {ι ρ σ : Type} [Linked ρ]

/-! ### Reading shapes and nodes off a store -/

/-- The records below a position are those of the shape that its links spell out. -/
theorem Represents.reaches_iff {s : Store ρ} {parent position : Option RecordId} {shape : Shape}
    (h : Represents s parent position shape) (id : RecordId) :
    s.Reaches position id ↔ id ∈ shape.inorder := by
  constructor
  · -- A way down the links is a way down the shape.
    intro hreach
    induction hreach generalizing parent shape with
    | here =>
      cases h with
      | node => simp [Shape.inorder]
    | child side hn _ ih =>
      cases h with
      | node hm _ _ hl hr =>
        rw [hn] at hm
        cases hm
        cases side with
        | left => simp [Shape.inorder, ih hl]
        | right => simp [Shape.inorder, ih hr]
  · -- A node of the shape is below the child link on its side.
    intro hmem
    induction h with
    | leaf => cases hmem
    | node hn _ _ _ _ ihl ihr =>
      simp only [Shape.inorder, List.mem_append, List.mem_cons] at hmem
      rcases hmem with hmem | rfl | hmem
      · exact .child .left hn (ihl hmem)
      · exact .here hn
      · exact .child .right hn (ihr hmem)

/-- Following the links with enough depth gives the shape that they spell out. -/
theorem Represents.shapeFrom_eq {s : Store ρ} {parent position : Option RecordId} {shape : Shape}
    {depth : Nat} (h : Represents s parent position shape) (hdepth : shape.size ≤ depth) :
    s.shapeFrom depth position = .ok shape := by
  induction h generalizing depth with
  | leaf => cases depth <;> rfl
  | node hn _ _ _ _ ihl ihr =>
    simp only [Shape.size] at hdepth
    obtain ⟨depth, rfl⟩ : ∃ k, depth = k + 1 := Nat.exists_eq_add_one.mpr (by omega)
    have hleft := ihl (show _ ≤ depth by omega)
    have hright := ihr (show _ ≤ depth by omega)
    simp only [Store.shapeFrom, hn, bind, Except.bind, hleft, hright]
    rfl

/-- Following the child links reads off the shape. -/
theorem Tree.HasShape.shape_eq {t : Tree} {s : Store ρ} {shape : Shape} (h : t.HasShape s shape) :
    t.shape s = .ok shape :=
  h.represents.shapeFrom_eq (Store.lt_walkLimit h.size_le).le

/-! ### The invariant -/

namespace Forest

/-- Each handle keeps a red-black tree, of the shape that `shapes` gives it. A record is in one of
them at most, and is in one exactly when its node is linked. All other nodes are bare. -/
structure Shaped (f : Forest ι ρ σ) (shapes : ι → Shape) : Prop where
  keeps : ∀ i, (f.trees i).Keeps f.store (shapes i)
  apart : ∀ i j, i ≠ j → (shapes i).inorder.Disjoint (shapes j).inorder
  linked_iff : ∀ id n, f.store.node id = .ok n →
    (n.state = .linked ↔ ∃ i, id ∈ (shapes i).inorder)
  bare : ∀ id n, f.store.node id = .ok n → n.state ≠ .linked → n = { state := n.state }

variable {f : Forest ι ρ σ} {shapes : ι → Shape} {i : ι}

/-- Each tree of a forest in order has exactly the nodes of its shape. -/
theorem Shaped.holds_iff (h : f.Shaped shapes) {id : RecordId} :
    f.Holds i id ↔ id ∈ (shapes i).inorder :=
  (h.keeps i).represents.reaches_iff id

/-- The nodes that are in no tree are those that are not linked. -/
theorem Shaped.free_iff (h : f.Shaped shapes) {id : RecordId} {n : Node}
    (hn : f.store.node id = .ok n) : f.Free id ↔ n.state ≠ .linked := by
  rw [Ne, h.linked_iff id n hn, not_exists]
  exact forall_congr' fun i => not_congr h.holds_iff

/-- A vacant slot is an empty position of the shape. -/
theorem Shaped.exists_position (h : f.Shaped shapes) {slot : Slot} (hvacant : f.Vacant i slot) :
    ∃ C : Context, shapes i = C.fill .leaf ∧ slot.Names C := by
  unfold Vacant at hvacant
  cases hparent : slot.parent with
  | none =>
    rw [hparent] at hvacant
    have hroot : (shapes i).root? = none := (h.keeps i).root_eq.symm.trans hvacant
    exact ⟨.top, Shape.eq_leaf_of_root? hroot, hparent, .inl hparent⟩
  | some parent =>
    rw [hparent] at hvacant
    obtain ⟨hholds, n, hn, hchild⟩ := hvacant
    obtain ⟨C, c, l, r, hshape⟩ := Shape.exists_context (h.holds_iff.mp hholds)
    rw [← Shape.join_left] at hshape
    -- The node by the side of the slot, which is empty there.
    obtain ⟨near, far, hjoin⟩ := Shape.exists_join (Shape.root?_join .left c l r parent) slot.side
    rw [hjoin, Shape.color_join] at hshape
    have hkeeps := (h.keeps i).toHasShape
    rw [hshape] at hkeeps
    have hnode := hkeeps.node_top
    rw [hn] at hnode
    cases hnode
    rw [Node.child_placed] at hchild
    rw [Shape.eq_leaf_of_root? hchild] at hshape
    exact ⟨.under slot.side c parent far C, hshape, hparent, .inr rfl⟩

/-- The nodes of the other trees are none of those that a call changes. -/
theorem Shaped.untouched (h : f.Shaped shapes) {new : List RecordId}
    (hnew : ∀ j ∈ new, j ∉ (shapes i).inorder →
      ∃ n, f.store.node j = .ok n ∧ n.state ≠ .linked)
    {k : ι} (hk : k ≠ i) {j : RecordId} (hj : j ∈ (shapes k).inorder) :
    j ∉ (shapes i).inorder ∧ j ∉ new := by
  have hout : j ∉ (shapes i).inorder := fun hin => h.apart k i hk hj hin
  refine ⟨hout, fun hin => ?_⟩
  obtain ⟨n, hn, hstate⟩ := hnew j hin hout
  exact hstate ((h.linked_iff j n hn).mpr ⟨k, hj⟩)

variable [DecidableEq ι]

/-- A call that settles one tree, and takes in nodes that were not linked, keeps the invariant. -/
theorem Shaped.settle (h : f.Shaped shapes) {new : List RecordId} {t : Tree} {s : Store ρ}
    {shape : Shape} (hs : Settled f.store (shapes i).inorder new t s shape)
    (hnew : ∀ j ∈ new, j ∉ (shapes i).inorder →
      ∃ n, f.store.node j = .ok n ∧ n.state ≠ .linked) (context : σ) :
    Shaped ⟨s, Function.update f.trees i t, context⟩ (Function.update shapes i shape) := by
  -- A node is in one of the trees if it is in this one now, or in another one.
  have hmem : ∀ id, (∃ k, id ∈ (Function.update shapes i shape k).inorder) ↔
      id ∈ new ∨ ∃ k ≠ i, id ∈ (shapes k).inorder := by
    intro id
    rw [Function.exists_update_iff shapes fun _ u => id ∈ u.inorder, hs.inorder]
  refine ⟨?_, ?_, ?_, ?_⟩
  · show ∀ k, (Function.update f.trees i t k).Keeps s (Function.update shapes i shape k)
    intro k
    by_cases hk : k = i
    · subst hk
      simpa using hs.keeps
    · simp only [Function.update_of_ne hk]
      refine (h.keeps k).congr ?_
      intro j hj
      obtain ⟨hold, hin⟩ := h.untouched hnew hk hj
      exact hs.frame j hold hin
  · intro k l hkl
    by_cases hk : k = i
    · subst hk
      rw [Function.update_self, Function.update_of_ne (Ne.symm hkl), hs.inorder]
      intro j hj hl
      exact (h.untouched hnew (Ne.symm hkl) hl).2 hj
    · by_cases hl : l = i
      · subst hl
        rw [Function.update_self, Function.update_of_ne hk, hs.inorder]
        intro j hj hin
        exact (h.untouched hnew hk hj).2 hin
      · rw [Function.update_of_ne hk, Function.update_of_ne hl]
        exact h.apart k l hkl
  · intro id n hn
    rw [hmem]
    -- Only nodes of this tree can have changed. The others are linked for the reason they were.
    rcases hs.cases hn with ⟨hin, hstate⟩ | ⟨hin, hold, rfl⟩ | ⟨hin, hold, hn'⟩
    · exact iff_of_true hstate (.inl hin)
    · refine iff_of_false (by simp [Node.removed]) ?_
      rintro (hin' | ⟨k, hk, hj⟩)
      · exact hin hin'
      · exact (h.untouched hnew hk hj).1 hold
    · rw [h.linked_iff id n hn']
      constructor
      · rintro ⟨k, hk⟩
        refine .inr ⟨k, ?_, hk⟩
        rintro rfl
        exact hold hk
      · rintro (hin' | ⟨k, -, hk⟩)
        · exact absurd hin' hin
        · exact ⟨k, hk⟩
  · intro id n hn hstate
    rcases hs.cases hn with ⟨-, hlinked⟩ | ⟨-, -, rfl⟩ | ⟨-, -, hn'⟩
    · exact absurd hlinked hstate
    · rfl
    · exact h.bare id n hn' hstate

end Forest

/-! ### Calls -/

/-- A call that a guard turns down leaves the store as it was. -/
theorem Call.rejectsSilently [Listener σ] (t : Tree) (c : Call ρ σ) :
    (c.run t).RejectsSilently := by
  cases c with
  | insert id compare => exact t.rejectsSilently_insertWith .none id compare
  | link slot id => exact t.rejectsSilently_linkWith .none slot id
  | delete id => exact t.rejectsSilently_deleteWith .none id
  | replace old new => exact t.rejectsSilently_replace old new
  | clear => exact (Guarded.rejectsSilently_update t.clear).bind_pure (f := Prod.fst)

/-- Where a call that no guard turns down takes the nodes of its tree, from left to right. A new
node is inserted after those that it does not order before, if they come first. -/
def Call.Takes (s : Store ρ) : Call ρ σ → List RecordId → List RecordId → Prop
  | insert id compare, old, new => ∃ l r, old = l ++ r ∧ new = l ++ id :: r ∧
      ∀ order, compare.Answers order →
        (old.Pairwise fun a b => s.OrdersBefore order id a → s.OrdersBefore order id b) →
        (∀ j ∈ l, ¬ s.OrdersBefore order id j) ∧ ∀ j ∈ r, s.OrdersBefore order id j
  | link ⟨none, _⟩ id, old, new => old = [] ∧ new = [id]
  | link ⟨some parent, .left⟩ id, old, new =>
    ∃ l r, old = l ++ parent :: r ∧ new = l ++ id :: parent :: r
  | link ⟨some parent, .right⟩ id, old, new =>
    ∃ l r, old = l ++ parent :: r ∧ new = l ++ parent :: id :: r
  | delete id, old, new => ∃ l r, old = l ++ id :: r ∧ new = l ++ r
  | replace out id, old, new => ∃ l r, old = l ++ out :: r ∧ new = l ++ id :: r
  | clear, _, new => new = []

omit [Linked ρ] in
/-- A node linked at a slot stands right beside the slot's parent. -/
theorem Call.takes_link (s : Store ρ) {slot : Slot} {C : Context} (hslot : slot.Names C)
    (id : RecordId) :
    (link slot id : Call ρ σ).Takes s C.ids (C.before ++ id :: C.after) := by
  obtain ⟨parent, side⟩ := slot
  obtain ⟨hparent, hside⟩ := hslot
  cases C with
  | top =>
    cases hparent
    exact ⟨rfl, rfl⟩
  | under side' c p sibling above =>
    cases hparent
    obtain rfl : side = side' := hside.resolve_left (Option.some_ne_none p)
    cases side with
    | left =>
      exact ⟨above.before, sibling.inorder ++ above.after, rfl, rfl⟩
    | right =>
      refine ⟨above.before ++ sibling.inorder, above.after, ?_, ?_⟩
      · simp [Context.ids, Context.before, Context.after]
      · simp [Context.before, Context.after]

/-- Only `id` is new among the nodes around an empty position and `id`. -/
theorem Context.eq_of_mem_linked {C : Context} {shape : Shape} {id j : RecordId}
    (hshape : shape = C.fill .leaf) (hj : j ∈ C.before ++ id :: C.after)
    (hout : j ∉ shape.inorder) : j = id := by
  rw [hshape, Context.inorder_fill_leaf, Context.mem_ids, not_or] at hout
  simpa [hout.1, hout.2] using hj

section Step

variable [LawfulLinked ρ] [DecidableEq ι] [Listener σ] {f : Forest ι ρ σ} {shapes : ι → Shape}
  {i : ι}

namespace Forest

omit [LawfulLinked ρ] in
/-- What a forest makes of the outcome of a call. -/
theorem call_of_returns {c : Call ρ σ} {Q : Tree → Store ρ → σ → Prop}
    {R : Rejection → Store ρ → σ → Prop}
    (h : (c.run (f.trees i)).Returns f.store f.context Q R) :
    (∃ t s x, f.call i c = .ok (none, ⟨s, Function.update f.trees i t, x⟩) ∧ Q t s x) ∨
      ∃ r s x, f.call i c = .ok (some r, ⟨s, f.trees, x⟩) ∧ R r s x := by
  obtain ⟨outcome, s, x, hrun, hout⟩ := h
  cases outcome with
  | ok t =>
    refine .inl ⟨t, s, x, ?_, hout⟩
    rw [call, hrun]
    rfl
  | error r =>
    refine .inr ⟨r, s, x, ?_, hout⟩
    rw [call, hrun]
    rfl

omit [LawfulLinked ρ] in
/-- A call that a guard turns down changes the caller's context at most. -/
theorem eq_of_rejected {c : Call ρ σ} {f' : Forest ι ρ σ} {r : Rejection}
    (h : f.call i c = .ok (some r, f')) : f'.store = f.store ∧ f'.trees = f.trees := by
  unfold call at h
  obtain ⟨⟨⟨outcome, s⟩, x⟩, hrun, hout⟩ := except_bind_eq_ok.mp h
  cases outcome with
  | ok t => cases hout
  | error e =>
    cases hout
    exact ⟨Call.rejectsSilently (f.trees i) c f.store f.context r s x hrun, rfl⟩

/-- What a permitted call leaves: if a guard turned it down, the same store and trees, and else a
forest in which the call's tree went where the call takes it. The other trees stay, and so does
what the records hold besides their nodes. -/
def Outcome (f : Forest ι ρ σ) (shapes : ι → Shape) (i : ι) (c : Call ρ σ) :
    Option Rejection → Forest ι ρ σ → Prop
  | none, f' => f.Admits i c ∧ f'.store.payload = f.store.payload ∧
      ∃ shape, f'.Shaped (Function.update shapes i shape) ∧
        c.Takes f.store (shapes i).inorder shape.inorder
  | some _, f' => ¬ f.Admits i c ∧ f'.store = f.store ∧ f'.trees = f.trees

/-- What a call does that no guard turns down: it takes the nodes of its tree where it says, and
takes in only such as were not linked. -/
def Settles (f : Forest ι ρ σ) (shapes : ι → Shape) (i : ι) (c : Call ρ σ) (t : Tree)
    (s : Store ρ) : Prop :=
  f.Admits i c ∧ s.payload = f.store.payload ∧
    ∃ shape new, Settled f.store (shapes i).inorder new t s shape ∧
      c.Takes f.store (shapes i).inorder new ∧ ∀ j ∈ new, j ∉ (shapes i).inorder →
        ∃ n, f.store.node j = .ok n ∧ n.state ≠ .linked

omit [LawfulLinked ρ] in
/-- A call that settles its tree, or is turned down, has an outcome. -/
theorem Shaped.outcome_of_returns (h : f.Shaped shapes) {c : Call ρ σ}
    (hrun : (c.run (f.trees i)).Returns f.store f.context
      (fun t s _ => f.Settles shapes i c t s) fun _ _ _ => ¬ f.Admits i c) :
    ∃ outcome f', f.call i c = .ok (outcome, f') ∧ f.Outcome shapes i c outcome f' := by
  rcases call_of_returns hrun with
    ⟨t, s, x, hcall, hadmits, hpayload, shape, new, hs, htakes, hnew⟩ | ⟨r, s, x, hcall, hnot⟩
  · exact ⟨none, _, hcall, hadmits, hpayload, shape, h.settle hs hnew x, hs.inorder ▸ htakes⟩
  · exact ⟨some r, _, hcall, hnot, eq_of_rejected hcall⟩

omit [DecidableEq ι] in
/-- An insertion settles, or is turned down because the record is in a tree already. -/
theorem Shaped.settles_insert (h : f.Shaped shapes) {id : RecordId} (compare : Comparator ρ σ)
    (hid : id < f.store.size) :
    (Call.run (f.trees i) (.insert id compare)).Returns f.store f.context
      (fun t s _ => f.Settles shapes i (.insert id compare) t s)
      fun _ _ _ => ¬ f.Admits i (.insert id compare) := by
  obtain ⟨n, hn⟩ := Store.exists_node_of_lt hid
  refine (Tree.returns_insertWith (x := f.context)
    (Augmentation.turns_none fun p _ => p = f.store.payload)
    (Augmentation.grows_none (fun p _ => p = f.store.payload) id) compare (h.keeps i) hn
    fun _ _ => rfl).mono ?_ ?_
  · rintro t s x ⟨hstate, C, hshape, hfollows, k, -, shape, hs, hpayload⟩
    refine ⟨⟨hid, (h.free_iff hn).mpr hstate⟩, hpayload, shape, _, hs, ?_, ?_⟩
    · rw [hshape, Context.inorder_fill_leaf]
      exact ⟨C.before, C.after, rfl, rfl, fun order ho hmono => (hfollows order ho).divides hmono⟩
    · intro j hj hout
      obtain rfl := Context.eq_of_mem_linked hshape hj hout
      exact ⟨n, hn, hstate⟩
  · intro r s x hr hadmits
    exact (h.free_iff hn).mp hadmits.2 hr.1

omit [DecidableEq ι] in
/-- A link at a vacant slot settles, or is turned down because the record is in a tree already. -/
theorem Shaped.settles_link (h : f.Shaped shapes) {slot : Slot} {id : RecordId}
    (hid : id < f.store.size) (hvacant : f.Vacant i slot) :
    (Call.run (f.trees i) (.link slot id)).Returns f.store f.context
      (fun t s _ => f.Settles shapes i (.link slot id) t s)
      fun _ _ _ => ¬ f.Admits i (.link slot id) := by
  obtain ⟨n, hn⟩ := Store.exists_node_of_lt hid
  obtain ⟨C, hshape, hslot⟩ := h.exists_position hvacant
  refine (Tree.returns_linkWith (x := f.context)
    (Augmentation.turns_none fun p _ => p = f.store.payload)
    (Augmentation.grows_none (fun p _ => p = f.store.payload) id) (hshape ▸ h.keeps i) hn hslot
    fun _ => rfl).mono ?_ ?_
  · rintro t s x ⟨hstate, k, -, shape, hs, hpayload⟩
    rw [← hshape] at hs
    refine ⟨⟨hid, hvacant, (h.free_iff hn).mpr hstate⟩, hpayload, shape, _, hs, ?_, ?_⟩
    · rw [hshape, Context.inorder_fill_leaf]
      exact Call.takes_link _ hslot id
    · intro j hj hout
      obtain rfl := Context.eq_of_mem_linked hshape hj hout
      exact ⟨n, hn, hstate⟩
  · intro r s x hr hadmits
    exact (h.free_iff hn).mp hadmits.2.2 hr.1

omit [DecidableEq ι] in
/-- A deletion of a node of the tree settles. -/
theorem Shaped.settles_delete (h : f.Shaped shapes) {id : RecordId} (hholds : f.Holds i id) :
    (Call.run (f.trees i) (.delete id)).Returns f.store f.context
      (fun t s _ => f.Settles shapes i (.delete id) t s)
      fun _ _ _ => ¬ f.Admits i (.delete id) := by
  obtain ⟨l, r, hlist⟩ := List.append_of_mem (h.holds_iff.mp hholds)
  refine (Tree.returns_deleteWith (x := f.context)
    (Augmentation.turns_none fun p _ => p = f.store.payload)
    (Augmentation.shrinks_none (fun p _ => p = f.store.payload) id) (h.keeps i) hlist rfl).mono ?_
    fun r s x hr => hr.elim
  rintro t s x ⟨k, -, shape, hs, hpayload⟩
  refine ⟨hholds, hpayload, shape, _, hs, ⟨l, r, hlist, rfl⟩, fun j hj hout => absurd ?_ hout⟩
  rw [hlist, List.mem_append, List.mem_cons]
  exact (List.mem_append.mp hj).imp_right .inr

omit [DecidableEq ι] in
/-- A replacement of a node of the tree settles, or is turned down because the new record is in a
tree already. -/
theorem Shaped.settles_replace (h : f.Shaped shapes) {old new : RecordId} (hholds : f.Holds i old)
    (hnew : new < f.store.size) :
    (Call.run (f.trees i) (.replace old new)).Returns f.store f.context
      (fun t s _ => f.Settles shapes i (.replace old new) t s)
      fun _ _ _ => ¬ f.Admits i (.replace old new) := by
  obtain ⟨l, r, hlist⟩ := List.append_of_mem (h.holds_iff.mp hholds)
  obtain ⟨n, hn⟩ := Store.exists_node_of_lt hnew
  by_cases hstate : n.state = .linked
  · obtain ⟨m, hm, -⟩ := (h.keeps i).spells.exists_linked (h.holds_iff.mp hholds)
    refine (Tree.rejects_replace (t := f.trees i) (x := f.context) hm hn (.inr hstate)).mono
      (fun _ _ _ hf => hf.elim) fun r s x _ hadmits => ?_
    exact (h.free_iff hn).mp hadmits.2.2 hstate
  · refine (Tree.returns_replace (x := f.context) (h.keeps i) hlist hn hstate).mono ?_
      fun r s x hr => hr.elim
    rintro t s x ⟨shape, hs, hpayload, -⟩
    refine ⟨⟨hholds, hnew, (h.free_iff hn).mpr hstate⟩, hpayload, shape, _, hs, ⟨l, r, hlist, rfl⟩,
      fun j hj hout => ⟨n, ?_, hstate⟩⟩
    rw [hlist] at hout
    simp only [List.mem_append, List.mem_cons, not_or] at hj hout
    obtain rfl : j = new := by tauto
    exact hn

omit [DecidableEq ι] in
/-- Clearing settles. -/
theorem Shaped.settles_clear (h : f.Shaped shapes) :
    (Call.run (f.trees i) .clear).Returns f.store f.context
      (fun t s _ => f.Settles shapes i .clear t s) fun _ _ _ => ¬ f.Admits i .clear := by
  simp only [Call.run, Guarded.returns_bind, Guarded.returns_update, Guarded.returns_pure]
  refine (Tree.returns_clear (x := f.context) (h.keeps i)).mono ?_
  rintro ⟨t, n⟩ s x ⟨-, -, -, hpayload, hs⟩
  exact ⟨trivial, hpayload, .leaf, [], hs, rfl, fun j hj => by cases hj⟩

/-- The step: a permitted call returns and has an outcome. -/
theorem Shaped.returns_call (h : f.Shaped shapes) {c : Call ρ σ} (hc : f.Permits i c) :
    ∃ outcome f', f.call i c = .ok (outcome, f') ∧ f.Outcome shapes i c outcome f' := by
  -- A call may be permitted only because the guards reject it. Then that is its outcome.
  have hrejects : f.Rejects i c → ¬ f.Admits i c →
      ∃ outcome f', f.call i c = .ok (outcome, f') ∧ f.Outcome shapes i c outcome f' := by
    rintro ⟨r, f', hcall⟩ hnot
    exact ⟨some r, f', hcall, hnot, eq_of_rejected hcall⟩
  cases c with
  | insert id compare => exact h.outcome_of_returns (h.settles_insert compare hc)
  | link slot id =>
    by_cases hslot : id < f.store.size ∧ f.Vacant i slot
    · exact h.outcome_of_returns (h.settles_link hslot.1 hslot.2)
    · refine hrejects (hc.resolve_left hslot) ?_
      rintro ⟨hid, hvacant, -⟩
      exact hslot ⟨hid, hvacant⟩
  | delete id =>
    by_cases hholds : f.Holds i id
    · exact h.outcome_of_returns (h.settles_delete hholds)
    · exact hrejects (hc.resolve_left hholds) hholds
  | replace old new =>
    by_cases hnodes : f.Holds i old ∧ new < f.store.size
    · exact h.outcome_of_returns (h.settles_replace hnodes.1 hnodes.2)
    · refine hrejects (hc.resolve_left hnodes) ?_
      rintro ⟨hold, hnew, -⟩
      exact hnodes ⟨hold, hnew⟩
  | clear => exact h.outcome_of_returns h.settles_clear

omit [LawfulLinked ρ] [DecidableEq ι] [Listener σ] in
/-- The invariant is about nodes and handles only. -/
theorem Shaped.congr (h : f.Shaped shapes) {f' : Forest ι ρ σ} (hs : f'.store.node = f.store.node)
    (ht : f'.trees = f.trees) : f'.Shaped shapes where
  keeps i := by
    rw [ht]
    exact (h.keeps i).congr fun j _ => congrFun hs j
  apart := h.apart
  linked_iff id n hn := h.linked_iff id n (by rw [← hs, hn])
  bare id n hn := h.bare id n (by rw [← hs, hn])

omit [LawfulLinked ρ] [DecidableEq ι] [Listener σ] in
/-- A new record is in no tree. -/
theorem Shaped.push (h : f.Shaped shapes) {r : ρ} (hr : Linked.node r = {}) :
    Shaped { f with store := f.store.push r } shapes := by
  have hout : ∀ i, f.store.size ∉ (shapes i).inorder := fun i hi =>
    (Nat.lt_irrefl _) ((h.keeps i).lt_size hi)
  refine ⟨fun i => (h.keeps i).congr ?_, h.apart, ?_, ?_⟩
  · intro j hj
    exact Store.node_push_of_lt r ((h.keeps i).lt_size hj)
  · intro id n hn
    rcases Store.node_of_push hn with hold | ⟨rfl, rfl⟩
    · exact h.linked_iff id n hold
    · refine iff_of_false (by simp [hr]) ?_
      rintro ⟨i, hi⟩
      exact hout i hi
  · intro id n hn hstate
    rcases Store.node_of_push hn with hold | ⟨-, rfl⟩
    · exact h.bare id n hold hstate
    · rw [hr]

omit [LawfulLinked ρ] [DecidableEq ι] [Listener σ] in
/-- Records with new nodes are in no tree. -/
theorem shaped_empty (hnew : ∀ id n, f.store.node id = .ok n → n = {})
    (hempty : ∀ i, f.trees i = .empty) : f.Shaped fun _ => .leaf := by
  refine ⟨fun i => hempty i ▸ Tree.keeps_empty f.store, ?_, ?_, ?_⟩
  · intro i j _ k hk
    cases hk
  · intro id n hn
    rw [hnew id n hn]
    simp [Shape.inorder]
  · intro id n hn _
    rw [hnew id n hn]

omit [LawfulLinked ρ] [Listener σ] in
/-- Whatever a permitted call leaves is a forest in order. -/
theorem Outcome.exists_shaped (h : f.Shaped shapes) {c : Call ρ σ} {outcome : Option Rejection}
    {f' : Forest ι ρ σ} (hout : f.Outcome shapes i c outcome f') :
    ∃ shapes', f'.Shaped shapes' := by
  cases outcome with
  | none =>
    obtain ⟨-, -, shape, hshape, -⟩ := hout
    exact ⟨_, hshape⟩
  | some r =>
    obtain ⟨-, hstore, htrees⟩ := hout
    exact ⟨shapes, h.congr (by rw [hstore]) htrees⟩

/-- The run: the invariant holds in every reachable state. -/
theorem Reachable.exists_shaped (h : f.Reachable) : ∃ shapes, f.Shaped shapes := by
  induction h with
  | start hnew hempty => exact ⟨_, shaped_empty hnew hempty⟩
  | call _ hp hcall ih =>
    obtain ⟨shapes, hshaped⟩ := ih
    obtain ⟨outcome', f'', hcall', hout⟩ := hshaped.returns_call hp
    rw [hcall] at hcall'
    cases hcall'
    exact hout.exists_shaped hshaped
  | edit context _ hs ih =>
    obtain ⟨shapes, hshaped⟩ := ih
    exact ⟨shapes, hshaped.congr hs rfl⟩
  | push _ hr ih =>
    obtain ⟨shapes, hshaped⟩ := ih
    exact ⟨shapes, hshaped.push hr⟩

/-- In every reachable state, the handles' links spell out red-black trees with no record in
common, the linked records are the ones in these trees, and all others have no links and are red.
There, every permitted call returns. -/
theorem redBlack_of_reachable (h : f.Reachable) :
    (∃ shapes : ι → Shape,
      (∀ i, (f.trees i).shape f.store = .ok (shapes i) ∧
        Represents f.store none (f.trees i).root (shapes i) ∧
        (shapes i).color = .black ∧ (∃ height, (shapes i).Balanced height) ∧
        (shapes i).inorder.Nodup) ∧
      (∀ i j, i ≠ j → (shapes i).inorder.Disjoint (shapes j).inorder) ∧
      ∀ id n, f.store.node id = .ok n →
        (n.state = .linked ↔ ∃ i, f.Holds i id) ∧
        (n.state ≠ .linked →
          n.parent = none ∧ n.left = none ∧ n.right = none ∧ n.color = .red)) ∧
    ∀ i c, f.Permits i c → ∃ outcome f', f.call i c = .ok (outcome, f') := by
  obtain ⟨shapes, hshaped⟩ := h.exists_shaped
  refine ⟨⟨shapes, ?_, hshaped.apart, fun id n hn => ⟨?_, ?_⟩⟩, ?_⟩
  · intro i
    have hkeeps := hshaped.keeps i
    obtain ⟨height, hblack, hbalanced⟩ := hkeeps.redBlack
    exact ⟨hkeeps.shape_eq, hkeeps.represents, hblack, ⟨height, hbalanced⟩, hkeeps.nodup⟩
  · -- The nodes of the trees are linked, and nothing else is.
    rw [hshaped.linked_iff id n hn]
    exact exists_congr fun i => hshaped.holds_iff.symm
  · -- A record outside of all trees has a bare node.
    intro hstate
    rw [hshaped.bare id n hn hstate]
    exact ⟨rfl, rfl, rfl, rfl⟩
  · intro i c hp
    obtain ⟨outcome, f', hcall, -⟩ := hshaped.returns_call hp
    exact ⟨outcome, f', hcall⟩

/-- Two handles over three records. The tree at `true` has two of them. -/
def pair : Forest Bool Node Unit where
  store := #[{ right := some 1, color := .black, state := .linked },
    { parent := some 0, state := .linked }, {}]
  trees := Function.update (Function.update (fun _ => .empty) true ⟨some 0⟩) true ⟨some 0⟩
  context := ()

/-- The forest `pair` before its insertions. -/
def pairBare : Forest Bool Node Unit := ⟨#[{}, {}, {}], fun _ => .empty, ()⟩

/-- The forest `pair` before its second insertion. -/
def pairHalf : Forest Bool Node Unit where
  store := #[{ color := .black, state := .linked }, {}, {}]
  trees := Function.update (fun _ => .empty) true ⟨some 0⟩
  context := ()

/-- Two empty handles over new records are where a run starts. -/
theorem reachable_pairBare : pairBare.Reachable :=
  .start (Store.forall_node (by decide)) fun _ => rfl

/-- The first insertion makes a tree of one node. -/
theorem pairBare_insert :
    pairBare.call true (.insert 0 (.of fun _ _ => .eq)) = .ok (none, pairHalf) :=
  rfl

/-- The second insertion puts an equal record on the right. -/
theorem pairHalf_insert :
    pairHalf.call true (.insert 1 (.of fun _ _ => .eq)) = .ok (none, pair) :=
  rfl

/-- Two insertions lead to `pair`. -/
theorem reachable_pair : pair.Reachable :=
  have hhalf : pairHalf.Reachable :=
    reachable_pairBare.call (c := .insert 0 _) (show 0 < 3 by decide) pairBare_insert
  hhalf.call (c := .insert 1 _) (show 1 < 3 by decide) pairHalf_insert

/-- The links of both handles of `pair` spell out red-black trees. -/
theorem redBlack_pair : ∃ shapes : Bool → Shape,
    ∀ i, (pair.trees i).shape pair.store = .ok (shapes i) ∧
      Represents pair.store none (pair.trees i).root (shapes i) ∧
      (shapes i).color = .black ∧ ∃ height, (shapes i).Balanced height := by
  obtain ⟨⟨shapes, htrees, -⟩, -⟩ := redBlack_of_reachable reachable_pair
  refine ⟨shapes, fun i => ?_⟩
  obtain ⟨hshape, hrep, hblack, hbalanced, -⟩ := htrees i
  exact ⟨hshape, hrep, hblack, hbalanced⟩

end Forest

end Step

end RecordTree
