import RecordTree.Proofs.Tree.MendRed

/-!
# `RecordTree.Proofs.Tree.Insert`: where a node goes, and what linking it does

A descent ends at an empty position of the tree, whatever the comparator answers, and knows
whether anything comes before that position (`Tree.returns_descend`). If the answers follow an
order of the records, those met on the way are what `Context.Follows` lists, and in a sorted
tree they divide the nodes into those before and those after (`Context.Follows.divides`).

* `Tree.returns_attach`: linking a node at an empty position gives a red-black tree in which
  the node stands there and all others keep their order.
* `Tree.returns_linkWith`, `Tree.returns_insertWith`: the same behind the guard, which turns
  down a node that is linked and changes nothing.
-/

set_option autoImplicit false

namespace RecordTree

/-! ### Descents -/

namespace Context

/-- At each node above the position, the way down went left exactly if `before` holds of it. -/
def Follows (goesLeft : RecordId → Prop) : Context → Prop
  | top => True
  | under side _ id _ above => (side = .left ↔ goesLeft id) ∧ above.Follows goesLeft

/-- If going left at a node means going left at all nodes after it, then the way down divides
the nodes by that. -/
theorem Follows.divides {goesLeft : RecordId → Prop} {C : Context}
    (h : C.Follows goesLeft) (hmono : C.ids.Pairwise fun a b => goesLeft a → goesLeft b) :
    (∀ j ∈ C.before, ¬ goesLeft j) ∧ ∀ j ∈ C.after, goesLeft j := by
  -- From the position upward: each node passed puts itself and its other subtree on one side.
  induction C with
  | top => simp [before, after]
  | under side c id sibling above ih =>
    obtain ⟨hside, habove⟩ := h
    cases side with
    | left =>
      -- Having gone left at `id`, all that comes after it would go left as well.
      have hid : goesLeft id := hside.mp rfl
      simp only [ids, before, after, List.cons_append, List.pairwise_append, List.pairwise_cons,
        List.mem_append, List.mem_cons] at hmono ⊢
      obtain ⟨hbefore, ⟨hfrom, -, hafter, -⟩, hcross⟩ := hmono
      obtain ⟨hlo, hhi⟩ := ih habove (List.pairwise_append.mpr
        ⟨hbefore, hafter, fun a ha b hb => hcross a ha b (.inr (.inr hb))⟩)
      refine ⟨hlo, fun j hj => ?_⟩
      rcases hj with rfl | hj | hj
      · exact hid
      · exact hfrom j (.inl hj) hid
      · exact hhi j hj
    | right =>
      -- Had one before `id` gone left, then so would `id`.
      have hid : ¬ goesLeft id := fun hgo => by simpa using hside.mpr hgo
      simp only [ids, before, after, List.pairwise_append, List.mem_append,
        List.mem_singleton] at hmono ⊢
      obtain ⟨⟨hbefore, ⟨-, -, hsib⟩, hto⟩, hafter, hcross⟩ := hmono
      obtain ⟨hlo, hhi⟩ := ih habove (List.pairwise_append.mpr
        ⟨hbefore, hafter, fun a ha b hb => hcross a (.inl ha) b hb⟩)
      refine ⟨fun j hj => ?_, hhi⟩
      rcases hj with hj | hj | rfl
      · exact hlo j hj
      · exact fun hgo => hid (hsib j hj id rfl hgo)
      · exact hid

/-- A position comes first if the one above does and the way from there went left. -/
theorem isEmpty_before_under (side : Side) (c : Color) (id : RecordId) (sibling : Shape)
    (above : Context) : (under side c id sibling above).before.isEmpty =
      (above.before.isEmpty && decide (side = .left)) := by
  cases side with
  | left => simp [before]
  | right =>
    rw [List.isEmpty_eq_false_iff.mpr (by simp [before])]
    simp

/-- The empty position as the tree code names it. -/
def slot (C : Context) : Slot := ⟨C.parent, C.side⟩

/-- The slot of a position is under its parent. -/
@[simp] theorem parent_slot (C : Context) : C.slot.parent = C.parent := rfl

/-- The slot of a position is on its side. -/
@[simp] theorem side_slot (C : Context) : C.slot.side = C.side := rfl

end Context

variable {ρ σ : Type} [Linked ρ]

/-- The comparator answers as `order` does, whatever it does to the caller's context. -/
def Comparator.Answers (compare : Comparator ρ σ) (order : ρ → ρ → Ordering) : Prop :=
  ∀ a b x, (compare a b x).1 = order a b

omit [Linked ρ] in
/-- A comparator that computes an order answers by it. -/
theorem Comparator.answers_of (order : ρ → ρ → Ordering) :
    (Comparator.of order : Comparator ρ σ).Answers order :=
  fun _ _ _ => rfl

/-- The record `id` orders before the record `j`. -/
def Store.OrdersBefore (s : Store ρ) (order : ρ → ρ → Ordering) (id j : RecordId) : Prop :=
  ∃ new old, s.fetch id = .ok new ∧ s.fetch j = .ok old ∧ order new old = .lt

namespace Tree

/-- Where a descent goes on an answer: left on less, right on equal or greater. -/
def turn : Ordering → Side
  | .lt => .left
  | .eq | .gt => .right

/-- A descent turns left on less only. -/
theorem turn_eq_left {answer : Ordering} : turn answer = .left ↔ answer = .lt := by
  cases answer <;> simp [turn]

/-- One step of a descent. -/
theorem descendFrom_some {s : Store ρ} {id below : RecordId} {compare : Comparator ρ σ}
    {new old : ρ} {answer : Ordering} {x x₁ : σ} (steps : Nat) (here : Vacancy)
    (hnew : s.fetch id = .ok new) (hold : s.fetch below = .ok old)
    (hask : compare new old x = (answer, x₁)) :
    descendFrom s id compare (steps + 1) (some below) here x =
      descendFrom s id compare steps ((Linked.node old).child (turn answer))
        ⟨⟨some below, turn answer⟩, here.leftmost && decide (turn answer = .left)⟩ x₁ := by
  simp only [descendFrom, Query.read, Query.ask, hnew, hold, hask, bind, StateT.bind,
    Except.map, Except.bind]
  cases answer <;> simp [turn, Node.child]

/-- A descent from the top of `u` ends at an empty position inside of `u`, or at that of `u` itself.
If the comparator answers by an order, the way down has followed it at every node. -/
theorem returns_descendFrom {t : Tree} {s : Store ρ} {id : RecordId} (compare : Comparator ρ σ)
    (x : σ) (hid : id < s.size) (steps : Nat) {C : Context} {u : Shape}
    (h : t.HasShape s (C.fill u)) (hsteps : u.size ≤ steps) :
    ∃ (C' : Context) (x' : σ), C.fill u = C'.fill .leaf ∧
      descendFrom s id compare steps u.root? ⟨C.slot, C.before.isEmpty⟩ x =
        .ok (⟨C'.slot, C'.before.isEmpty⟩, x') ∧
      ∀ order, compare.Answers order → C.Follows (s.OrdersBefore order id) →
        C'.Follows (s.OrdersBefore order id) := by
  -- The invariant: the descent stands at `u` in `C`, and has followed the order to there.
  induction steps generalizing C u x with
  | zero =>
    obtain rfl : u = .leaf := by
      cases u with
      | leaf => rfl
      | node => simp [Shape.size] at hsteps
    exact ⟨C, x, rfl, rfl, fun _ _ hf => hf⟩
  | succ steps ih =>
    by_cases hu : u = .leaf
    · subst hu
      exact ⟨C, x, rfl, rfl, fun _ _ hf => hf⟩
    obtain ⟨j, hroot⟩ := Option.ne_none_iff_exists'.mp (Shape.root?_ne_none hu)
    have hj : j < s.size := h.lt_size (by simp [Shape.mem_of_root? hroot])
    obtain ⟨answer, x₁, hask⟩ : ∃ answer x₁, compare s[id] s[j] x = (answer, x₁) := ⟨_, _, rfl⟩
    -- The position moves one level down, to the side that the answer points to.
    obtain ⟨near, far, hjoin⟩ := Shape.exists_join hroot (turn answer)
    rw [hjoin] at h hsteps ⊢
    have hnode : Linked.node s[j] =
        .placed C.parent (turn answer) near.root? far.root? u.color := by
      have hj' := h.node_top
      rw [Store.node_of_lt hj] at hj'
      exact Except.ok.inj hj'
    have hsize : near.size ≤ steps := by
      rw [← Shape.length_inorder, (Shape.perm_inorder_join ..).length_eq] at hsteps
      simp only [List.length_cons, List.length_append, Shape.length_inorder] at hsteps
      omega
    obtain ⟨C', x', hfill, hdesc, hfollow⟩ :=
      ih x₁ (C := .under (turn answer) u.color j far C) h hsize
    refine ⟨C', x', hfill, ?_, ?_⟩
    · rw [Shape.root?_join, descendFrom_some steps _ (Store.fetch_of_lt hid)
        (Store.fetch_of_lt hj) hask, hnode, Node.child_placed, ← hdesc]
      rw [Context.isEmpty_before_under]
      rfl
    · intro order hanswers hf
      have hanswer : answer = order s[id] s[j] := by
        rw [← hanswers, hask]
      refine hfollow order hanswers ⟨?_, hf⟩
      rw [turn_eq_left, hanswer]
      simp [Store.OrdersBefore, Store.fetch_of_lt hid, Store.fetch_of_lt hj]

/-- A descent ends at an empty position and knows whether it is the first one. -/
theorem returns_descend {t : Tree} {s : Store ρ} {id : RecordId} {shape : Shape}
    (compare : Comparator ρ σ) (x : σ) (h : t.HasShape s shape) (hid : id < s.size) :
    ∃ (C : Context) (x' : σ), shape = C.fill .leaf ∧
      (t.descend s id compare) x = .ok (⟨C.slot, C.before.isEmpty⟩, x') ∧
      ∀ order, compare.Answers order → C.Follows (s.OrdersBefore order id) := by
  have hsteps : shape.size ≤ s.walkLimit := (Store.lt_walkLimit h.size_le).le
  obtain ⟨C, x', hfill, hdesc, hfollow⟩ :=
    returns_descendFrom compare x hid s.walkLimit (C := .top) h hsteps
  refine ⟨C, x', hfill, ?_, fun order ho => hfollow order ho trivial⟩
  rw [descend, h.root_eq]
  exact hdesc

end Tree

/-! ### Linking -/

/-- The slot is the empty position. The root position has no side. -/
def Slot.Names (slot : Slot) (C : Context) : Prop :=
  slot.parent = C.parent ∧ (slot.parent = none ∨ slot.side = C.side)

/-- The slot of a position names it. -/
theorem Context.names_slot (C : Context) : C.slot.Names C := ⟨rfl, .inr rfl⟩

/-- A slot that names a position is its slot, or the one at the root with either side. -/
theorem Slot.Names.eq {slot : Slot} {C : Context} (h : slot.Names C) :
    slot = ⟨none, slot.side⟩ ∧ C.parent = none ∨ slot = C.slot := by
  obtain ⟨parent, side⟩ := slot
  obtain ⟨hparent, hnone | hside⟩ := h
  · simp only at hparent hnone
    subst hnone
    exact .inl ⟨rfl, hparent.symm⟩
  · simp only at hparent hside
    subst hparent hside
    exact .inr rfl

variable [LawfulLinked ρ]

/-- The store after the red leaf `id` was put at `slot`. -/
def Store.planted (s : Store ρ) (slot : Slot) (id : RecordId) : Store ρ :=
  match slot.parent with
  | none => s.modifyNode id fun _ => .leafAt slot
  | some parent =>
    (s.modifyNode id fun _ => .leafAt slot).modifyNode parent (·.setChild slot.side (some id))

omit [LawfulLinked ρ] in
/-- Putting a leaf into a slot adds no record. -/
@[simp] theorem Store.size_planted (s : Store ρ) (slot : Slot) (id : RecordId) :
    (s.planted slot id).size = s.size := by
  unfold planted
  cases slot.parent <;> simp

/-- Putting a leaf into a slot changes nodes only. -/
@[simp] theorem Store.payload_planted (s : Store ρ) (slot : Slot) (id : RecordId) :
    (s.planted slot id).payload = s.payload := by
  unfold planted
  cases slot.parent <;> simp

/-- Behind the leaf, its parent has it as a child. -/
theorem Store.node_planted (s : Store ρ) (slot : Slot) (id j : RecordId) :
    (s.planted slot id).node j =
      if slot.parent = some j then (·.setChild slot.side (some id)) <$>
        (s.modifyNode id fun _ => .leafAt slot).node j
      else (s.modifyNode id fun _ => .leafAt slot).node j := by
  unfold planted
  cases slot.parent with
  | none => simp
  | some parent => simp [node_modifyNode]

/-- A red leaf at an empty position. -/
theorem Tree.HasShape.planted {t : Tree} {s : Store ρ} {C : Context} {id : RecordId}
    (h : t.HasShape s (C.fill .leaf)) (hid : id ∉ C.ids) (hlt : id < s.size) :
    (t.withChild (some id) C.parent).HasShape (s.planted C.slot id)
      (C.fill (.node .red .leaf id .leaf)) := by
  have hparent : C.parent ≠ some id := fun hp => hid (Context.mem_ids_of_parent hp)
  refine h.refill (b := .node .red .leaf id .leaf) ?_ ?_ ?_ ?_
  · refine Context.nodup_fill.mpr ⟨?_, (Context.nodup_fill.mp h.nodup).2.1, ?_⟩
    · simp [Shape.inorder]
    · simpa [Shape.inorder] using hid
  · rw [← Shape.join_left, spells_join]
    refine ⟨?_, spells_leaf _, spells_leaf _⟩
    rw [Store.node_planted, Context.parent_slot, if_neg hparent, Store.node_overwrite hlt]
    rfl
  · intro j hj hp
    have hne : id ≠ j := fun heq => hid (heq ▸ hj)
    rw [Store.node_planted, Context.parent_slot, if_neg hp, Store.node_modifyNode, if_neg hne]
  · intro j m hp hm
    have hne : id ≠ j := fun heq => hparent (heq ▸ hp)
    rw [Store.node_planted, Context.parent_slot, if_pos hp, Store.node_modifyNode, if_neg hne, hm]
    rfl

namespace Tree

variable {aug : Augmentation ρ σ} {Right : Nat → Payloads ρ → σ → Shape → Prop}
  {Was : Payloads ρ → σ → Shape → Prop} {s : Store ρ} {x : σ} {t : Tree} {C : Context}
  {slot : Slot} {id : RecordId}

/-- The first part of linking: the leaf, without its summary and not mended. -/
def plant (t : Tree) (slot : Slot) (id : RecordId) : Update ρ σ Tree := do
  Update.modifyNode id fun _ => .leafAt slot
  match slot.parent with
  | some parent => do
    Update.modifyNode parent (·.setChild slot.side (some id))
    pure t
  | none => pure ⟨some id⟩

omit [LawfulLinked ρ] in
/-- Attaching a leaf is planting it, the callback for its parent, and the repair. -/
theorem attach_eq : t.attach aug slot id = (do
    let t ← t.plant slot id
    aug.propagate slot.parent none
    t.mendRed aug id) := by
  unfold attach plant
  cases slot.parent <;> simp

omit [LawfulLinked ρ] in
/-- Planting returns if the store has the leaf and the parent. -/
theorem returns_plant {Q : Tree → Store ρ → σ → Prop} :
    (t.plant slot id).Returns s x Q ↔ id < s.size ∧
      (∀ j, slot.parent = some j → j < s.size) ∧
        Q (t.withChild (some id) slot.parent) (s.planted slot id) x := by
  unfold plant Store.planted
  cases slot.parent with
  | none => simp [withChild]
  | some parent => simp [withChild]

omit [LawfulLinked ρ] in
/-- Attaching a leaf is the same through every slot that names the position, as the side plays no
part at the root. -/
theorem attach_of_names (hslot : slot.Names C) :
    t.attach aug slot id = t.attach aug C.slot id := by
  rcases hslot.eq with ⟨hroot, hparent⟩ | heq
  · rw [hroot]
    simp only [attach, Context.slot, hparent]
    rfl
  · rw [heq]

/-- If the call after the planting leaves all nodes alone and makes right what it should, then the
node stands at its position in the red-black tree that results. -/
theorem returns_attach_of_propagate (turns : aug.Turns Right) (h : t.Keeps s (C.fill .leaf))
    (hid : id ∉ C.ids) (hlt : id < s.size) (hslot : slot.Names C)
    (hpropagate : (aug.propagate C.parent none).Returns (s.planted C.slot id) x fun _ s' x' =>
      s'.node = (s.planted C.slot id).node ∧
        Right 0 s'.payload x' (C.fill (.node .red .leaf id .leaf))) :
    (t.attach aug slot id).Returns s x fun t' s' x' => ∃ k ≤ 2, ∃ shape,
      Settled s (C.fill .leaf).inorder (C.before ++ id :: C.after) t' s' shape ∧
        Right k s'.payload x' shape := by
  rw [attach_of_names hslot]
  have hplanted := h.toHasShape.planted hid hlt
  simp only [attach_eq, mendRed, Update.returns_bind, returns_plant, Update.returns_read]
  refine ⟨hlt, fun j hj => h.lt_size (by simp [Context.mem_ids_of_parent hj]), ?_⟩
  refine hpropagate.mono ?_
  rintro _ s₁ x₁ ⟨hnode, hright⟩
  refine ⟨_, rfl, ?_⟩
  have hshape₁ := hplanted.congr fun j _ => congrFun hnode j
  obtain ⟨total, hredBlack⟩ := h.redBlack
  -- What fitted the empty position fits a red leaf there, but that its parent may be red too.
  obtain ⟨_, hleaf, hfits, -⟩ := Context.redBlack_fill.mp hredBlack
  cases hleaf
  refine (returns_mendRedFrom turns s₁.repairLimit ⟨.refl hshape₁, hright⟩ rfl rfl
    (.red .leaf .leaf rfl rfl) hfits hshape₁.depth_lt).mono ?_
  rintro t' s' x' ⟨k, hk, shape, m, hdone⟩
  refine ⟨k, by omega, shape, ?_, m.right⟩
  -- The repair kept the order, so the new leaf is where it was planted.
  refine ⟨⟨m.hasShape, hdone.elim (⟨_, ·⟩) (⟨_, ·⟩)⟩, ?_, ?_, ?_, ?_⟩
  · show shape.inorder = C.before ++ id :: C.after
    rw [m.reshaped.inorder, Context.inorder_fill]
    simp [Shape.inorder]
  · show s'.size = s.size
    rw [m.reshaped.size, Store.size_eq_of_node hnode, Store.size_planted]
  · intro j hj hnot
    rw [Context.inorder_fill_leaf, Context.mem_ids] at hj
    simp only [List.mem_append, List.mem_cons, not_or] at hnot
    exact absurd hj (not_or.mpr ⟨hnot.1, hnot.2.2⟩)
  · intro j hold hnew
    rw [Context.inorder_fill_leaf] at hold
    have hne : id ≠ j := by
      rintro rfl
      simp at hnew
    have hp : C.parent ≠ some j := fun hp => hold (Context.mem_ids_of_parent hp)
    rw [m.reshaped.frame j (by simp [Shape.inorder, hold, hne.symm]), hnode, Store.node_planted,
      Context.parent_slot, if_neg hp, Store.node_modifyNode, if_neg hne]

/-- A node linked at an empty position stands there in the red-black tree that results. -/
theorem returns_attach (turns : aug.Turns Right) (grows : aug.Grows id Was (Right 0))
    (h : t.Keeps s (C.fill .leaf)) (hid : id ∉ C.ids) (hlt : id < s.size)
    (hslot : slot.Names C) (hwas : Was s.payload x (C.fill .leaf)) :
    (t.attach aug slot id).Returns s x fun t' s' x' => ∃ k ≤ 2, ∃ shape,
      Settled s (C.fill .leaf).inorder (C.before ++ id :: C.after) t' s' shape ∧
        Right k s'.payload x' shape :=
  returns_attach_of_propagate turns h hid hlt hslot
    (grows.propagate (h.toHasShape.planted hid hlt) (by simpa using hwas))

/-! ### Behind the guard -/

variable [Listener σ]

omit [LawfulLinked ρ] in
/-- So is linking it. -/
theorem linkWith_of_names (hslot : slot.Names C) :
    t.linkWith aug slot id = t.linkWith aug C.slot id := by
  rcases hslot.eq with ⟨hroot, hparent⟩ | heq
  · unfold linkWith
    rw [attach_of_names hslot, hroot]
    simp only [occupant, Context.parent_slot, hparent]
  · rw [heq]

omit [LawfulLinked ρ] [Listener σ] in
/-- An empty position is empty. -/
theorem returns_occupant (h : t.HasShape s (C.fill .leaf))
    {Q : Option RecordId → Store ρ → σ → Prop} :
    (t.occupant C.slot).Returns s x Q ↔ Q none s x := by
  cases C with
  | top => simp [occupant, Context.slot, Context.parent, h.root_eq, Context.fill, Shape.root?]
  | under side c p sibling above =>
    have hp := h.node_top (C := above)
    simp [occupant, Context.slot, Context.parent, Context.side, hp, Shape.root?]

omit [LawfulLinked ρ] in
/-- What the guard of a link lets through is a node that is not linked, and that is attached. -/
theorem returns_linkWith_of_attach {Q : Tree → Store ρ → σ → Prop} (h : t.HasShape s (C.fill .leaf))
    {n : Node} (hn : s.node id = .ok n) (hslot : slot.Names C)
    (hattach : n.state ≠ .linked → (t.attach aug C.slot id).Returns s x Q) :
    (t.linkWith aug slot id).Returns s x (fun t' s' x' => n.state ≠ .linked ∧ Q t' s' x')
      (fun r s' x' => n.state = .linked ∧ r = .stillLinked id n.parent ∧ s' = s ∧
        x' = Listener.hear r x) := by
  rw [linkWith_of_names hslot]
  simp only [linkWith, Guarded.returns_bind, Guarded.returns_update, returns_occupant h,
    checkLink, reduceCtorEq, if_false, Update.returns_node]
  refine ⟨n, hn, ?_⟩
  cases hstate : n.state with
  | linked => simp
  | detached | removed =>
    rw [hstate] at hattach
    exact Guarded.returns_pure.mpr ((hattach (by simp)).mono fun _ _ _ hQ => ⟨by simp, hQ⟩)

/-- A node that is not linked can be linked at an empty position. A linked one is turned down. -/
theorem returns_linkWith (turns : aug.Turns Right) (grows : aug.Grows id Was (Right 0))
    (h : t.Keeps s (C.fill .leaf)) {n : Node} (hn : s.node id = .ok n)
    (hslot : slot.Names C) (hwas : n.state ≠ .linked → Was s.payload x (C.fill .leaf)) :
    (t.linkWith aug slot id).Returns s x
      (fun t' s' x' => n.state ≠ .linked ∧ ∃ k ≤ 2, ∃ shape,
        Settled s (C.fill .leaf).inorder (C.before ++ id :: C.after) t' s' shape ∧
          Right k s'.payload x' shape)
      (fun r s' x' => n.state = .linked ∧ r = .stillLinked id n.parent ∧ s' = s ∧
        x' = Listener.hear r x) := by
  refine returns_linkWith_of_attach h.toHasShape hn hslot fun hstate => ?_
  -- All nodes of the tree are linked, so the new one is none of them.
  have hout : id ∉ C.ids := fun hin => hstate (h.state_eq (by simp [hin]) hn)
  exact returns_attach turns grows h hout (Store.lt_of_node hn) C.names_slot (hwas hstate)

/-- An insertion links the node at the position that its descent found. -/
theorem returns_insertWith (turns : aug.Turns Right) (grows : aug.Grows id Was (Right 0))
    {shape : Shape} (compare : Comparator ρ σ) (h : t.Keeps s shape) {n : Node}
    (hn : s.node id = .ok n) (hwas : n.state ≠ .linked → ∀ x', Was s.payload x' shape) :
    (t.insertWith aug id compare).Returns s x
      (fun t' s' x' => n.state ≠ .linked ∧ ∃ C : Context, shape = C.fill .leaf ∧
        (∀ order, compare.Answers order → C.Follows (s.OrdersBefore order id)) ∧
        ∃ k ≤ 2, ∃ shape',
          Settled s shape.inorder (C.before ++ id :: C.after) t' s' shape' ∧
            Right k s'.payload x' shape')
      (fun r s' _ => n.state = .linked ∧ r = .stillLinked id n.parent ∧ s' = s) := by
  obtain ⟨C, x₁, rfl, hdesc, hfollow⟩ :=
    returns_descend compare x h.toHasShape (Store.lt_of_node hn)
  simp only [insertWith, Guarded.returns_bind, Guarded.returns_update, Update.returns_query]
  refine ⟨_, x₁, hdesc, (returns_linkWith turns grows h hn C.names_slot fun hstate =>
    hwas hstate x₁).mono ?_ ?_⟩
  · rintro t' s' x' ⟨hstate, hdone⟩
    exact ⟨hstate, C, rfl, hfollow, hdone⟩
  · rintro r s' x' ⟨hstate, hr, hs, -⟩
    exact ⟨hstate, hr, hs⟩

end Tree

end RecordTree
