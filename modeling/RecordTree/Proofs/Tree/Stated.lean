import RecordTree.Proofs.Tree.MendBlack
import RecordTree.Proofs.Tree.MendRed

/-!
# `RecordTree.Proofs.Tree.Stated`: repairs do not look at states

Between calls the nodes of a tree are linked, and `Represents` asks for that. The repairs do not.
They follow links and colours, and leave the state of a node as it is. So what they do to a tree of
linked nodes they do to a tree of any nodes.

`Stated ρ` is a record with a state of its own in front of the one in the record. Code that runs on
such records sees the state in front, and without it (`Store.bare`) does the same
(`Update.Follows`). `Tree.Consistent` is `Tree.HasShape` without the states: put in front of the
records, the state `linked` makes the one of the other (`Tree.Consistent.linkedUp`), and taking it
away again is no loss (`Tree.HasShape.bare`).

An augmentation runs on the bare records (`Augmentation.stated`). It is asked only to end and to
leave the nodes alone when it is told of a rotation in a consistent tree (`Augmentation.Steady`).
-/

set_option autoImplicit false

namespace RecordTree

variable {ρ σ α β : Type} [Linked ρ]

/-! ### A state in front -/

/-- The node in another state. -/
def Node.inState (n : Node) (state : State) : Node := { n with state }

namespace Node

variable {n : Node} {state : State}

/-- The children of a node do not depend on its state. -/
@[simp] theorem child_inState (side : Side) : (n.inState state).child side = n.child side := by
  cases side <;> rfl

/-- A child may be changed before the state or after it. -/
@[simp] theorem setChild_inState (side : Side) (id : Option RecordId) :
    (n.inState state).setChild side id = (n.setChild side id).inState state := by
  cases side <;> rfl

/-- The parent of a node does not depend on its state. -/
@[simp] theorem parent_inState : (n.inState state).parent = n.parent := rfl

/-- Nor does its colour. -/
@[simp] theorem color_inState : (n.inState state).color = n.color := rfl

/-- Nor does the side of a child. -/
@[simp] theorem sideOf_inState (id : Option RecordId) :
    (n.inState state).sideOf id = n.sideOf id := rfl

/-- A change of a node that does not look at its state and keeps it. -/
def Blind (f : Node → Node) : Prop := ∀ n state, f (n.inState state) = (f n).inState state

/-- A change of a child is blind to the state. -/
theorem blind_setChild (side : Side) (id : Option RecordId) : Blind (·.setChild side id) :=
  fun _ _ => setChild_inState side id

/-- So is a change of the parent. -/
theorem blind_withParent (parent : Option RecordId) : Blind (·.withParent parent) :=
  fun _ _ => rfl

/-- So is a change of the colour. -/
theorem blind_withColor (color : Color) : Blind (·.withColor color) := fun _ _ => rfl

/-- So is an exchange of a child. -/
theorem blind_swapChild (old : RecordId) (new : Option RecordId) : Blind (·.swapChild old new) :=
  fun n state => by simp only [swapChild, sideOf_inState, setChild_inState]

end Node

/-- A record with a state that stands for the one of its node. -/
structure Stated (ρ : Type) where
  record : ρ
  state : State

instance : Linked (Stated ρ) where
  node r := (Linked.node r.record).inState r.state
  withNode r n := ⟨Linked.withNode r.record (n.inState (Linked.node r.record).state), n.state⟩

/-- The node of a record with a state in front has that state. -/
theorem Stated.node_eq (r : Stated ρ) :
    Linked.node r = (Linked.node r.record).inState r.state := rfl

/-- A change of the node goes to the record, and its state to the front. The record keeps its own
state. -/
theorem Stated.withNode_eq (r : Stated ρ) (n : Node) : Linked.withNode r n =
    ⟨Linked.withNode r.record (n.inState (Linked.node r.record).state), n.state⟩ := rfl

instance [LawfulLinked ρ] : LawfulLinked (Stated ρ) where
  node_withNode r n := by
    rw [Stated.withNode_eq, Stated.node_eq, LawfulLinked.node_withNode]
    rfl
  withNode_node r := by
    have hrecord : Linked.withNode r.record (Linked.node r.record) = r.record :=
      LawfulLinked.withNode_node r.record
    exact congrArg (Stated.mk · r.state) hrecord
  withNode_withNode r n m := by
    simp only [Stated.withNode_eq, LawfulLinked.withNode_withNode, LawfulLinked.node_withNode]
    rfl

namespace Store

/-- The records without the states in front of them. -/
def bare (s : Store (Stated ρ)) : Store ρ := s.map Stated.record

/-- The records with the state `linked` in front of each. -/
def linkedUp (s : Store ρ) : Store (Stated ρ) := s.map (⟨·, .linked⟩)

/-- The records of `s` with the states in front that they have in `s₀`. -/
def restate (s : Store ρ) (s₀ : Store (Stated ρ)) : Store (Stated ρ) :=
  s.mapIdx fun id r => ⟨r, if h : id < s₀.size then s₀[id].state else .linked⟩

/-- The state that the record has itself. -/
def ownState (s : Store (Stated ρ)) (id : RecordId) : Except Fault State :=
  (fun r => (Linked.node r.record).state) <$> s.fetch id

end Store

/-- The same read off the payloads. -/
def Payloads.ownState (p : Payloads (Stated ρ)) (id : RecordId) : Except Fault State :=
  (fun r => (Linked.node r.record).state) <$> p id

namespace Store

variable {s s' : Store (Stated ρ)} {id : RecordId} {n : Node}

omit [Linked ρ] in
/-- Without the states in front, the records are what they were. -/
@[simp] theorem bare_linkedUp (s : Store ρ) : s.linkedUp.bare = s := by
  simp [bare, linkedUp, Function.comp_def]

omit [Linked ρ] in
/-- Without the states that were put back in front, the records are what they were. -/
@[simp] theorem bare_restate (s : Store ρ) (s₀ : Store (Stated ρ)) : (s.restate s₀).bare = s := by
  refine Array.ext (by simp [bare, restate]) fun i hi hi' => ?_
  simp [bare, restate]

omit [Linked ρ] in
/-- The states in front add no record. -/
@[simp] theorem size_bare : s.bare.size = s.size := by simp [bare]

omit [Linked ρ] in
/-- A bare record is the record without the state in front of it. -/
theorem fetch_bare (s : Store (Stated ρ)) (id : RecordId) :
    s.bare.fetch id = Stated.record <$> s.fetch id := by
  by_cases h : id < s.size <;> simp [fetch, bare, h, Functor.map, Except.map]

/-- A bare node is the one seen, in the state that the record has itself. -/
theorem node_bare (s : Store (Stated ρ)) (id : RecordId) :
    s.bare.node id = (do return (← s.node id).inState (← s.ownState id)) := by
  rw [node, fetch_bare, node, ownState]
  cases s.fetch id <;> rfl

/-- The state of a bare record is its own. -/
theorem state_bare (s : Store (Stated ρ)) (id : RecordId) :
    (·.state) <$> s.bare.node id = s.ownState id := by
  rw [node, fetch_bare, ownState]
  cases s.fetch id <;> rfl

/-- A bare record has the same node but for its state. -/
theorem exists_node_bare (hn : s.node id = .ok n) :
    ∃ state, s.bare.node id = .ok (n.inState state) := by
  rw [node] at hn
  obtain ⟨r, hr, rfl⟩ := except_functor_map_eq_ok.mp hn
  refine ⟨(Linked.node r.record).state, ?_⟩
  rw [node, fetch_bare, hr]
  rfl

/-- With `linked` in front, all nodes count as linked. -/
theorem node_linkedUp (s : Store ρ) (id : RecordId) :
    s.linkedUp.node id = (·.inState .linked) <$> s.node id := by
  by_cases h : id < s.size <;>
    simp [node, fetch, linkedUp, h, Functor.map, Except.map, Stated.node_eq]

/-- A change that does not look at the state is the same change of the bare record. -/
theorem bare_modifyNode [LawfulLinked ρ] {f : Node → Node} (hf : Node.Blind f) :
    (s.modifyNode id f).bare = s.bare.modifyNode id f := by
  have hrecord : ∀ r : Stated ρ, (Linked.withNode r (f (Linked.node r))).record =
      Linked.withNode r.record (f (Linked.node r.record)) := by
    intro r
    have hown := hf (Linked.node r.record) (Linked.node r.record).state
    rw [Stated.node_eq, hf, Stated.withNode_eq]
    exact congrArg _ hown.symm
  refine Array.ext (by simp [bare]) fun i hi hi' => ?_
  by_cases h : id = i <;> simp [bare, modifyNode, Array.getElem_modify, h, hrecord]

end Store

/-! ### Following without the states -/

namespace Update

/-- Where `u` returns, `v` does the same to the bare records. -/
def Follows (u : Update (Stated ρ) σ α) (v : Update ρ σ α) : Prop :=
  ∀ s x a s' x', u s x = .ok ((a, s'), x') → v s.bare x = .ok ((a, s'.bare), x')

variable {f : α → Update (Stated ρ) σ β} {g : α → Update ρ σ β}

omit [Linked ρ] in
/-- Returning a value does not look at states. -/
theorem follows_pure (a : α) : Follows (pure a : Update (Stated ρ) σ α) (pure a) := by
  rintro s x b s' x' ⟨⟩
  rfl

omit [Linked ρ] in
/-- A run that fails is followed by any run. -/
theorem follows_throw {fault : Fault} {v : Update ρ σ α} : Follows (throw fault) v := by
  rintro s x b s' x' ⟨⟩

omit [Linked ρ] in
/-- Updates that do not look at states do not do so in sequence. -/
theorem Follows.bind {u : Update (Stated ρ) σ α} {v : Update ρ σ α} (h : Follows u v)
    (hfg : ∀ a, Follows (f a) (g a)) : Follows (u >>= f) (v >>= g) := by
  intro s x b s₂ x₂ hrun
  obtain ⟨⟨⟨a, s₁⟩, x₁⟩, hfirst, hrest⟩ := except_bind_eq_ok.mp hrun
  exact except_bind_eq_ok.mpr ⟨_, h s x a s₁ x₁ hfirst, hfg a s₁ x₁ b s₂ x₂ hrest⟩

/-- What is read of a node has to come out the same in any state. -/
theorem follows_node {f : Node → Update (Stated ρ) σ β} {g : Node → Update ρ σ β} {id : RecordId}
    (h : ∀ n state, Follows (f n) (g (n.inState state))) :
    Follows (node id >>= f) (node id >>= g) := by
  intro s x b s' x' hrun
  obtain ⟨⟨⟨n, s₁⟩, x₁⟩, hfirst, hrest⟩ := except_bind_eq_ok.mp hrun
  obtain ⟨m, hn, heq⟩ := except_map_eq_ok.mp hfirst
  cases heq
  obtain ⟨state, hbare⟩ := Store.exists_node_bare hn
  refine except_bind_eq_ok.mpr ⟨((n.inState state, s.bare), x), ?_, h n state s x b s' x' hrest⟩
  exact except_map_eq_ok.mpr ⟨_, hbare, rfl⟩

variable [LawfulLinked ρ]

/-- A change of a node that is blind to the state does the same to the bare record. -/
theorem follows_modifyNode {f : Node → Node} (hf : Node.Blind f) (id : RecordId) :
    Follows (modifyNode id f : Update (Stated ρ) σ Unit) (modifyNode id f) := by
  intro s x a s' x' hrun
  have hreturns : (modifyNode id f).Returns s x fun _ t y => t = s' ∧ y = x' :=
    ⟨a, s', x', hrun, rfl, rfl⟩
  obtain ⟨hlt, rfl, rfl⟩ := returns_modifyNode.mp hreturns
  have hbare : (modifyNode id f).Returns s.bare x fun _ t y =>
      t = (s.modifyNode id f).bare ∧ y = x :=
    returns_modifyNode.mpr ⟨by rwa [Store.size_bare], (Store.bare_modifyNode hf).symm, rfl⟩
  obtain ⟨_, _, _, hrun', rfl, rfl⟩ := hbare
  exact hrun'

/-- So does colouring a node. -/
theorem follows_paint (id : RecordId) (color : Color) :
    Follows (paint id color : Update (Stated ρ) σ Unit) (paint id color) :=
  follows_modifyNode (Node.blind_withColor color) id

/-- So does colouring a node that may be missing. -/
theorem follows_paint? (id : Option RecordId) (color : Color) :
    Follows (paint? id color : Update (Stated ρ) σ Unit) (paint? id color) := by
  cases id with
  | none => exact follows_pure ()
  | some id => exact follows_paint id color

/-- So does putting a node under another parent. -/
theorem follows_setParent (id parent : Option RecordId) :
    Follows (setParent id parent : Update (Stated ρ) σ Unit) (setParent id parent) := by
  cases id with
  | none => exact follows_pure ()
  | some id => exact follows_modifyNode (Node.blind_withParent parent) id

omit [LawfulLinked ρ] in
/-- The colour of a node is that of the bare record. -/
theorem follows_colorOf (id : Option RecordId) :
    Follows (colorOf id : Update (Stated ρ) σ Color) (colorOf id) := by
  cases id with
  | none => exact follows_pure _
  | some id => exact follows_node fun n state => follows_pure n.color

/-- `u` on the bare records, each of which keeps the state in front of it. -/
def stated (u : Update ρ σ α) : Update (Stated ρ) σ α :=
  fun s x => (u s.bare x).map fun ((a, s'), x') => ((a, s'.restate s), x')

omit [Linked ρ] [LawfulLinked ρ] in
/-- A call on the bare records does to them what it does. -/
theorem follows_stated (u : Update ρ σ α) : Follows u.stated u := by
  intro s x a s' x' hrun
  obtain ⟨⟨⟨b, s₁⟩, x₁⟩, hbare, heq⟩ := except_map_eq_ok.mp hrun
  cases heq
  rw [hbare, Store.bare_restate]

end Update

/-- The augmentation with its calls on the bare records. -/
def Augmentation.stated (aug : Augmentation ρ σ) : Augmentation (Stated ρ) σ where
  propagate node stop := (aug.propagate node stop).stated
  copy old new := (aug.copy old new).stated
  rotate old new := (aug.rotate old new).stated

namespace Tree

open Update

variable [LawfulLinked ρ] (aug : Augmentation ρ σ) (t : Tree) {side : Side}

/-- Exchanging a child does the same to the bare records. -/
theorem follows_changeChild (old : RecordId) (new parent : Option RecordId) :
    Follows (t.changeChild old new parent : Update (Stated ρ) σ Tree)
      (t.changeChild old new parent) := by
  cases parent with
  | none => exact follows_pure _
  | some parent =>
    exact (follows_modifyNode (Node.blind_swapChild old new) parent).bind fun _ => follows_pure t

/-- So does a rotation, with the callback about the bare records. -/
theorem follows_rotate (id : RecordId) (side : Side) :
    Follows (t.rotate aug.stated id side) (t.rotate aug id side) := by
  refine follows_node fun n state => ?_
  rw [Node.child_inState]
  cases n.child side.flip with
  | none => exact follows_pure t
  | some up =>
    refine follows_node fun m state' => ?_
    rw [Node.child_inState]
    refine (follows_modifyNode (Node.blind_setChild _ _) id).bind fun _ => ?_
    refine (follows_setParent _ _).bind fun _ => ?_
    refine (follows_modifyNode (Node.blind_setChild _ _) up).bind fun _ => ?_
    refine (follows_setParent _ _).bind fun _ => (follows_setParent _ _).bind fun _ => ?_
    refine (follows_changeChild t id (some up) n.parent).bind fun t => ?_
    exact (follows_stated (aug.rotate id up)).bind fun _ => follows_pure t

/-- So does raising a red parent. -/
theorem follows_raiseParent (id parent grand : RecordId) (side : Side) :
    Follows (t.raiseParent aug.stated id parent grand side)
      (t.raiseParent aug id parent grand side) := by
  -- Whichever node rises in the end, the last steps are the same.
  have hrise : ∀ (t : Tree) (top : RecordId), Follows
      (do
        let t ← t.rotate aug.stated grand side.flip
        Update.paint top .black
        Update.paint grand .red
        pure t)
      (do
        let t ← t.rotate aug grand side.flip
        Update.paint top .black
        Update.paint grand .red
        pure t) := by
    intro t top
    refine (follows_rotate aug t grand side.flip).bind fun t => ?_
    exact (follows_paint top .black).bind fun _ => (follows_paint grand .red).bind fun _ =>
      follows_pure t
  refine follows_node fun n state => ?_
  rw [Node.child_inState]
  dsimp only
  split_ifs
  · exact (follows_rotate aug t parent side).bind fun t => hrise t id
  · exact (follows_pure t).bind fun t => hrise t parent

/-- What the repair does where a red parent has no parent is of no concern to a run that ends
without coming to that. -/
theorem follows_mendRedElse (orphan : Tree → RecordId → Update ρ σ Tree) (steps : Nat)
    (id : RecordId) :
    Follows (mendRedElse aug.stated (fun _ _ => throw .endless) steps t id)
      (mendRedElse aug orphan steps t id) := by
  -- By induction on the steps, along the branches of a turn.
  induction steps generalizing t id with
  | zero => exact follows_throw
  | succ steps ih =>
    refine follows_node fun n state => ?_
    cases hparent : n.parent with
    | none =>
      simp only [Node.parent_inState, hparent]
      exact (follows_paint id .black).bind fun _ => follows_pure t
    | some parent =>
      simp only [Node.parent_inState, hparent]
      refine follows_node fun p state' => ?_
      simp only [Node.parent_inState, Node.color_inState]
      cases p.color with
      | black => exact follows_pure t
      | red =>
        cases p.parent with
        | none => exact follows_throw
        | some grand =>
          refine follows_node fun g state'' => ?_
          simp only [Node.sideOf_inState, Node.child_inState]
          refine (follows_colorOf _).bind fun color => ?_
          cases color with
          | red =>
            refine (follows_paint parent .black).bind fun _ => ?_
            refine (follows_paint? _ .black).bind fun _ => ?_
            exact (follows_paint grand .red).bind fun _ => ih t grand
          | black => exact follows_raiseParent aug t id parent grand _

/-- So does borrowing a black from the sibling. -/
theorem follows_borrowBlack (parent sibling : RecordId) (side : Side) :
    Follows (t.borrowBlack aug.stated parent sibling side)
      (t.borrowBlack aug parent sibling side) := by
  refine follows_node fun p state => (follows_paint sibling p.color).bind fun _ => ?_
  refine (follows_paint parent .black).bind fun _ => follows_node fun sib state' => ?_
  rw [Node.child_inState]
  exact (follows_paint? _ .black).bind fun _ => follows_rotate aug t parent side

/-- So does raising a red sibling. -/
theorem follows_raiseBeside (parent : RecordId) (side : Side) (beside : Option RecordId)
    (c : Color) :
    Follows (raiseBeside aug.stated t parent side beside c)
      (raiseBeside aug t parent side beside c) := by
  cases c with
  | black => exact follows_pure _
  | red =>
    refine (follows_paint? beside .black).bind fun _ => (follows_paint parent .red).bind fun _ => ?_
    refine (follows_rotate aug t parent side).bind fun t => follows_node fun p state => ?_
    rw [Node.child_inState]
    exact follows_pure _

section Loop

variable {again : Tree → Option RecordId → Option RecordId → Update (Stated ρ) σ Tree}
  {again' : Tree → Option RecordId → Option RecordId → Update ρ σ Tree}
  (hagain : ∀ t id parent, Follows (again t id parent) (again' t id parent))
include hagain

/-- So does the rest of a turn, if the loop that may go on does. -/
theorem follows_mendBeside (parent sibling : RecordId) (side : Side) :
    Follows (mendBeside aug.stated again t parent side (some sibling))
      (mendBeside aug again' t parent side (some sibling)) := by
  have hborrow := follows_borrowBlack aug t parent sibling side
  refine follows_node fun sib state => ?_
  simp only [Node.child_inState]
  refine (follows_colorOf _).bind fun near => ?_
  cases near with
  | black =>
    refine (follows_colorOf _).bind fun far => ?_
    cases far with
    | black =>
      refine (follows_paint sibling .red).bind fun _ => follows_node fun p state' => ?_
      exact hagain t (some parent) p.parent
    | red => exact hborrow
  | red =>
    refine (follows_colorOf _).bind fun far => ?_
    cases far with
    | red => exact hborrow
    | black =>
      cases sib.child side with
      | none => exact hborrow
      | some inner =>
        refine (follows_paint inner .black).bind fun _ => ?_
        refine (follows_paint sibling .red).bind fun _ => ?_
        exact (follows_rotate aug t sibling side.flip).bind fun t =>
          follows_borrowBlack aug t parent inner side

end Loop

/-- What the repair does where a sibling is missing is of no concern to a run that ends without
coming to that. -/
theorem follows_mendBlackElse
    (lone : (Tree → Option RecordId → Option RecordId → Update ρ σ Tree) →
      Tree → RecordId → Update ρ σ Tree) (steps : Nat) (id parent : Option RecordId) :
    Follows (mendBlackElse aug.stated (fun _ _ _ => throw .endless) steps t id parent)
      (mendBlackElse aug lone steps t id parent) := by
  have hpaint : ∀ (t : Tree) (id : Option RecordId), Follows
      (do
        Update.paint? id .black
        pure t)
      (do
        Update.paint? id .black
        pure t : Update ρ σ Tree) :=
    fun t id => (follows_paint? id .black).bind fun _ => follows_pure t
  induction steps generalizing t id parent with
  | zero =>
    cases parent with
    | none => exact hpaint t id
    | some parent => exact follows_throw
  | succ steps ih =>
    cases parent with
    | none => exact hpaint t id
    | some parent =>
      refine (follows_colorOf id).bind fun c => ?_
      cases c with
      | red => exact hpaint t id
      | black =>
        refine follows_node fun p state => ?_
        simp only [Node.sideOf_inState, Node.child_inState]
        refine (follows_colorOf _).bind fun c => ?_
        refine (follows_raiseBeside aug t parent _ _ c).bind fun out => ?_
        obtain ⟨t, beside⟩ := out
        cases beside with
        | none => exact follows_throw
        | some sibling => exact follows_mendBeside aug t ih parent sibling _

end Tree

/-! ### Trees whatever the states -/

/-- The records below `position` are linked as `shape` says, and hang under `parent`. -/
inductive Hangs (s : Store ρ) : Option RecordId → Option RecordId → Shape → Prop
  | leaf (parent : Option RecordId) : Hangs s parent none .leaf
  | node {parent : Option RecordId} {id : RecordId} {n : Node} {l r : Shape} :
      s.node id = .ok n → n.parent = parent → Hangs s (some id) n.left l →
      Hangs s (some id) n.right r → Hangs s parent (some id) (.node n.color l id r)

/-- Links down from the handle's root and links back up spell out `shape`, and each record stands
there once. -/
structure Tree.Consistent (t : Tree) (s : Store ρ) (shape : Shape) : Prop where
  hangs : Hangs s none t.root shape
  nodup : shape.inorder.Nodup

/-- Links that spell out a shape among records with states do so among the bare ones, whose own
states do not matter. -/
theorem Represents.bare {s : Store (Stated ρ)} {parent position : Option RecordId} {shape : Shape}
    (h : Represents s parent position shape) : Hangs s.bare parent position shape := by
  induction h with
  | leaf parent => exact .leaf parent
  | @node parent id n l r hn hparent _ _ _ ihl ihr =>
    obtain ⟨state, hbare⟩ := Store.exists_node_bare hn
    exact Hangs.node (n := n.inState state) hbare hparent ihl ihr

/-- Links that spell out a shape whatever the states are, do so with `linked` in front. -/
theorem Hangs.linkedUp {s : Store ρ} {parent position : Option RecordId} {shape : Shape}
    (h : Hangs s parent position shape) : Represents s.linkedUp parent position shape := by
  induction h with
  | leaf parent => exact .leaf parent
  | @node parent id n l r hn hparent _ _ ihl ihr =>
    have hlinked : s.linkedUp.node id = .ok (n.inState .linked) := by
      rw [Store.node_linkedUp, hn, except_functor_map_ok]
    exact Represents.node (n := n.inState .linked) hlinked hparent rfl ihl ihr

/-- A tree among records with states is consistent among the bare ones. -/
theorem Tree.HasShape.bare {t : Tree} {s : Store (Stated ρ)} {shape : Shape}
    (h : t.HasShape s shape) : t.Consistent s.bare shape :=
  ⟨h.represents.bare, h.nodup⟩

/-- A consistent tree is a tree with `linked` in front of its records. -/
theorem Tree.Consistent.linkedUp {t : Tree} {s : Store ρ} {shape : Shape}
    (h : t.Consistent s shape) : t.HasShape s.linkedUp shape :=
  ⟨h.hangs.linkedUp, h.nodup⟩

/-! ### Augmentations that do not disturb -/

/-- Told of a rotation in a consistent tree, the augmentation ends and leaves all nodes alone. -/
structure Augmentation.Steady (aug : Augmentation ρ σ) : Prop where
  rotate {t : Tree} {s : Store ρ} {shape : Shape} {id up : RecordId} (x : σ) :
    t.Consistent s shape → id ∈ shape.inorder → up ∈ shape.inorder →
    (aug.rotate id up).Returns s x fun _ s' _ => s'.node = s.node

/-- No callbacks are steady. -/
theorem Augmentation.steady_none : (Augmentation.none : Augmentation ρ σ).Steady where
  rotate _ _ _ _ := Update.returns_pure.mpr rfl

section Turns

variable {s : Store (Stated ρ)} {s' : Store ρ}

omit [Linked ρ] in
/-- A record that gets its state back has the state that it had. -/
theorem Store.fetch_restate (hsize : s'.size = s.size) (id : RecordId) :
    (s'.restate s).fetch id = (do return ⟨← s'.fetch id, (← s.fetch id).state⟩) := by
  by_cases h : id < s.size <;> simp [fetch, restate, hsize, h, bind, Except.bind, pure, Except.pure]

/-- If the bare nodes stay as they are, then so do the ones that are seen, and the states behind
them. -/
theorem Store.node_restate (h : s'.node = s.bare.node) :
    (s'.restate s).node = s.node ∧ (s'.restate s).ownState = s.ownState := by
  have hsize : s'.size = s.size := (Store.size_eq_of_node h).trans Store.size_bare
  have hrecord : ∀ id, (s'.restate s).node id = s.node id ∧
      (s'.restate s).ownState id = s.ownState id := by
    intro id
    have hnode := congrFun h id
    rw [node, node, fetch_bare] at hnode
    rw [node, node, ownState, ownState, fetch_restate hsize]
    cases hr : s'.fetch id <;> cases hq : s.fetch id <;>
      simp_all [Functor.map, Except.map, bind, Except.bind, pure, Except.pure, Stated.node_eq]
  exact ⟨funext fun id => (hrecord id).1, funext fun id => (hrecord id).2⟩

variable [LawfulLinked ρ]

/-- The state that a record has itself is part of what it holds besides the node that is seen. -/
theorem Store.ownState_eq (s : Store (Stated ρ)) : s.ownState = Payloads.ownState s.payload := by
  funext id
  rw [ownState, Payloads.ownState, payload]
  cases s.fetch id with
  | error fault => rfl
  | ok r =>
    show Except.ok _ = Except.ok (Linked.node (Linked.withNode r.record _)).state
    rw [LawfulLinked.node_withNode]
    rfl

/-- A steady augmentation, called on the bare records, goes with every rotation and leaves their own
states alone. -/
theorem Augmentation.Steady.turns_stated {aug : Augmentation ρ σ} (steady : aug.Steady)
    (own : RecordId → Except Fault State) :
    aug.stated.Turns fun _ p _ _ => Payloads.ownState p = own where
  recolor _ hown := hown
  rotate {k s x t C side c d a b e id up} h hown := by
    obtain ⟨_, s', x', hrun, hnode⟩ :=
      steady.rotate x h.bare (show id ∈ _ by simp) (show up ∈ _ by simp)
    obtain ⟨hseen, hstate⟩ := Store.node_restate hnode
    have hstated : (aug.stated.rotate id up) s x = .ok (((), s'.restate s), x') :=
      except_map_eq_ok.mpr ⟨_, hrun, rfl⟩
    refine (Update.returns_of_run hstated).mpr ⟨hseen, ?_⟩
    rwa [← Store.ownState_eq, hstate, Store.ownState_eq]

end Turns

end RecordTree
