import RecordTree.Proofs.Tree.Rotate
import RecordTree.Proofs.Tree.Halts

/-!
# `RecordTree.Proofs.Tree.Corrupt`: a tree in which one node is wrong does not pass

`Store.Corrupts` is a change of the colour, the parent link or the state of one node to another
value. It leaves the child links alone (`Store.children`), which is all that a validation follows.
So these lead to records as before, and a validation comes to an end (`Represents.closed`). It
cannot pass, for two reasons.

* Parent links and states are determined by the child links: `Represents.node_eq`.
* So are the colours, but not from one node alone. A node of another colour puts another number of
  blacks on the paths through it, while those through its sibling stay as they were, and the root
  has no sibling but has to be black: `Context.color_eq_of_redBlack`.

`Tree.exists_defect_of_corrupts` puts this together. The black height that a validation answers is
the number of blacks on every path (`Store.Path`).
-/

set_option autoImplicit false

namespace RecordTree

open Std

variable {ρ σ : Type}

/-! ### Black heights -/

/-- All paths down a shape have the same number of blacks, so there is one such number only. -/
theorem Shape.Balanced.unique {t : Shape} {h h' : Nat} (hb : t.Balanced h) (hb' : t.Balanced h') :
    h = h' := by
  induction hb generalizing h' with
  | leaf =>
    cases hb'
    rfl
  | red _ _ _ _ ihl =>
    cases hb' with
    | red hl => exact ihl hl
  | black _ _ ihl =>
    cases hb' with
    | black hl => rw [ihl hl]

/-- A node in its place can have one colour only. -/
theorem Context.color_eq_of_redBlack {C : Context} {c d : Color} {l r : Shape} {id : RecordId}
    {h h' : Nat} (hc : (C.fill (.node c l id r)).RedBlack h)
    (hd : (C.fill (.node d l id r)).RedBlack h') : c = d := by
  obtain ⟨k, hbalc, hfitsc, hblackc⟩ := redBlack_fill.mp hc
  obtain ⟨m, hbald, hfitsd, hblackd⟩ := redBlack_fill.mp hd
  cases C with
  | top =>
    have hcolor : c = .black := hblackc.resolve_right nofun
    have hcolor' : d = .black := hblackd.resolve_right nofun
    rw [hcolor, hcolor']
  | under side color above sibling C =>
    -- The sibling says how many blacks there are to be.
    have hsame : k = m := by
      cases hfitsc with
      | red hs =>
        cases hfitsd with
        | red hs' => exact hs.unique hs'
      | black hs =>
        cases hfitsd with
        | black hs' => exact hs.unique hs'
    obtain ⟨i, hl, -, -, hk⟩ := Shape.balanced_node.mp hbalc
    obtain ⟨j, hl', -, -, hm⟩ := Shape.balanced_node.mp hbald
    obtain rfl := hl.unique hl'
    cases c with
    | red =>
      cases d with
      | red => rfl
      | black =>
        simp only [reduceCtorEq, if_true, if_false] at hk hm
        omega
    | black =>
      cases d with
      | black => rfl
      | red =>
        simp only [reduceCtorEq, if_true, if_false] at hk hm
        omega

variable [Linked ρ]

/-- A path down from a position to an empty one, with the number of black nodes on it. -/
inductive Store.Path (s : Store ρ) : Option RecordId → Nat → Prop where
  | stop : Path s none 0
  | down {id : RecordId} {n : Node} {blacks : Nat} (side : Side) : s.node id = .ok n →
      Path s (n.child side) blacks →
      Path s (some id) (if n.color = .black then blacks + 1 else blacks)

/-- Every path has as many blacks as the shape says. -/
theorem Represents.blacks_eq {s : Store ρ} {parent position : Option RecordId} {t : Shape}
    {height blacks : Nat} (h : Represents s parent position t) (hb : t.Balanced height)
    (hpath : s.Path position blacks) : blacks = height := by
  -- The shape is determined along the path, and below either side it has the same black height.
  induction hpath generalizing parent t height with
  | stop =>
    cases h
    cases hb
    rfl
  | @down id n blacks side hn _ ih =>
    cases h with
    | node hm _ _ hl hr =>
      rw [hn] at hm
      cases hm
      obtain ⟨k, hbl, hbr, -, rfl⟩ := Shape.balanced_node.mp hb
      have hblacks : blacks = k := by
        cases side with
        | left => exact ih hl hbl
        | right => exact ih hr hbr
      subst hblacks
      cases n.color <;> rfl

/-- There is a path with each number of blacks that the shape is balanced for. -/
theorem Represents.exists_path {s : Store ρ} {parent position : Option RecordId} {t : Shape}
    {height : Nat} (h : Represents s parent position t) (hb : t.Balanced height) :
    s.Path position height := by
  induction h generalizing height with
  | leaf =>
    cases hb
    exact .stop
  | @node parent id n l r hn _ _ _ _ ihl _ =>
    obtain ⟨k, hbl, -, -, rfl⟩ := Shape.balanced_node.mp hb
    have hpath := Store.Path.down .left hn (ihl hbl)
    cases hcolor : n.color <;> simpa [hcolor] using hpath

/-- The black height is what is counted on the paths. -/
theorem Represents.path_iff {s : Store ρ} {parent position : Option RecordId} {t : Shape}
    {height blacks : Nat} (h : Represents s parent position t) (hb : t.Balanced height) :
    s.Path position blacks ↔ blacks = height := by
  constructor
  · exact h.blacks_eq hb
  · rintro rfl
    exact h.exists_path hb

/-! ### Child links -/

/-- The child links of record `id`. -/
def Store.children (s : Store ρ) (id : RecordId) : Except Fault (Side → Option RecordId) :=
  Node.child <$> s.node id

section Children

variable {s s' : Store ρ}

/-- A node with the same child links. -/
theorem Store.exists_node_of_children (h : s'.children = s.children) {id : RecordId} {n : Node}
    (hn : s.node id = .ok n) : ∃ n', s'.node id = .ok n' ∧ n'.child = n.child := by
  have hid := congrFun h id
  rw [children, children, hn] at hid
  exact except_functor_map_eq_ok.mp hid

/-- Records with the same child links are records of both stores. -/
theorem Store.lt_size_of_children (h : s'.children = s.children) {id : RecordId} {n : Node}
    (hn : s.node id = .ok n) : id < s'.size := by
  obtain ⟨n', hn', -⟩ := exists_node_of_children h hn
  exact lt_of_node hn'

/-- What child links lead to is told by them. -/
theorem Store.Reaches.of_children (h : s'.children = s.children) {position : Option RecordId}
    {id : RecordId} (hreach : s'.Reaches position id) : s.Reaches position id := by
  induction hreach with
  | here hn =>
    obtain ⟨n, hn', -⟩ := exists_node_of_children h.symm hn
    exact .here hn'
  | child side hn _ ih =>
    obtain ⟨n, hn', hchild⟩ := exists_node_of_children h.symm hn
    exact .child side hn' (hchild ▸ ih)

/-- The children of a record in a shape are records as well. -/
theorem Represents.exists_node_of_child {above position : Option RecordId} {t : Shape}
    (h : Represents s above position t) {id j : RecordId} {n : Node} {side : Side}
    (hid : s.Reaches position id) (hn : s.node id = .ok n) (hj : n.child side = some j) :
    ∃ m, s.node j = .ok m := by
  have htop : ∀ {above : Option RecordId} {u : Shape}, Represents s above (some j) u →
      ∃ m, s.node j = .ok m := by
    rintro above _ ⟨⟩
    exact ⟨_, ‹_›⟩
  -- By induction on the way down, along which the shape goes down too.
  induction hid generalizing above t with
  | here =>
    cases h with
    | node hm _ _ hl hr =>
      rw [hn] at hm
      cases hm
      cases side with
      | left =>
        have hleft : n.left = some j := hj
        exact htop (hleft ▸ hl)
      | right =>
        have hright : n.right = some j := hj
        exact htop (hright ▸ hr)
  | child way hm _ ih =>
    cases h with
    | node hm' _ _ hl hr =>
      rw [hm] at hm'
      cases hm'
      cases way with
      | left => exact ih hl hn
      | right => exact ih hr hn

/-- So child links below a shape lead to records, if they are those that the shape is made of. -/
theorem Represents.closed (hchildren : s'.children = s.children) {above position : Option RecordId}
    {t : Shape} (h : Represents s above position t) : s'.Closed position where
  lt_size id hid := by
    subst hid
    cases h with
    | node hn => exact Store.lt_size_of_children hchildren hn
  child_lt id n side j hreach hn hj := by
    obtain ⟨m, hm, hchild⟩ := Store.exists_node_of_children hchildren.symm hn
    obtain ⟨k, hk⟩ :=
      h.exists_node_of_child (hreach.of_children hchildren) hm ((congrFun hchild side).trans hj)
    exact Store.lt_size_of_children hchildren hk

/-- A parent link and a state are determined by the child links above them. -/
theorem Represents.node_eq (hchildren : s'.children = s.children)
    {parent position : Option RecordId} {t t' : Shape} (h : Represents s parent position t)
    (h' : Represents s' parent position t') {id : RecordId} {n n' : Node} (hid : id ∈ t.inorder)
    (hn : s.node id = .ok n) (hn' : s'.node id = .ok n') :
    n'.parent = n.parent ∧ n'.state = n.state := by
  -- By induction on the shape in `s`. The child links lead the one in `s'` along.
  induction h generalizing t' with
  | leaf => cases hid
  | @node parent top m l r hm hparent hstate _ _ ihl ihr =>
    cases h' with
    | @node _ _ m' _ _ hm' hparent' hstate' hl' hr' =>
      obtain ⟨_, hm'', hchild⟩ := Store.exists_node_of_children hchildren hm
      rw [hm'] at hm''
      cases hm''
      have hleft : m'.left = m.left := congrFun hchild .left
      have hright : m'.right = m.right := congrFun hchild .right
      simp only [Shape.inorder, List.mem_append, List.mem_cons] at hid
      rcases hid with hid | rfl | hid
      · exact ihl (hleft ▸ hl') hid
      · rw [hn] at hm
        rw [hn'] at hm'
        cases hm
        cases hm'
        exact ⟨hparent'.trans hparent.symm, hstate'.trans hstate.symm⟩
      · exact ihr (hright ▸ hr') hid

end Children

/-! ### One wrong node -/

/-- The store after one of the colour, the parent link and the state of `id` was changed to another
value. -/
inductive Store.Corrupts (s : Store ρ) (id : RecordId) : Store ρ → Prop where
  | color {n : Node} {color : Color} : s.node id = .ok n → color ≠ n.color →
      Corrupts s id (s.modifyNode id fun n => { n with color })
  | parent {n : Node} {parent : Option RecordId} : s.node id = .ok n → parent ≠ n.parent →
      Corrupts s id (s.modifyNode id fun n => { n with parent })
  | state {n : Node} {state : State} : s.node id = .ok n → state ≠ n.state →
      Corrupts s id (s.modifyNode id fun n => { n with state })

variable [LawfulLinked ρ] {s s' : Store ρ}

/-- A change that leaves the children of a node alone leaves all child links alone. -/
theorem Store.children_modifyNode {f : Node → Node} (hf : ∀ n, (f n).child = n.child)
    (id : RecordId) : (s.modifyNode id f).children = s.children := by
  funext j
  unfold children
  rw [node_modifyNode]
  split_ifs
  · cases s.node j with
    | error fault => rfl
    | ok n =>
      show Except.ok (f n).child = Except.ok n.child
      rw [hf]
  · rfl

/-- Colours, parent links and states are not child links. -/
theorem Store.Corrupts.children_eq {id : RecordId} (h : s.Corrupts id s') :
    s'.children = s.children := by
  cases h with
  | color | parent | state =>
    exact children_modifyNode (fun n => funext fun side => by cases side <;> rfl) id

namespace Tree

variable {t : Tree} {shape : Shape} {order : ρ → ρ → Ordering} {compare : Comparator ρ σ}

/-- What is wrong at one node of a tree is found. -/
theorem not_passes_of_corrupts [OrientedCmp order] (h : t.Keeps s shape)
    (hanswers : compare.Answers order) {id : RecordId} (hid : id ∈ shape.inorder)
    (hcorrupts : s.Corrupts id s') (x : σ) :
    ¬ (t.validate s' compare).Passes x fun _ _ => True := by
  rintro ⟨height, x', hrun, -⟩
  obtain ⟨shape', hchecked, hblack⟩ := exists_checked_of_validate hanswers hrun
  have hrep := hchecked.represents
  have hagree {n n' : Node} (hn : s.node id = .ok n) (hn' : s'.node id = .ok n') :=
    h.represents.node_eq hcorrupts.children_eq hrep hid hn hn'
  cases hcorrupts with
  | @color n color hn hne =>
    obtain ⟨C, c, l, r, rfl⟩ := Shape.exists_context hid
    have hnode := (spells_node.mp (represents_fill.mp h.represents).2).1
    rw [hn] at hnode
    cases hnode
    -- The validation has read back the shape with the other colour, which is not balanced.
    have hpainted : t.HasShape (s.modifyNode id fun n => { n with color })
        (C.fill (.node color l id r)) := (h.toHasShape.paint color).hasShape
    obtain rfl := hpainted.represents.unique hrep
    obtain ⟨height', hredBlack⟩ := h.redBlack
    exact hne (Context.color_eq_of_redBlack ⟨hblack, hchecked.balanced⟩ hredBlack)
  | @parent n parent hn hne =>
    have hn' : (s.modifyNode id fun n => { n with parent }).node id = .ok { n with parent } := by
      rw [Store.node_modifyNode, if_pos rfl, hn]
      rfl
    exact hne (hagree hn hn').1
  | @state n state hn hne =>
    have hn' : (s.modifyNode id fun n => { n with state }).node id = .ok { n with state } := by
      rw [Store.node_modifyNode, if_pos rfl, hn]
      rfl
    exact hne (hagree hn hn').2

/-- What is wrong at one node makes the validation end with a defect. -/
theorem exists_defect_of_corrupts [OrientedCmp order] (h : t.Keeps s shape)
    (hanswers : compare.Answers order) {id : RecordId} (hid : id ∈ shape.inorder)
    (hcorrupts : s.Corrupts id s') (x : σ) :
    ∃ defect x', (t.validate s' compare).run x = .ok (.error defect, x') :=
  (ends_validate (h.represents.closed hcorrupts.children_eq) compare x).exists_defect
    (not_passes_of_corrupts h hanswers hid hcorrupts x)

end Tree

end RecordTree
