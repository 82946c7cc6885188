import RecordTree.CachedTree
import RecordTree.Proofs.Lockstep.Basic
import RecordTree.Proofs.Tree.Erase
import RecordTree.Proofs.Tree.Insert
import RecordTree.Tree.Replace

/-!
# `RecordTree.Proofs.Lockstep.Tree`: the tree code in step with itself

One lemma for each function of the tree code: on matching states (`Lockstep`), and with callbacks
of which the ones follow the others (`Augmentation.Tracks`), a run of it can follow another one.
What a run is started from has to be within the ids that the alignment knows, and then so is what
it returns. Nothing is asked of the states besides. They need not have a tree in them, so what is
followed here is the code, link by link.

The lemmas come in the order in which the functions call each other: the repairs of an insertion
(`Lockstep.attach`), those of a deletion (`Lockstep.erase`), the replacement of a node
(`Lockstep.substitute`), the release of all (`Lockstep.clear`), and then the calls with their
guards, on the handle of a tree and on that of a cached one.
-/

set_option autoImplicit false

namespace RecordTree

variable {ρ σ σ₀ : Type}

/-- The callbacks of `aug'` follow those of `aug` when they are about nodes of `F`. -/
structure Augmentation.Tracks (F : Set RecordId) (R : Alignment ρ σ σ₀) (aug : Augmentation ρ σ)
    (aug' : Augmentation ρ σ₀) : Prop where
  propagate {node stop : Option RecordId} : Inside F node → Inside F stop →
    Update.Tracks R (aug.propagate node stop) (aug'.propagate node stop) fun _ => True
  copy {old new : RecordId} : old ∈ F → new ∈ F →
    Update.Tracks R (aug.copy old new) (aug'.copy old new) fun _ => True
  rotate {old new : RecordId} : old ∈ F → new ∈ F →
    Update.Tracks R (aug.rotate old new) (aug'.rotate old new) fun _ => True

/-- Without callbacks there is nothing to follow. -/
theorem Augmentation.tracks_none (F : Set RecordId) (R : Alignment ρ σ σ₀) :
    Augmentation.Tracks F R .none .none :=
  ⟨fun _ _ => Update.tracks_pure trivial, fun _ _ => Update.tracks_pure trivial,
    fun _ _ => Update.tracks_pure trivial⟩

variable [Linked ρ]

/-- The tree's root is one of `F`. -/
def Tree.Inside (F : Set RecordId) (t : Tree) : Prop := RecordTree.Inside F t.root

/-- The root of a cached tree and its first node are among `F`. -/
structure CachedTree.Inside (F : Set RecordId) (t : CachedTree) : Prop where
  tree : t.tree.Inside F
  leftmost : RecordTree.Inside F t.leftmost

/-- The node that a slot is under is one of `F`. -/
def Slot.Inside (F : Set RecordId) (slot : Slot) : Prop := RecordTree.Inside F slot.parent

namespace Lockstep

open Update (tracks_pure tracks_ite tracks_throw)

variable {F : Set RecordId} {R : Alignment ρ σ σ₀} (L : Lockstep F R) {aug : Augmentation ρ σ}
  {aug' : Augmentation ρ σ₀} {t : Tree} {id : RecordId}
include L

/-- Exchanging a child keeps the runs in step, and the handle inside. -/
theorem changeChild (ht : t.Inside F) {old : RecordId} {new parent : Option RecordId}
    (hnew : Inside F new) (hparent : Inside F parent) :
    Update.Tracks R (t.changeChild old new parent) (t.changeChild old new parent)
      (·.Inside F) := by
  cases parent with
  | none => exact tracks_pure hnew
  | some parent =>
    refine (L.modifyNode (inside_some.mp hparent) fun n hn => hn.setChild _ hnew).bind fun _ _ => ?_
    exact tracks_pure ht

section Repairs

variable (h : aug.Tracks F R aug')
include h

/-- So does a rotation, with the callbacks about it. -/
theorem rotate (ht : t.Inside F) (hid : id ∈ F) (side : Side) :
    Update.Tracks R (t.rotate aug id side) (t.rotate aug' id side) (·.Inside F) := by
  refine (L.node hid).bind fun n hn => ?_
  have hchild := hn.child side.flip
  cases hx : n.child side.flip with
  | none => exact tracks_pure ht
  | some x =>
    rw [hx, inside_some] at hchild
    -- All that is linked anew was read from nodes of `F`.
    refine (L.node hchild).bind fun m hm => ?_
    have hinner := hm.child side
    refine (L.modifyNode hid fun k hk => hk.setChild _ hinner).bind fun _ _ => ?_
    refine (L.setParent hinner (inside_some.mpr hid)).bind fun _ _ => ?_
    refine (L.modifyNode hchild fun k hk => hk.setChild _ (inside_some.mpr hid)).bind fun _ _ => ?_
    refine (L.setParent (inside_some.mpr hchild) hn.parent).bind fun _ _ => ?_
    refine (L.setParent (inside_some.mpr hid) (inside_some.mpr hchild)).bind fun _ _ => ?_
    refine (L.changeChild ht (inside_some.mpr hchild) hn.parent).bind fun t ht => ?_
    exact (h.rotate hid hchild).bind fun _ _ => tracks_pure ht

/-- So does raising a red parent, the end of a repair of two reds. -/
theorem raiseParent {parent grand : RecordId} (ht : t.Inside F) (hid : id ∈ F)
    (hparent : parent ∈ F) (hgrand : grand ∈ F) (side : Side) :
    Update.Tracks R (t.raiseParent aug id parent grand side)
      (t.raiseParent aug' id parent grand side) (·.Inside F) := by
  -- Whichever node rises in the end, the last steps are the same.
  have hrise {t : Tree} {top : RecordId} (ht : t.Inside F) (htop : top ∈ F) :
      Update.Tracks R
        (do
          let t ← t.rotate aug grand side.flip
          Update.paint top .black
          Update.paint grand .red
          pure t)
        (do
          let t ← t.rotate aug' grand side.flip
          Update.paint top .black
          Update.paint grand .red
          pure t) (·.Inside F) := by
    refine (L.rotate h ht hgrand side.flip).bind fun t ht => ?_
    refine (L.paint htop .black).bind fun _ _ => (L.paint hgrand .red).bind fun _ _ => ?_
    exact tracks_pure ht
  unfold Tree.raiseParent
  refine (L.node hparent).bind fun p _ => ?_
  dsimp only
  split_ifs
  · exact (L.rotate h ht hparent side).bind fun t ht => hrise ht hid
  · exact (tracks_pure ht).bind fun t ht => hrise ht hparent

/-- So does the repair of two reds, turn by turn. The climb by way of parents and grandparents does
not leave `F`. -/
theorem mendRedFrom (steps : Nat) (ht : t.Inside F) (hid : id ∈ F) :
    Update.Tracks R (t.mendRedFrom aug steps id) (t.mendRedFrom aug' steps id) (·.Inside F) := by
  -- By induction on the steps. The loop goes on at the grandparent, which is in `F` as well.
  induction steps generalizing t id with
  | zero => exact tracks_throw
  | succ steps ih =>
    refine (L.node hid).bind fun n hn => ?_
    have hparent := hn.parent
    cases hnparent : n.parent with
    | none => exact (L.paint hid .black).bind fun _ _ => tracks_pure ht
    | some parent =>
      rw [hnparent, inside_some] at hparent
      refine (L.node hparent).bind fun p hp => ?_
      have hgrand := hp.parent
      cases hcolor : p.color with
      | black => exact tracks_pure ht
      | red =>
        cases hpparent : p.parent with
        | none => exact (L.paint hparent .black).bind fun _ _ => tracks_pure ht
        | some grand =>
          rw [hpparent, inside_some] at hgrand
          refine (L.node hgrand).bind fun g hg => ?_
          have huncle := hg.child (g.sideOf (some parent)).flip
          refine (L.colorOf huncle).bind fun color _ => ?_
          cases color with
          | red =>
            refine (L.paint hparent .black).bind fun _ _ => ?_
            refine (L.paint? huncle .black).bind fun _ _ => ?_
            exact (L.paint hgrand .red).bind fun _ _ => ih ht hgrand
          | black => exact L.raiseParent h ht hid hparent hgrand _

/-- So does putting a leaf into a slot of `F`, with the repair that follows. -/
theorem attach {slot : Slot} (ht : t.Inside F) (hslot : slot.Inside F) (hid : id ∈ F) :
    Update.Tracks R (t.attach aug slot id) (t.attach aug' slot id) (·.Inside F) := by
  have hplant : Update.Tracks R (t.plant slot id) (t.plant slot id) (·.Inside F) := by
    have hleaf : (Node.leafAt slot).Inside F := ⟨hslot, inside_none, inside_none⟩
    refine (L.modifyNode hid fun _ _ => hleaf).bind fun _ _ => ?_
    cases hparent : slot.parent with
    | none => exact tracks_pure (inside_some.mpr hid)
    | some parent =>
      have hparent : parent ∈ F := hslot parent hparent
      have hchild (n : Node) (hn : n.Inside F) : (n.setChild slot.side (some id)).Inside F :=
        hn.setChild slot.side (inside_some.mpr hid)
      exact (L.modifyNode hparent hchild).bind fun _ _ => tracks_pure ht
  rw [Tree.attach_eq, Tree.attach_eq]
  refine hplant.bind fun t ht => (h.propagate hslot inside_none).bind fun _ _ => ?_
  exact (L.limit fun n => (n + 2) * (n + 2) * (n + 2)).bind fun steps _ =>
    L.mendRedFrom h steps ht hid

/-- So does borrowing a black from the sibling, the end of a repair of a shortage. -/
theorem borrowBlack {parent sibling : RecordId} (ht : t.Inside F) (hparent : parent ∈ F)
    (hsibling : sibling ∈ F) (side : Side) :
    Update.Tracks R (t.borrowBlack aug parent sibling side) (t.borrowBlack aug' parent sibling side)
      (·.Inside F) := by
  refine (L.node hparent).bind fun p _ => (L.paint hsibling p.color).bind fun _ _ => ?_
  refine (L.paint hparent .black).bind fun _ _ => (L.node hsibling).bind fun sib hsib => ?_
  exact (L.paint? (hsib.child side.flip) .black).bind fun _ _ => L.rotate h ht hparent side

/-- So does raising a red sibling. The new sibling is inside too. -/
theorem raiseBeside {parent : RecordId} {beside : Option RecordId} (ht : t.Inside F)
    (hparent : parent ∈ F) (hbeside : Inside F beside) (side : Side) (c : Color) :
    Update.Tracks R (Tree.raiseBeside aug t parent side beside c)
      (Tree.raiseBeside aug' t parent side beside c)
      fun out => out.1.Inside F ∧ Inside F out.2 := by
  cases c with
  | black => exact tracks_pure ⟨ht, hbeside⟩
  | red =>
    refine (L.paint? hbeside .black).bind fun _ _ => (L.paint hparent .red).bind fun _ _ => ?_
    refine (L.rotate h ht hparent side).bind fun t ht => (L.node hparent).bind fun p hp => ?_
    exact tracks_pure ⟨ht, hp.child side.flip⟩

/-- So does the rest of a turn, if the loop that may go on keeps them in step. -/
theorem mendBeside {again : Tree → Option RecordId → Option RecordId → Update ρ σ Tree}
    {again' : Tree → Option RecordId → Option RecordId → Update ρ σ₀ Tree}
    (hagain : ∀ {t id parent}, t.Inside F → Inside F id → Inside F parent →
      Update.Tracks R (again t id parent) (again' t id parent) (·.Inside F))
    {parent : RecordId} {beside : Option RecordId} (ht : t.Inside F) (hparent : parent ∈ F)
    (hbeside : Inside F beside) (side : Side) :
    Update.Tracks R (Tree.mendBeside aug again t parent side beside)
      (Tree.mendBeside aug' again' t parent side beside) (·.Inside F) := by
  have hup : Inside F (some parent) := inside_some.mpr hparent
  -- Either the gap moves up to the parent, or the sibling lends a black and the repair is over.
  cases beside with
  | none => exact (L.node hparent).bind fun p hp => hagain ht hup hp.parent
  | some sibling =>
    have hsibling : sibling ∈ F := inside_some.mp hbeside
    have hborrow := L.borrowBlack h ht hparent hsibling side
    refine (L.node hsibling).bind fun sib hsib => ?_
    have hnear := hsib.child side
    refine (L.colorOf hnear).bind fun near _ => ?_
    cases near with
    | black =>
      refine (L.colorOf (hsib.child side.flip)).bind fun far _ => ?_
      cases far with
      | black =>
        refine (L.paint hsibling .red).bind fun _ _ => ?_
        exact (L.node hparent).bind fun p hp => hagain ht hup hp.parent
      | red => exact hborrow
    | red =>
      refine (L.colorOf (hsib.child side.flip)).bind fun far _ => ?_
      cases far with
      | red => exact hborrow
      | black =>
        cases hinner : sib.child side with
        | none => exact hborrow
        | some inner =>
          rw [hinner, inside_some] at hnear
          refine (L.paint hnear .black).bind fun _ _ => (L.paint hsibling .red).bind fun _ _ => ?_
          exact (L.rotate h ht hsibling side.flip).bind fun t ht =>
            L.borrowBlack h ht hparent hnear side

/-- So does the repair of a shortage, turn by turn. -/
theorem mendBlackFrom (steps : Nat) {id parent : Option RecordId} (ht : t.Inside F)
    (hid : Inside F id) (hparent : Inside F parent) :
    Update.Tracks R (t.mendBlackFrom aug steps id parent) (t.mendBlackFrom aug' steps id parent)
      (·.Inside F) := by
  -- All ways out of the loop paint the node black.
  have hpaint := (L.paint? hid .black).bind (g := fun _ => pure t) (f := fun _ => pure t)
    fun _ _ => tracks_pure ht
  induction steps generalizing t id parent with
  | zero =>
    cases parent with
    | none => exact hpaint
    | some parent => exact tracks_throw
  | succ steps ih =>
    cases parent with
    | none => exact hpaint
    | some parent =>
      rw [inside_some] at hparent
      rw [Tree.mendBlackFrom_succ, Tree.mendBlackFrom_succ]
      refine (L.colorOf hid).bind fun c _ => ?_
      cases c with
      | red => exact hpaint
      | black =>
        refine (L.node hparent).bind fun p hp => ?_
        have hbeside := hp.child (p.sideOf id).flip
        refine (L.colorOf hbeside).bind fun c _ => ?_
        refine (L.raiseBeside h ht hparent hbeside _ c).bind fun out hout => ?_
        refine L.mendBeside h ?_ hout.1 hparent hout.2 _
        intro t id parent ht hid hparent
        exact ih ht hid hparent ((L.paint? hid .black).bind fun _ _ => tracks_pure ht)

/-- So do the changes that make a successor ready, which stays under a node of `F`. -/
theorem prepare {right succ above : RecordId} {child : Option RecordId} (hid : id ∈ F)
    (hright : right ∈ F) (hsucc : succ ∈ F) (habove : above ∈ F) (hchild : Inside F child) :
    Update.Tracks R (Tree.prepare aug id right succ above child)
      (Tree.prepare aug' id right succ above child) (· ∈ F) := by
  have hup : Inside F (some succ) := inside_some.mpr hsucc
  unfold Tree.prepare
  refine tracks_ite (fun _ => (h.copy hid hsucc).bind fun _ _ => tracks_pure hsucc) fun _ => ?_
  refine (L.modifyNode habove fun n hn => hn.setChild _ hchild).bind fun _ _ => ?_
  refine (L.setParent hchild (inside_some.mpr habove)).bind fun _ _ => ?_
  refine (L.modifyNode hsucc fun n hn => hn.setChild _ (inside_some.mpr hright)).bind fun _ _ => ?_
  refine (L.setParent (inside_some.mpr hright) hup).bind fun _ _ => ?_
  refine (h.copy hid hsucc).bind fun _ _ => ?_
  exact (h.propagate (inside_some.mpr habove) hup).bind fun _ _ => tracks_pure habove

omit h in
/-- The successor is the same on both sides, and so is the node that it stands under. Both are of
`F`. -/
theorem successorFrom {s s₀ : Store ρ} {x : σ} {x₀ : σ₀} (hR : R s x s₀ x₀) (steps : Nat)
    {above : RecordId} (hid : id ∈ F) (habove : above ∈ F) :
    Rereads (Tree.successorFrom s steps id above) (Tree.successorFrom s₀ steps id above)
      fun place => place.1 ∈ F ∧ place.2 ∈ F := by
  induction steps generalizing id above with
  | zero => exact rereads_error
  | succ steps ih =>
    refine (L.rereads_node hR hid).bind fun n hn => ?_
    have hleft := hn.left
    cases h : n.left with
    | none => exact rereads_ok ⟨hid, habove⟩
    | some left => exact ih (inside_some.mp (h ▸ hleft)) hid

/-- What a splice leaves behind is within `F`. -/
abbrev Spliced (F : Set RecordId) (out : Tree × Gap) : Prop :=
  out.1.Inside F ∧ Inside F out.2.child ∧ Inside F out.2.parent ∧ Inside F out.2.stale

/-- So does a splice. What it leaves for the repair is within `F`. -/
theorem splice (ht : t.Inside F) (hid : id ∈ F) :
    Update.Tracks R (t.splice aug id) (t.splice aug' id) (Spliced F) := by
  have hchild {n : Node} (hn : n.Inside F) :
      Update.Tracks R (t.spliceChild id n) (t.spliceChild id n) (Spliced F) := by
    have honly : Inside F (n.left.or n.right) := hn.left.or hn.right
    refine (L.changeChild ht honly hn.parent).bind fun t ht => ?_
    refine (L.setParent honly hn.parent).bind fun _ _ => ?_
    exact tracks_pure ⟨ht, honly, hn.parent, hn.parent⟩
  refine (L.node hid).bind fun n hn => ?_
  have hleft := hn.left
  have hright := hn.right
  cases hnleft : n.left with
  | none => exact hchild hn
  | some left =>
    cases hnright : n.right with
    | none => exact hchild hn
    | some right =>
      rw [hnleft] at hleft
      rw [hnright, inside_some] at hright
      -- With two children the successor is taken out, and put into the place of the node.
      show Update.Tracks R (t.spliceSuccessor aug id n left right)
        (t.spliceSuccessor aug' id n left right) (Spliced F)
      rw [Tree.spliceSuccessor_eq, Tree.spliceSuccessor_eq]
      have hplace : Update.Tracks R
          (Update.read fun s => Tree.successorFrom s s.walkLimit right id)
          (Update.read fun s => Tree.successorFrom s s.walkLimit right id)
          fun place => place.1 ∈ F ∧ place.2 ∈ F := by
        refine Update.tracks_read fun s x s₀ x₀ hR => ?_
        rw [Store.walkLimit, Store.walkLimit, L.size_eq hR]
        exact L.successorFrom hR _ hright hid
      refine hplace.bind fun place hplace => ?_
      have hsucc : Inside F (some place.1) := inside_some.mpr hplace.1
      refine (L.node hplace.1).bind fun moved hmoved => ?_
      refine (L.prepare h hid hright hplace.1 hplace.2 hmoved.right).bind fun parent hparent => ?_
      refine (L.modifyNode hplace.1 fun m hm => hm.setChild _ hleft).bind fun _ _ => ?_
      refine (L.setParent hleft hsucc).bind fun _ _ => ?_
      refine (L.changeChild ht hsucc hn.parent).bind fun t ht => ?_
      have hseat (m : Node) (hm : m.Inside F) :
          Node.Inside F { m with parent := n.parent, color := n.color } :=
        ⟨hn.parent, hm.left, hm.right⟩
      refine (L.modifyNode hplace.1 hseat).bind fun _ _ => ?_
      exact tracks_pure ⟨ht, hmoved.right, inside_some.mpr hparent, hsucc⟩

/-- So does taking a node out: the splice, the callback, the repair and the wiping. -/
theorem erase (ht : t.Inside F) (hid : id ∈ F) :
    Update.Tracks R (t.erase aug id) (t.erase aug' id) (·.Inside F) := by
  have hmend {t : Tree} {gap : Gap} (ht : t.Inside F) (hchild : Inside F gap.child)
      (hparent : Inside F gap.parent) :
      Update.Tracks R (t.mendGap aug gap) (t.mendGap aug' gap) (·.Inside F) := by
    unfold Tree.mendGap
    cases gap.lost with
    | red => exact tracks_pure ht
    | black =>
      exact (L.limit fun n => (n + 2) * (n + 2) * (n + 2)).bind fun steps _ =>
        L.mendBlackFrom h steps ht hchild hparent
  rw [Tree.erase_eq, Tree.erase_eq]
  refine (L.splice h ht hid).bind fun out hout => ?_
  refine (h.propagate hout.2.2.2 inside_none).bind fun _ _ => ?_
  refine (hmend hout.1 hout.2.1 hout.2.2.1).bind fun t ht => ?_
  exact (L.modifyNode hid fun _ _ => Node.inside_removed).bind fun _ _ => tracks_pure ht

end Repairs

/-- So does putting a record into the place of another one. -/
theorem substitute {old new : RecordId} (ht : t.Inside F) (hold : old ∈ F) (hnew : new ∈ F) :
    Update.Tracks R (t.substitute old new) (t.substitute old new) (·.Inside F) := by
  have hup : Inside F (some new) := inside_some.mpr hnew
  refine (L.node hold).bind fun n hn => ?_
  have hplace : Node.Inside F { n with state := .linked } := ⟨hn.parent, hn.left, hn.right⟩
  refine (L.modifyNode hnew fun _ _ => hplace).bind fun _ _ => ?_
  refine (L.setParent hn.left hup).bind fun _ _ => (L.setParent hn.right hup).bind fun _ _ => ?_
  refine (L.changeChild ht hup hn.parent).bind fun t ht => ?_
  exact (L.modifyNode hold fun _ _ => Node.inside_removed).bind fun _ _ => tracks_pure ht

/-- A walk in post-order goes on within `F`. -/
theorem advance {cursor : Cursor} (horder : cursor.order = .postOrder)
    (hnext : Inside F cursor.next) :
    Update.Tracks R (Update.read (cursor.advance ·)) (Update.read (cursor.advance ·)) fun out =>
      ∀ id rest, out = some (id, rest) →
        id ∈ F ∧ rest.order = .postOrder ∧ Inside F rest.next := by
  refine Update.tracks_read fun s x s₀ x₀ hR => ?_
  unfold Cursor.advance
  cases hcursor : cursor.next with
  | none => exact rereads_ok nofun
  | some id =>
    rw [hcursor, inside_some] at hnext
    simp only [horder, Order.step]
    refine (L.postNext hR hnext).bind fun next hnext' => rereads_ok ?_
    rintro _ _ ⟨⟩
    exact ⟨hnext, rfl, hnext'⟩

/-- So does wiping the nodes one after the other, along a cursor that stays in `F`. -/
theorem releaseFrom (steps released : Nat) {cursor : Cursor} (horder : cursor.order = .postOrder)
    (hnext : Inside F cursor.next) :
    Update.Tracks R (Tree.releaseFrom steps released cursor)
      (Tree.releaseFrom steps released cursor) fun _ => True := by
  induction steps generalizing released cursor with
  | zero => exact tracks_throw
  | succ steps ih =>
    refine (L.advance horder hnext).bind fun out hout => ?_
    cases out with
    | none => exact tracks_pure trivial
    | some out =>
      obtain ⟨hid, horder', hnext'⟩ := hout out.1 out.2 rfl
      exact (L.modifyNode hid fun _ _ => Node.inside_removed).bind fun _ _ =>
        ih (released + 1) horder' hnext'

/-- So does clearing a tree. -/
theorem clear (ht : t.Inside F) :
    Update.Tracks R t.clear t.clear fun out => out.1.Inside F := by
  have hstart : Update.Tracks R (Update.read (t.cursor · .postOrder))
      (Update.read (t.cursor · .postOrder)) fun cursor =>
        cursor.order = .postOrder ∧ Inside F cursor.next := by
    refine Update.tracks_read fun s x s₀ x₀ hR => Rereads.map ?_
    exact (L.postFirst hR ht).mono fun next hnext => ⟨rfl, hnext⟩
  refine hstart.bind fun cursor hcursor => (L.limit fun n => n + 1 + 1).bind fun steps _ => ?_
  exact (L.releaseFrom steps 0 hcursor.1 hcursor.2).bind fun _ _ => tracks_pure inside_none

end Lockstep

/-! ### Descents -/

/-- On states that match, `compare` and `compare₀` give the same answer about records of `F`, and
leave contexts with which they match again. -/
def Comparator.Agrees (F : Set RecordId) (R : Alignment ρ σ σ₀) (compare : Comparator ρ σ)
    (compare₀ : Comparator ρ σ₀) : Prop :=
  ∀ {s s₀ : Store ρ} {x : σ} {x₀ : σ₀} {i j : RecordId} {a b a₀ b₀ : ρ}, R s x s₀ x₀ →
    i ∈ F → j ∈ F → s.fetch i = .ok a → s.fetch j = .ok b → s₀.fetch i = .ok a₀ →
    s₀.fetch j = .ok b₀ →
    (compare₀ a₀ b₀ x₀).1 = (compare a b x).1 ∧ R s (compare a b x).2 s₀ (compare₀ a₀ b₀ x₀).2

namespace Lockstep

open Update (tracks_pure)

variable {F : Set RecordId} {R : Alignment ρ σ σ₀} (L : Lockstep F R) {aug : Augmentation ρ σ}
  {aug' : Augmentation ρ σ₀} {t : Tree} {id : RecordId} {compare : Comparator ρ σ}
  {compare₀ : Comparator ρ σ₀}
include L

/-- A descent with comparators that agree ends at the same position on both sides, with matching
contexts. -/
theorem descendFrom (hcompare : Comparator.Agrees F R compare compare₀) (hid : id ∈ F)
    {s s₀ : Store ρ} {x x' : σ} {x₀ : σ₀} (hR : R s x s₀ x₀) {steps : Nat}
    {below : Option RecordId} {here vacancy : Vacancy}
    (hbelow : Inside F below) (hhere : here.slot.Inside F)
    (hrun : Tree.descendFrom s id compare steps below here x = .ok (vacancy, x')) :
    ∃ x₀', Tree.descendFrom s₀ id compare₀ steps below here x₀ = .ok (vacancy, x₀') ∧
      R s x' s₀ x₀' ∧ vacancy.slot.Inside F := by
  induction steps generalizing below here x x₀ with
  | zero =>
    cases below with
    | none =>
      cases hrun
      exact ⟨x₀, rfl, hR, hhere⟩
    | some below => cases hrun
  | succ steps ih =>
    cases below with
    | none =>
      cases hrun
      exact ⟨x₀, rfl, hR, hhere⟩
    | some below =>
      have hbelow := inside_some.mp hbelow
      -- A step that was taken had both records to compare.
      obtain ⟨a, ha⟩ : ∃ a, s.fetch id = .ok a := by
        cases hfetch : s.fetch id with
        | ok a => exact ⟨a, rfl⟩
        | error fault => simp [Tree.descendFrom, Query.read, hfetch, bind, StateT.bind, Except.map,
            Except.bind] at hrun
      obtain ⟨b, hb⟩ : ∃ b, s.fetch below = .ok b := by
        cases hfetch : s.fetch below with
        | ok b => exact ⟨b, rfl⟩
        | error fault => simp [Tree.descendFrom, Query.read, ha, hfetch, bind, StateT.bind,
            Except.map, Except.bind] at hrun
      have hid₀ : id < s₀.size := L.size_eq hR ▸ (Store.fetch_eq_ok.mp ha).1
      have hbelow₀ : below < s₀.size := L.size_eq hR ▸ (Store.fetch_eq_ok.mp hb).1
      have ha₀ := Store.fetch_of_lt hid₀
      have hb₀ := Store.fetch_of_lt hbelow₀
      obtain ⟨hanswer, hR'⟩ := hcompare hR hid hbelow ha hb ha₀ hb₀
      have hnode : s.node below = .ok (Linked.node b) := by
        rw [Store.node, hb]
        rfl
      have hnode₀ : Linked.node s₀[below] = Linked.node b := by
        have h := L.node_eq hR hbelow
        rw [hnode, Store.node, hb₀] at h
        exact Except.ok.inj h
      have hchild := (L.inside hR hbelow hnode).child (Tree.turn (compare a b x).1)
      rw [Tree.descendFrom_some steps here ha hb rfl] at hrun
      rw [Tree.descendFrom_some steps here ha₀ hb₀ rfl, hnode₀, hanswer]
      exact ih hR' hchild (inside_some.mpr hbelow) hrun

/-- The position for a new record is the same on both sides. -/
theorem descend (hcompare : Comparator.Agrees F R compare compare₀) (ht : t.Inside F)
    (hid : id ∈ F) :
    Update.Tracks R (Update.query (t.descend · id compare))
      (Update.query (t.descend · id compare₀)) (·.slot.Inside F) := by
  intro s x s₀ x₀ hR vacancy s' x' hrun
  obtain ⟨⟨v, y⟩, hdesc, heq⟩ := except_map_eq_ok.mp hrun
  cases heq
  have hroot : Vacancy.slot ⟨.root, true⟩ |>.Inside F := inside_none
  obtain ⟨x₀', hdesc₀, hR', hv⟩ := L.descendFrom hcompare hid hR ht hroot hdesc
  have hlimit : Limits.ample.walk s = s₀.walkLimit := by
    show s.walkLimit = s₀.walkLimit
    rw [Store.walkLimit, Store.walkLimit, L.size_eq hR]
  rw [hlimit] at hdesc₀
  exact Update.returns_query.mpr ⟨vacancy, x₀', hdesc₀, rfl, hR', hv⟩

/-! ### Calls -/

section Calls

/-- What stands in a slot of `F` is the same on both sides. -/
theorem occupant {slot : Slot} (hslot : slot.Inside F) :
    Update.Tracks R (t.occupant slot) (t.occupant slot) fun _ => True := by
  unfold Tree.occupant
  cases hparent : slot.parent with
  | none => exact tracks_pure trivial
  | some parent => exact (L.node (hslot parent hparent)).bind fun _ _ => tracks_pure trivial

variable [Listener σ] [Listener σ₀] (hears : Hears R)
include hears

/-- The guards of a link say the same on both sides. -/
theorem checkLink (parent occupant : Option RecordId) (hid : id ∈ F) :
    Guarded.Tracks R (checkLink parent occupant id) (checkLink parent occupant id)
      fun _ => True := by
  unfold RecordTree.checkLink
  split_ifs
  · exact Guarded.tracks_reject hears
  · refine (Guarded.tracks_update (L.node hid)).bind fun n _ => ?_
    cases n.state with
    | linked => exact Guarded.tracks_reject hears
    | detached => exact Guarded.tracks_pure trivial
    | removed => exact Guarded.tracks_pure trivial

/-- The guard of a deletion says the same on both sides. -/
theorem checkDelete (hid : id ∈ F) :
    Guarded.Tracks R (checkDelete id) (checkDelete id) fun _ => True := by
  refine (Guarded.tracks_update (L.node hid)).bind fun n _ => ?_
  cases n.state with
  | linked => exact Guarded.tracks_pure trivial
  | detached => exact Guarded.tracks_reject hears
  | removed => exact Guarded.tracks_reject hears

/-- A replacement goes the same way on both sides, guards and all. -/
theorem replace {old new : RecordId} (ht : t.Inside F) (hold : old ∈ F) (hnew : new ∈ F) :
    Guarded.Tracks R (t.replace old new) (t.replace old new) (·.Inside F) := by
  refine (L.checkDelete hears hold).bind fun _ _ => ?_
  refine (Guarded.tracks_update (L.node hold)).bind fun n _ => ?_
  refine (L.checkLink hears n.parent none hnew).bind fun _ _ => ?_
  exact Guarded.tracks_update (L.substitute ht hold hnew)

variable (h : aug.Tracks F R aug')
include h

/-- A link goes the same way on both sides. -/
theorem linkWith {slot : Slot} (ht : t.Inside F) (hslot : slot.Inside F) (hid : id ∈ F) :
    Guarded.Tracks R (t.linkWith aug slot id) (t.linkWith aug' slot id) (·.Inside F) := by
  refine (Guarded.tracks_update (L.occupant hslot)).bind fun occupant _ => ?_
  refine (L.checkLink hears slot.parent occupant hid).bind fun _ _ => ?_
  exact Guarded.tracks_update (L.attach h ht hslot hid)

/-- An insertion goes the same way on both sides, if the comparators agree. -/
theorem insertWith (hcompare : Comparator.Agrees F R compare compare₀) (ht : t.Inside F)
    (hid : id ∈ F) :
    Guarded.Tracks R (t.insertWith aug id compare) (t.insertWith aug' id compare₀) (·.Inside F) :=
  (Guarded.tracks_update (L.descend hcompare ht hid)).bind fun _ hvacancy =>
    L.linkWith hears h ht hvacancy hid

/-- A deletion goes the same way on both sides. -/
theorem deleteWith (ht : t.Inside F) (hid : id ∈ F) :
    Guarded.Tracks R (t.deleteWith aug id) (t.deleteWith aug' id) (·.Inside F) :=
  (L.checkDelete hears hid).bind fun _ _ => Guarded.tracks_update (L.erase h ht hid)

end Calls

/-! ### Calls on a cached tree -/

section Cached

variable {t : CachedTree}

/-- Clearing a cached tree goes the same way on both sides. -/
theorem clearCached (ht : t.Inside F) :
    Update.Tracks R t.clear t.clear fun out => out.1.Inside F :=
  (L.clear ht.tree).bind fun _ hout => tracks_pure ⟨hout, inside_none⟩

variable [Listener σ] [Listener σ₀] (hears : Hears R)
include hears

/-- A replacement in a cached tree goes the same way on both sides, and the cache stays within
`F`. -/
theorem replaceCached {old new : RecordId} (ht : t.Inside F) (hold : old ∈ F) (hnew : new ∈ F) :
    Guarded.Tracks R (t.replace old new) (t.replace old new) (·.Inside F) := by
  refine (L.replace hears ht.tree hold hnew).bind fun tree htree =>
    Guarded.tracks_pure ⟨htree, ?_⟩
  dsimp only
  split_ifs
  · exact inside_some.mpr hnew
  · exact ht.leftmost

variable (h : aug.Tracks F R aug')
include h

/-- A link into a cached tree goes the same way on both sides, and the cache stays within `F`. -/
theorem linkCached {vacancy : Vacancy} (ht : t.Inside F) (hslot : vacancy.slot.Inside F)
    (hid : id ∈ F) :
    Guarded.Tracks R (t.linkWith aug vacancy id) (t.linkWith aug' vacancy id) (·.Inside F) := by
  refine (L.linkWith hears h ht.tree hslot hid).bind fun tree htree =>
    Guarded.tracks_pure ⟨htree, ?_⟩
  dsimp only
  split_ifs
  · exact inside_some.mpr hid
  · exact ht.leftmost

/-- An insertion into a cached tree goes the same way on both sides. -/
theorem insertCached (hcompare : Comparator.Agrees F R compare compare₀) (ht : t.Inside F)
    (hid : id ∈ F) :
    Guarded.Tracks R (t.insertWith aug id compare) (t.insertWith aug' id compare₀) (·.Inside F) :=
  (Guarded.tracks_update (L.descend hcompare ht.tree hid)).bind fun _ hvacancy =>
    L.linkCached hears h ht hvacancy hid

/-- A deletion from a cached tree goes the same way on both sides. The next node, which the cache
may need, is found on both. -/
theorem deleteCached (ht : t.Inside F) (hid : id ∈ F) :
    Guarded.Tracks R (t.deleteWith aug id) (t.deleteWith aug' id) (·.Inside F) := by
  have hdelete := L.deleteWith hears h ht.tree hid
  have hnext : Update.Tracks R (Update.read (·.next id)) (Update.read (·.next id)) (Inside F) :=
    Update.tracks_read fun _ _ _ _ hR => L.next hR hid
  unfold CachedTree.deleteWith
  split_ifs
  · refine (Guarded.tracks_update hnext).bind fun next hnext => ?_
    exact hdelete.bind fun tree htree => Guarded.tracks_pure ⟨htree, hnext⟩
  · exact hdelete.bind fun tree htree => Guarded.tracks_pure ⟨htree, ht.leftmost⟩

end Cached

end Lockstep

end RecordTree
