import RecordTree.Proofs.Returns
import RecordTree.Tree.Erase
import RecordTree.Tree.Insert
import RecordTree.Tree.Replace

/-!
# `RecordTree.Proofs.Tree.Reject`: calls that a guard turns down change nothing

Every guarded call on a tree asks its guards before it writes. What stands in front of them only
reads, so a call that they turn down leaves the store as it was, whichever tree it was meant for.
-/

set_option autoImplicit false

namespace RecordTree

variable {ρ σ : Type} [Linked ρ] [Listener σ]

/-- The guards of a link only read. -/
theorem silent_checkLink (parent occupant : Option RecordId) (id : RecordId) :
    (checkLink parent occupant id : Guarded ρ σ Unit).Silent := by
  unfold checkLink
  by_cases h : occupant = some id
  · rw [if_pos h]
    exact Guarded.silent_reject _
  · rw [if_neg h]
    refine (Guarded.silent_read _).bind ?_
    intro n
    cases n.state with
    | linked => exact Guarded.silent_reject _
    | detached => exact Guarded.silent_pure _
    | removed => exact Guarded.silent_pure _

/-- The guard of a deletion only reads. -/
theorem silent_checkDelete (id : RecordId) : (checkDelete id : Guarded ρ σ Unit).Silent := by
  refine (Guarded.silent_read _).bind ?_
  intro n
  cases n.state with
  | linked => exact Guarded.silent_pure _
  | detached => exact Guarded.silent_reject _
  | removed => exact Guarded.silent_reject _

omit [Listener σ] in
/-- Looking at a slot only reads. -/
theorem Tree.silent_occupant (t : Tree) (slot : Slot) :
    (Guarded.update (t.occupant slot) : Guarded ρ σ _).Silent := by
  intro s x out s' x' hrun
  have hreturns : Update.Returns (Except.ok <$> t.occupant slot :
      Update ρ σ (Except Rejection (Option RecordId))) s x fun _ s₁ _ => s₁ = s' :=
    ⟨out, s', x', hrun, rfl⟩
  unfold occupant at hreturns
  cases hparent : slot.parent with
  | none =>
    simp only [hparent, Update.returns_map, Update.returns_pure] at hreturns
    exact hreturns.symm
  | some parent =>
    simp only [hparent, Update.returns_map, Update.returns_bind, Update.returns_node,
      Update.returns_pure] at hreturns
    obtain ⟨_, _, heq⟩ := hreturns
    exact heq.symm

/-- A link that is turned down leaves the store as it was, since its guards stand before all
changes. -/
theorem Tree.rejectsSilently_linkWith (aug : Augmentation ρ σ) (t : Tree) (slot : Slot)
    (id : RecordId) : (t.linkWith aug slot id).RejectsSilently := by
  refine (t.silent_occupant slot).bind_rejectsSilently ?_
  intro occupant
  exact (silent_checkLink _ _ _).bind_rejectsSilently fun _ => Guarded.rejectsSilently_update _

/-- So does a deletion that is turned down. -/
theorem Tree.rejectsSilently_deleteWith (aug : Augmentation ρ σ) (t : Tree) (id : RecordId) :
    (t.deleteWith aug id).RejectsSilently :=
  (silent_checkDelete id).bind_rejectsSilently fun _ => Guarded.rejectsSilently_update _

/-- So does an insertion that is turned down. Its descent only asks. -/
theorem Tree.rejectsSilently_insertWith (aug : Augmentation ρ σ) (t : Tree) (id : RecordId)
    (compare : Comparator ρ σ) : (t.insertWith aug id compare).RejectsSilently :=
  (Guarded.silent_query _).bind_rejectsSilently fun vacancy =>
    t.rejectsSilently_linkWith aug vacancy.slot id

/-- So does a replacement that is turned down, by the first guard or by the second one. -/
theorem Tree.rejectsSilently_replace (t : Tree) (old new : RecordId) :
    (t.replace old new : Guarded ρ σ Tree).RejectsSilently := by
  refine (silent_checkDelete old).bind_rejectsSilently ?_
  intro _
  refine (Guarded.silent_read _).bind_rejectsSilently ?_
  intro n
  exact (silent_checkLink _ _ _).bind_rejectsSilently fun _ => Guarded.rejectsSilently_update _

end RecordTree
