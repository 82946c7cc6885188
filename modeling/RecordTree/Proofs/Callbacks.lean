import RecordTree.Interval.Reach
import RecordTree.Proofs.CachedTree
import RecordTree.Proofs.Interval.Entry
import RecordTree.Proofs.Lockstep.Tree

/-!
# `RecordTree.Proofs.Callbacks`: augmentations of which nothing is known but that they spare nodes

The contracts of `RecordTree.Proofs.Augmentation` ask of the callbacks that they return, which
some do on the trees that their summary is right for, and on no others. The links come out right
with less: the callbacks must not change nodes (`Augmentation.Spares`).

`Augmentation.orSkip` skips a callback where it would fail. That always returns, so the contracts
hold of it, with nothing to keep right. And where a call returns, it does the same if callbacks
that fail are skipped, since there were none (`Update.Approximates`).
-/

set_option autoImplicit false

namespace RecordTree

variable {ρ σ α β γ : Type}

/-! ### Skipping failures -/

namespace Update

/-- Where `u` returns, `v` does the same. -/
def Approximates (u v : Update ρ σ α) : Prop := ∀ s x r, u s x = .ok r → v s x = .ok r

/-- Runs `u`, and does nothing instead where it fails. -/
def orSkip (u : Update ρ σ Unit) : Update ρ σ Unit := fun s x =>
  match u s x with
  | .ok r => .ok r
  | .error _ => .ok (((), s), x)

/-- Every update does what it does. -/
theorem Approximates.refl (u : Update ρ σ α) : u.Approximates u := fun _ _ _ h => h

/-- Where an update returns, nothing of it is skipped. -/
theorem approximates_orSkip (u : Update ρ σ Unit) : u.Approximates u.orSkip := by
  intro s x r hrun
  simp only [orSkip, hrun]

end Update

namespace Augmentation

/-- Where the callbacks of `aug` return, those of `aug'` do the same. -/
structure Approximates (aug aug' : Augmentation ρ σ) : Prop where
  propagate (node stop : Option RecordId) :
    (aug.propagate node stop).Approximates (aug'.propagate node stop)
  copy (old new : RecordId) : (aug.copy old new).Approximates (aug'.copy old new)
  rotate (old new : RecordId) : (aug.rotate old new).Approximates (aug'.rotate old new)

/-- Callbacks that do what those of `aug` do, and nothing where they fail. -/
def orSkip (aug : Augmentation ρ σ) : Augmentation ρ σ where
  propagate node stop := (aug.propagate node stop).orSkip
  copy old new := (aug.copy old new).orSkip
  rotate old new := (aug.rotate old new).orSkip

/-- A call without an augmentation has no callback to skip. -/
@[simp] theorem none_orSkip : (none : Augmentation ρ σ).orSkip = none := rfl

/-- All callbacks do what they do. -/
theorem Approximates.refl (aug : Augmentation ρ σ) : aug.Approximates aug :=
  ⟨fun _ _ => .refl _, fun _ _ => .refl _, fun _ _ => .refl _⟩

/-- Where callbacks return, nothing of them is skipped. -/
theorem approximates_orSkip (aug : Augmentation ρ σ) : aug.Approximates aug.orSkip where
  propagate _ _ := Update.approximates_orSkip _
  copy _ _ := Update.approximates_orSkip _
  rotate _ _ := Update.approximates_orSkip _

end Augmentation

/-! ### Calls with better callbacks -/

/-- Two runs match while they are in one and the same state. -/
def Alignment.same : Alignment ρ σ σ := fun s x s₀ x₀ => s₀ = s ∧ x₀ = x

/-- An update follows another one from one and the same state exactly if it does the same. -/
theorem Update.tracks_same_iff {u v : Update ρ σ α} :
    Tracks .same u v (fun _ => True) ↔ u.Approximates v := by
  constructor
  · rintro h s x ⟨⟨a, s'⟩, x'⟩ hrun
    obtain ⟨_, _, _, hrun', rfl, ⟨rfl, rfl⟩, -⟩ := h s x s x ⟨rfl, rfl⟩ a s' x' hrun
    exact hrun'
  · rintro h _ _ s x ⟨rfl, rfl⟩ a s' x' hrun
    exact ⟨a, s', x', h s x _ hrun, rfl, ⟨rfl, rfl⟩, trivial⟩

/-- Two contexts that are the same still are when both hear of a rejection. -/
theorem hears_same [Listener σ] : Hears (Alignment.same : Alignment ρ σ σ) := by
  rintro r s x s₀ x₀ ⟨hs, hx⟩
  exact ⟨hs, by rw [hx]⟩

/-- Callbacks that do the same follow each other, whichever records they are about. -/
theorem Augmentation.Approximates.tracks {aug aug' : Augmentation ρ σ} (h : aug.Approximates aug') :
    aug.Tracks Set.univ .same aug' where
  propagate _ _ := Update.tracks_same_iff.mpr (h.propagate _ _)
  copy _ _ := Update.tracks_same_iff.mpr (h.copy _ _)
  rotate _ _ := Update.tracks_same_iff.mpr (h.rotate _ _)

/-- Where a guarded computation returns, one that follows it from the same state does the same. -/
theorem Guarded.Tracks.approximates {g g' : Guarded ρ σ α} {P : α → Prop}
    (h : Guarded.Tracks .same g g' P) : Update.Approximates g.run g'.run :=
  Update.tracks_same_iff.mp (Update.Tracks.mono h fun _ _ => trivial)

section Same

variable [Linked ρ]

/-- Two runs in one and the same state are in step on all records. -/
theorem Lockstep.same : Lockstep Set.univ (Alignment.same : Alignment ρ σ σ) where
  size_eq h := by rw [h.1]
  node_eq h _ := by rw [h.1]
  inside _ _ _ := Node.inside_univ
  change h _ _ := ⟨by rw [h.1], h.2⟩

omit [Linked ρ] in
/-- A comparator agrees with itself. -/
theorem Comparator.agrees_same (compare : Comparator ρ σ) :
    Comparator.Agrees Set.univ .same compare compare := by
  rintro s _ x _ i j a b a₀ b₀ ⟨rfl, rfl⟩ - - ha hb ha₀ hb₀
  cases ha.symm.trans ha₀
  cases hb.symm.trans hb₀
  exact ⟨rfl, rfl, rfl⟩

/-- All that a handle names is among all records. -/
theorem CachedTree.inside_univ (t : CachedTree) : t.Inside Set.univ :=
  ⟨RecordTree.inside_univ, RecordTree.inside_univ⟩

namespace CachedTree

variable [Listener σ] {aug aug' : Augmentation ρ σ} (h : aug.Approximates aug') (t : CachedTree)
include h

/-- A link does the same with callbacks that do the same. -/
theorem approximates_linkWith (vacancy : Vacancy) (id : RecordId) :
    Update.Approximates (t.linkWith aug vacancy id).run (t.linkWith aug' vacancy id).run :=
  (Lockstep.same.linkCached hears_same h.tracks t.inside_univ RecordTree.inside_univ
    trivial).approximates

/-- So does an insertion. -/
theorem approximates_insertWith (id : RecordId) (compare : Comparator ρ σ) :
    Update.Approximates (t.insertWith aug id compare).run (t.insertWith aug' id compare).run :=
  (Lockstep.same.insertCached hears_same h.tracks compare.agrees_same t.inside_univ
    trivial).approximates

/-- So does a deletion. -/
theorem approximates_deleteWith (id : RecordId) :
    Update.Approximates (t.deleteWith aug id).run (t.deleteWith aug' id).run :=
  (Lockstep.same.deleteCached hears_same h.tracks t.inside_univ trivial).approximates

end CachedTree

end Same

/-! ### What callbacks leave alone -/

/-- Where `u` returns, `view` shows the same as before. -/
def Update.Leaves (view : Store ρ → σ → γ) (u : Update ρ σ α) : Prop :=
  ∀ s x a s' x', u s x = .ok ((a, s'), x') → view s' x' = view s x

namespace Update

variable {view : Store ρ → σ → γ}

/-- An update that only returns a value leaves all views as they were. -/
theorem leaves_pure (a : α) : (pure a : Update ρ σ α).Leaves view := by
  rintro s x a s' x' ⟨⟩
  rfl

/-- An update that fails leaves nothing to be seen. -/
theorem leaves_throw (fault : Fault) : (throw fault : Update ρ σ α).Leaves view := by
  rintro s x a s' x' ⟨⟩

/-- Reading leaves all views as they were. -/
theorem leaves_read (reading : Store ρ → Except Fault α) :
    (read reading : Update ρ σ α).Leaves view := by
  intro s x a s' x' hrun
  obtain ⟨_, -, heq⟩ := except_map_eq_ok.mp hrun
  cases heq
  rfl

/-- If each of two updates leaves the view as it was, so do both in sequence. -/
theorem Leaves.bind {u : Update ρ σ α} {f : α → Update ρ σ β} (hu : u.Leaves view)
    (hf : ∀ a, (f a).Leaves view) : (u >>= f).Leaves view := by
  intro s x b s₂ x₂ hrun
  obtain ⟨⟨⟨a, s₁⟩, x₁⟩, hfirst, hrest⟩ := except_bind_eq_ok.mp hrun
  exact (hf a s₁ x₁ b s₂ x₂ hrest).trans (hu s x a s₁ x₁ hfirst)

end Update

/-- Callbacks that change nothing of what `view` shows. -/
structure Augmentation.Leaves (view : Store ρ → σ → γ) (aug : Augmentation ρ σ) : Prop where
  propagate (node stop : Option RecordId) : (aug.propagate node stop).Leaves view
  copy (old new : RecordId) : (aug.copy old new).Leaves view
  rotate (old new : RecordId) : (aug.rotate old new).Leaves view

/-! ### Sparing nodes -/

section Spares

variable [Linked ρ]

/-- Where `u` returns, all nodes are as they were. -/
def Update.Spares (u : Update ρ σ α) : Prop :=
  ∀ s x a s' x', u s x = .ok ((a, s'), x') → s'.node = s.node

/-- Where callbacks that spare nodes would fail, skipping them spares nodes as well. -/
theorem Update.Spares.returns_orSkip {u : Update ρ σ Unit} (h : u.Spares) (s : Store ρ) (x : σ) :
    u.orSkip.Returns s x fun _ s' _ => s'.node = s.node ∧ True := by
  cases hrun : u s x with
  | error e => exact ⟨(), s, x, by simp only [orSkip, hrun], rfl, trivial⟩
  | ok r =>
    obtain ⟨⟨a, s'⟩, x'⟩ := r
    exact ⟨a, s', x', by simp only [orSkip, hrun], h s x a s' x' hrun, trivial⟩

namespace Augmentation

/-- Callbacks that change no node. -/
structure Spares (aug : Augmentation ρ σ) : Prop where
  propagate (node stop : Option RecordId) : (aug.propagate node stop).Spares
  copy (old new : RecordId) : (aug.copy old new).Spares
  rotate (old new : RecordId) : (aug.rotate old new).Spares

/-- Callbacks that leave the view of all nodes as it was spare the nodes. -/
theorem Leaves.spares {aug : Augmentation ρ σ} (h : aug.Leaves fun s _ => s.node) : aug.Spares :=
  ⟨h.propagate, h.copy, h.rotate⟩

/-- Where there are no callbacks, none of them changes a node. -/
theorem spares_none : (none : Augmentation ρ σ).Spares :=
  Leaves.spares ⟨fun _ _ => Update.leaves_pure (), fun _ _ => Update.leaves_pure (),
    fun _ _ => Update.leaves_pure ()⟩

section Contracts

variable {aug : Augmentation ρ σ} (h : aug.Spares)
include h

/-- The contracts hold where nothing is to be kept right. -/
theorem Spares.turns : aug.orSkip.Turns fun _ _ _ _ => True where
  recolor _ _ := trivial
  rotate _ _ := (h.rotate _ _).returns_orSkip _ _

/-- Callbacks that spare nodes go with every link, once those that fail are skipped. -/
theorem Spares.grows (id : RecordId) :
    aug.orSkip.Grows id (fun _ _ _ => True) fun _ _ _ => True where
  propagate _ _ := (h.propagate _ _).returns_orSkip _ _

/-- They go with every removal of a node as well. -/
theorem Spares.shrinks (id : RecordId) :
    aug.orSkip.Shrinks id (fun _ _ _ => True) fun _ _ _ => True where
  child _ _ := (h.propagate _ _).returns_orSkip _ _
  next _ _ _ := ((h.copy _ _).returns_orSkip _ _).mono fun _ _ _ hcopy =>
    ⟨hcopy.1, fun _ _ _ _ => (h.propagate _ _).returns_orSkip _ _⟩
  deep _ _ _ _ _ _ _ _ := ((h.copy _ _).returns_orSkip _ _).mono fun _ _ _ hcopy =>
    ⟨hcopy.1, ((h.propagate _ _).returns_orSkip _ _).mono fun _ _ _ hraise =>
      ⟨hraise.1, fun _ _ _ _ => (h.propagate _ _).returns_orSkip _ _⟩⟩

end Contracts

end Augmentation

end Spares

/-! ### Reaches -/

section Reaches

variable {κ : Type} [Spanned ρ κ] {view : Store ρ → σ → γ}
  (hview : ∀ (s : Store ρ) (id : RecordId) (reach : κ) (x : σ),
    view (s.setReach id reach) x = view s x)
include hview

/-- A view that does not show reaches is the same after one was set. -/
theorem Update.leaves_setReach (id : RecordId) (reach : κ) :
    (modifyEntry id fun e => { e with reach }).Leaves view := by
  intro s x a s' x' hrun
  have hreturns : (modifyEntry id fun e => { e with reach }).Returns s x
      fun _ t y => t = s' ∧ y = x' := ⟨a, s', x', hrun, rfl, rfl⟩
  obtain ⟨-, rfl, rfl⟩ := returns_setReach.mp hreturns
  exact hview s id reach x

/-- It is the same after a reach was copied. -/
theorem leaves_copyReach (old new : RecordId) : (copyReach old new).Leaves view :=
  (Update.leaves_read _).bind fun e => Update.leaves_setReach hview new e.reach

variable [LT κ] [DecidableLT κ] [DecidableEq κ]

/-- It is the same after a climb that raised reaches, however far that went. -/
theorem leaves_raiseReachFrom (stop : Option RecordId) (steps : Nat) (id : Option RecordId) :
    (raiseReachFrom stop steps id).Leaves view := by
  induction steps generalizing id with
  | zero =>
    cases id with
    | none => exact Update.leaves_pure ()
    | some id => exact Update.leaves_throw .endless
  | succ steps ih =>
    cases id with
    | none => exact Update.leaves_pure ()
    | some id =>
      unfold raiseReachFrom
      split_ifs
      · exact Update.leaves_pure ()
      · refine (Update.leaves_read _).bind fun reach => (Update.leaves_read _).bind fun e => ?_
        split_ifs
        · exact Update.leaves_pure ()
        · exact (Update.leaves_setReach hview id reach).bind fun _ => ih e.node.parent

/-- What does not depend on reaches is left alone. -/
theorem leaves_reachSummary : (reachSummary : Augmentation ρ σ).Leaves view where
  propagate node stop := (Update.leaves_read _).bind fun steps =>
    leaves_raiseReachFrom hview stop steps node
  copy := leaves_copyReach hview
  rotate old new := by
    refine (leaves_copyReach hview old new).bind fun _ => ?_
    refine (Update.leaves_read _).bind fun reach => ?_
    exact Update.leaves_setReach hview old reach

omit hview in
/-- Keeping reaches changes no node. -/
theorem spares_reachSummary [LawfulSpanned ρ] : (reachSummary : Augmentation ρ σ).Spares :=
  (leaves_reachSummary fun s id reach _ => s.node_setReach id reach).spares

end Reaches

end RecordTree
