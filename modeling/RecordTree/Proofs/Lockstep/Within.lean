import RecordTree.Interval.Tree
import RecordTree.Proofs.Interval.Entry
import RecordTree.Proofs.Lockstep.Tree

/-!
# `RecordTree.Proofs.Lockstep.Within`: runs that keep to a part of the store

Two stores that hold the same records at the ids `F`, whose links lead to `F` again, are the same to
all code that starts there. It reads nothing else, so it does the same on both, and it changes
nothing else either. `Within F` is the alignment that says so: the two states have the same records
at `F`, and each of them is elsewhere as it was at the start of the runs.

The context of a caller can be in two parts, of which a comparator uses its own and leaves the rest
alone (`Comparator.Minds`). Then what the rest holds at the start does not matter either.

* `Within.lockstep`: tree code is in step with itself.
* `Within.tracks_reachSummary`, `Within.tracks_resetReach`: so is what interval trees do besides.
-/

set_option autoImplicit false

namespace RecordTree

variable {ρ σ α β κ : Type}

/-- The comparator goes by the records and its own part of the context, and leaves the rest of the
context as it is. -/
structure Comparator.Minds (own : σ → α) (rest : σ → β) (compare : Comparator ρ σ) : Prop where
  answer_eq {a b : ρ} {x x₀ : σ} : own x₀ = own x → (compare a b x₀).1 = (compare a b x).1
  own_eq {a b : ρ} {x x₀ : σ} : own x₀ = own x → own (compare a b x₀).2 = own (compare a b x).2
  rest_eq (a b : ρ) (x : σ) : rest (compare a b x).2 = rest x

/-- A comparator that computes an order uses no part of the context. -/
theorem Comparator.minds_of (own : σ → α) (rest : σ → β) (order : ρ → ρ → Ordering) :
    (Comparator.of order).Minds own rest :=
  ⟨fun _ => rfl, id, fun _ _ _ => rfl⟩

/-- Rejections are not put into this part of the context. -/
def Deaf [Listener σ] (part : σ → α) : Prop := ∀ r x, part (Listener.hear r x) = part x

/-- The states `(s, x)` and `(s₀, x₀)` have the same records at `F`, with links to `F`, and the same
own part of the context. Elsewhere the stores are `t` and `t₀`, and the rest of the contexts is that
of `y` and `y₀`. -/
structure Within [Linked ρ] (F : Set RecordId) (own : σ → α) (rest : σ → β) (t : Store ρ) (y : σ)
    (t₀ : Store ρ) (y₀ : σ) (s : Store ρ) (x : σ) (s₀ : Store ρ) (x₀ : σ) : Prop where
  size_eq : s₀.size = s.size
  fetch_eq : ∀ j ∈ F, s₀.fetch j = s.fetch j
  inside : ∀ j ∈ F, ∀ n, s.node j = .ok n → n.Inside F
  frame : ∀ j ∉ F, s.fetch j = t.fetch j
  frame₀ : ∀ j ∉ F, s₀.fetch j = t₀.fetch j
  own_eq : own x₀ = own x
  rest_eq : rest x = rest y
  rest_eq₀ : rest x₀ = rest y₀

namespace Within

section Linked

variable [Linked ρ] {F : Set RecordId} {own : σ → α} {rest : σ → β} {s s₀ t t₀ : Store ρ}
  {x x₀ y y₀ : σ} {id : RecordId}

/-- Records that are the same have the same node. -/
theorem node_eq (h : Within F own rest t y t₀ y₀ s x s₀ x₀) (hid : id ∈ F) :
    s₀.node id = s.node id :=
  congrArg _ (h.fetch_eq id hid)

/-- The same change of a record of `F` on both sides. -/
theorem modify (h : Within F own rest t y t₀ y₀ s x s₀ x₀) (hid : id ∈ F) {g : ρ → ρ}
    (hg : ∀ r, (Linked.node r).Inside F → (Linked.node (g r)).Inside F) :
    Within F own rest t y t₀ y₀ (s.modify id g) x (s₀.modify id g) x₀ where
  size_eq := by simp [h.size_eq]
  fetch_eq j hj := by rw [Store.fetch_modify, Store.fetch_modify, h.fetch_eq j hj]
  inside j hj n hn := by
    rw [Store.node, Store.fetch_modify] at hn
    split_ifs at hn with heq
    · obtain ⟨r', hr', rfl⟩ := except_functor_map_eq_ok.mp hn
      obtain ⟨r, hr, rfl⟩ := except_functor_map_eq_ok.mp hr'
      exact hg r (h.inside j hj _ (except_functor_map_eq_ok.mpr ⟨r, hr, rfl⟩))
    · exact h.inside j hj n hn
  frame j hj := by
    rw [Store.fetch_modify, if_neg (ne_of_mem_of_not_mem hid hj)]
    exact h.frame j hj
  frame₀ j hj := by
    rw [Store.fetch_modify, if_neg (ne_of_mem_of_not_mem hid hj)]
    exact h.frame₀ j hj
  own_eq := h.own_eq
  rest_eq := h.rest_eq
  rest_eq₀ := h.rest_eq₀

/-- Runs within `F` are in step on the records of `F`. -/
theorem lockstep [LawfulLinked ρ] :
    Lockstep F (Within F own rest t y t₀ y₀ : Alignment ρ σ σ) where
  size_eq h := h.size_eq
  node_eq h hid := h.node_eq hid
  inside h hid hn := h.inside _ hid _ hn
  change h hid hf := h.modify hid fun r hr => by
    rw [LawfulLinked.node_withNode]
    exact hf _ hr

/-- Runs within `F` still match when both hear of a rejection, since no part of the context takes
note of it. -/
theorem hears [Listener σ] (hown : Deaf own) (hrest : Deaf rest) :
    Hears (Within F own rest t y t₀ y₀ : Alignment ρ σ σ) := by
  intro r s x s₀ x₀ h
  refine { h with own_eq := ?_, rest_eq := ?_, rest_eq₀ := ?_ }
  · rw [hown, hown, h.own_eq]
  · rw [hrest, h.rest_eq]
  · rw [hrest, h.rest_eq₀]

/-- A comparator that uses its own part of the context agrees with itself on both sides. -/
theorem agrees {compare : Comparator ρ σ} (hminds : compare.Minds own rest) :
    Comparator.Agrees F (Within F own rest t y t₀ y₀) compare compare := by
  intro s s₀ x x₀ i j a b a₀ b₀ h hi hj ha hb ha₀ hb₀
  rw [h.fetch_eq i hi, ha] at ha₀
  rw [h.fetch_eq j hj, hb] at hb₀
  cases ha₀
  cases hb₀
  refine ⟨hminds.answer_eq h.own_eq, { h with own_eq := ?_, rest_eq := ?_, rest_eq₀ := ?_ }⟩
  · exact hminds.own_eq h.own_eq
  · rw [hminds.rest_eq, h.rest_eq]
  · rw [hminds.rest_eq, h.rest_eq₀]

end Linked

/-! ### Reaches -/

section Reaches

variable [Spanned ρ κ] {F : Set RecordId} {own : σ → α} {rest : σ → β} {s s₀ t t₀ : Store ρ}
  {x x₀ y y₀ : σ} {id : RecordId}

/-- The interval of a record of `F` is the same on both sides. -/
theorem rereads_entry (h : Within F own rest t y t₀ y₀ s x s₀ x₀) (hid : id ∈ F) :
    Rereads (s.entry id) (s₀.entry id) (·.node.Inside F) := by
  intro e he
  refine ⟨?_, h.inside id hid e.node ?_⟩
  · rw [Store.entry, h.fetch_eq id hid]
    exact he
  · rw [Store.node_eq_entry, he]
    rfl

/-- Reading it keeps the runs in step. -/
theorem tracks_entry (hid : id ∈ F) :
    Update.Tracks (Within F own rest t y t₀ y₀) (Update.entry (ρ := ρ) id) (Update.entry id)
      (·.node.Inside F) :=
  Update.tracks_read fun _ _ _ _ h => h.rereads_entry hid

variable [LawfulSpanned ρ]

/-- A change of an interval that leaves its node alone. -/
theorem tracks_modifyEntry (hid : id ∈ F) {f : Entry κ → Entry κ} (hf : ∀ e, (f e).node = e.node) :
    Update.Tracks (Within F own rest t y t₀ y₀) (Update.modifyEntry (ρ := ρ) id f)
      (Update.modifyEntry id f) fun _ => True := by
  intro s x s₀ x₀ h a s' x' hrun
  have hreturns : (Update.modifyEntry id f).Returns s x fun _ t y => t = s' ∧ y = x' :=
    ⟨a, s', x', hrun, rfl, rfl⟩
  obtain ⟨hlt, rfl, rfl⟩ := Update.returns_modifyEntry.mp hreturns
  refine Update.returns_modifyEntry.mpr ⟨h.size_eq ▸ hlt, rfl, h.modify hid fun r hr => ?_, trivial⟩
  show (Spanned.entry (Spanned.withEntry r (f (Spanned.entry r)))).node.Inside F
  rw [LawfulSpanned.entry_withEntry, hf]
  exact hr

/-- Setting the reach of a record of `F` keeps the runs in step. -/
theorem tracks_setReach (hid : id ∈ F) (reach : κ) :
    Update.Tracks (Within F own rest t y t₀ y₀)
      (Update.modifyEntry (ρ := ρ) id fun e => { e with reach })
      (Update.modifyEntry id fun e => { e with reach }) fun _ => True :=
  tracks_modifyEntry hid fun _ => rfl

/-- So does resetting it before an insertion. -/
theorem tracks_resetReach (hid : id ∈ F) :
    Update.Tracks (Within F own rest t y t₀ y₀) (IntervalTree.resetReach (ρ := ρ) id)
      (IntervalTree.resetReach id) fun _ => True := by
  refine (tracks_entry hid).bind fun e _ => ?_
  cases e.node.state with
  | linked => exact Update.tracks_pure trivial
  | detached => exact tracks_modifyEntry hid fun _ => rfl
  | removed => exact tracks_modifyEntry hid fun _ => rfl

/-- So does copying it from another record of `F`. -/
theorem tracks_copyReach {old new : RecordId} (hold : old ∈ F) (hnew : new ∈ F) :
    Update.Tracks (Within F own rest t y t₀ y₀) (copyReach (ρ := ρ) old new) (copyReach old new)
      fun _ => True :=
  (tracks_entry hold).bind fun e _ => tracks_setReach hnew e.reach

variable [LT κ] [DecidableLT κ]

omit [LawfulSpanned ρ] in
/-- The larger of a reach and that of a child is the same on both sides. -/
theorem rereads_reachWith (h : Within F own rest t y t₀ y₀ s x s₀ x₀) (reach : κ)
    {child : Option RecordId} (hchild : Inside F child) :
    Rereads (s.reachWith reach child) (s₀.reachWith reach child) fun _ => True := by
  cases child with
  | none => exact rereads_ok trivial
  | some child =>
    exact (h.rereads_entry (inside_some.mp hchild)).bind fun _ _ => rereads_ok trivial

omit [LawfulSpanned ρ] in
/-- The reach that a record of `F` should have is the same on both sides, since its children are of
`F`. -/
theorem tracks_reachOf (hid : id ∈ F) :
    Update.Tracks (Within F own rest t y t₀ y₀) (Update.read fun s : Store ρ => s.reachOf id)
      (Update.read fun s => s.reachOf id) fun _ => True := by
  refine Update.tracks_read fun s x s₀ x₀ h => ?_
  refine (h.rereads_entry hid).bind fun e he => ?_
  refine (h.rereads_reachWith e.stop he.left).bind fun reach _ => ?_
  exact h.rereads_reachWith reach he.right

variable [DecidableEq κ]

/-- A climb that raises reaches goes the same way on both sides. -/
theorem tracks_raiseReachFrom (stop : Option RecordId) (steps : Nat) {id : Option RecordId}
    (hid : Inside F id) :
    Update.Tracks (Within F own rest t y t₀ y₀) (raiseReachFrom (ρ := ρ) stop steps id)
      (raiseReachFrom stop steps id) fun _ => True := by
  induction steps generalizing id with
  | zero =>
    cases id with
    | none => exact Update.tracks_pure trivial
    | some id => exact Update.tracks_throw
  | succ steps ih =>
    cases id with
    | none => exact Update.tracks_pure trivial
    | some id =>
      have hid := inside_some.mp hid
      refine Update.tracks_ite (fun _ => Update.tracks_pure trivial) fun _ => ?_
      refine (tracks_reachOf hid).bind fun reach _ => (tracks_entry hid).bind fun e he => ?_
      refine Update.tracks_ite (fun _ => Update.tracks_pure trivial) fun _ => ?_
      exact (tracks_setReach hid reach).bind fun _ _ => ih he.parent

/-- The callbacks that keep reaches right follow themselves on records of `F`. -/
theorem tracks_reachSummary :
    (reachSummary : Augmentation ρ σ).Tracks F (Within F own rest t y t₀ y₀) reachSummary where
  propagate hnode _ := (lockstep.limit fun n => (n + 2) * (n + 2) * (n + 2)).bind fun steps _ =>
    tracks_raiseReachFrom _ steps hnode
  copy hold hnew := tracks_copyReach hold hnew
  rotate hold hnew := (tracks_copyReach hold hnew).bind fun _ _ =>
    (tracks_reachOf hold).bind fun reach _ => tracks_setReach hold reach

end Reaches

end Within

end RecordTree
