import RecordTree.Proofs.Benchmark.Ledger
import RecordTree.Proofs.Benchmark.Subject

/-!
# `RecordTree.Proofs.Benchmark.Items`: the phases of a run that are about items

`Subject.Tracks` ties a tree to a `Ledger`: the nodes of the tree are the items that the ledger has
as linked. Loading leads to a tree that tracks a loaded ledger (`Subject.returns_load`), and every
action that is made is one that is entered (`Subject.Tracks.returns_act`), so the incremental phase
ends with the ledger's own figures (`Subject.Tracks.returns_actAll`).
-/

set_option autoImplicit false

namespace RecordTree

/-- A record that is added gets the next id. -/
@[simp] theorem Update.returns_push {ρ σ : Type} {r : ρ} {s : Store ρ} {x : σ}
    {Q : RecordId → Store ρ → σ → Prop} :
    (push r : Update ρ σ RecordId).Returns s x Q ↔ Q s.size (s.push r) x :=
  returns_of_run rfl

namespace Benchmark

variable {τ γ : Type} [Source γ]

/-! ### Drawing items -/

section Generate

/-- As many items come to the store as are generated. -/
theorem size_generate (count : Nat) (g : γ) (items : Store Item) :
    (generate count g items).1.size = items.size + count := by
  induction count generalizing g items with
  | zero => rfl
  | succ count ih =>
    have hrest := ih (Source.draw g).2 (items.push { key := (Source.draw g).1 })
    rw [Array.size_push] at hrest
    show (generate count (Source.draw g).2 (items.push { key := (Source.draw g).1 })).1.size = _
    omega

/-- Drawn items have new nodes. -/
theorem fresh_generate (count : Nat) (g : γ) (items : Store Item)
    (hfresh : ∀ id n, items.node id = .ok n → n = {}) :
    ∀ id n, (generate count g items).1.node id = .ok n → n = {} := by
  induction count generalizing g items with
  | zero => exact hfresh
  | succ count ih =>
    refine ih (Source.draw g).2 (items.push { key := (Source.draw g).1 }) ?_
    intro id n hn
    rcases Store.node_of_push hn with hn | ⟨-, rfl⟩
    · exact hfresh id n hn
    · rfl

end Generate

namespace Subject

variable {t : τ} {s : Store Item} {shape : Shape} {l : Ledger}

/-- What the benchmark makes of an operation that goes through. -/
theorem returns_attempt {op : Guarded Item Unit τ} {Q : τ → Store Item → Unit → Prop}
    (h : op.Returns s () Q fun _ _ _ => False) : (attempt t op).Returns s () Q := by
  rw [attempt, Update.returns_bind]
  refine Update.Returns.mono h ?_
  intro outcome s' x hout
  cases outcome with
  | ok t' => exact Update.returns_pure.mpr hout
  | error r => exact hout.elim

variable [Subject τ] [Lawful τ]

/-! ### Loading -/

/-- Loading the next `count` items into a sound tree returns, and links them. -/
theorem returns_load {count id : Nat} (h : Sound t s shape) (hsize : id + count ≤ s.size)
    (hmem : ∀ j : Nat, j ∈ shape.inorder ↔ j < id) :
    (load count id t).Returns s ()
      (fun t' s' _ => ∃ shape', Sound t' s' shape' ∧ s'.size = s.size ∧
        ∀ j : Nat, j ∈ shape'.inorder ↔ j < id + count)
      fun _ _ _ => False := by
  -- By induction on how many are left to load. The nodes so far are the ids below `id`.
  induction count generalizing id t s shape with
  | zero => exact Guarded.returns_pure.mpr ⟨shape, h, rfl, hmem⟩
  | succ count ih =>
    have hid : id < s.size := by omega
    have hout : id ∉ shape.inorder := fun hin => Nat.lt_irrefl id ((hmem id).mp hin)
    rw [load, Guarded.returns_bind]
    refine (h.returns_insert hid hout).mono ?_ fun _ _ _ hr => hr
    intro t₁ s₁ x hdone
    obtain ⟨shape₁, hsound, hpayload, hmem₁⟩ := hdone
    have hsize₁ : s₁.size = s.size := Store.size_eq_of_payload hpayload
    have hmem' : ∀ j : Nat, j ∈ shape₁.inorder ↔ j < id + 1 := by
      intro j
      rw [hmem₁, hmem]
      exact or_comm.trans Nat.lt_succ_iff_lt_or_eq.symm
    refine (ih hsound (show id + 1 + count ≤ s₁.size by omega) hmem').mono ?_ fun _ _ _ hr => hr
    intro t' s' x' hdone
    obtain ⟨shape', hsound', hsize', hmem''⟩ := hdone
    refine ⟨shape', hsound', hsize'.trans hsize₁, fun j => ?_⟩
    rw [hmem'']
    omega

/-- No look-up misses while all items are linked. -/
theorem Sound.firstMissing_eq (h : Sound t s shape) {count id : Nat}
    (hall : ∀ j : Nat, id ≤ j → j < id + count → j ∈ shape.inorder) :
    firstMissing t s count id = .ok none := by
  induction count generalizing id with
  | zero => rfl
  | succ count ih =>
    have hin : id ∈ shape.inorder := hall id (Nat.le_refl id) (by omega)
    obtain ⟨found, hrun, hfound⟩ := h.lookUp_eq (h.tree_keeps.lt_size hin)
    obtain ⟨j, rfl⟩ := Option.ne_none_iff_exists'.mp (hfound hin)
    have hrest : firstMissing t s count (id + 1) = .ok none := by
      refine ih fun k hk hlt => hall k ?_ ?_
      · omega
      · omega
    simp only [firstMissing, hrun, bind, Except.bind]
    exact hrest

/-! ### Actions -/

/-- The tree has the items as nodes that are linked by the ledger. -/
structure Tracks (t : τ) (s : Store Item) (shape : Shape) (l : Ledger) : Prop
    extends Sound t s shape where
  size_eq : s.size = l.size
  mem_iff : ∀ id, id ∈ shape.inorder ↔ id ∈ l.linked

namespace Tracks

/-- The tree has as many nodes as the ledger has linked items. -/
theorem size_eq_card (h : Tracks t s shape l) : shape.size = l.linked.card := by
  have hlinked : shape.inorder.toFinset = l.linked := by
    ext id
    rw [List.mem_toFinset, h.mem_iff]
  rw [← Shape.length_inorder, ← hlinked, List.toFinset_card_of_nodup h.tree_keeps.nodup]

/-- An insertion links a new item, as the ledger does. -/
theorem returns_insert (h : Tracks t s shape l) (key : UInt64) :
    (act t l.tally (.insert key)).Returns s () fun out s' _ =>
      out.2 = (l.act (.insert key)).tally ∧
        ∃ shape', Tracks out.1 s' shape' (l.act (.insert key)) := by
  have hnew : s.size < Array.size (s.push { key }) := by
    rw [Array.size_push]
    exact Nat.lt_succ_self _
  have hout : s.size ∉ shape.inorder := fun hin => Nat.lt_irrefl _ (h.tree_keeps.lt_size hin)
  simp only [act, Update.returns_bind, Update.returns_push, Update.returns_pure]
  refine (returns_attempt ((h.toSound.push key).returns_insert hnew hout)).mono ?_
  intro t' s' x hdone
  obtain ⟨shape', hsound, hpayload, hmem⟩ := hdone
  refine ⟨rfl, shape', hsound, ?_, fun id => ?_⟩
  · rw [Store.size_eq_of_payload hpayload, Array.size_push, h.size_eq]
    rfl
  · rw [hmem, h.mem_iff, h.size_eq]
    exact Finset.mem_insert.symm

/-- A deletion takes out the item that was picked, if it is linked, as the ledger does. -/
theorem returns_delete (h : Tracks t s shape l) (pick : Nat) :
    (act t l.tally (.delete pick)).Returns s () fun out s' _ =>
      out.2 = (l.act (.delete pick)).tally ∧
        ∃ shape', Tracks out.1 s' shape' (l.act (.delete pick)) := by
  simp only [act, Update.returns_bind, Update.returns_read, except_pure_eq_ok, ↓existsAndEq,
    true_and]
  by_cases hsize : s.size = 0
  · have hempty : l.size = 0 := h.size_eq.symm.trans hsize
    simp only [if_pos hsize, Update.returns_pure, Ledger.act, if_pos hempty]
    exact ⟨trivial, shape, h⟩
  · have hid : pick % s.size < s.size := Nat.mod_lt pick (Nat.pos_of_ne_zero hsize)
    obtain ⟨n, hn⟩ := Store.exists_node_of_lt hid
    simp only [if_neg hsize, Update.returns_bind, Update.returns_node, hn, Except.ok.injEq,
      ↓existsAndEq, true_and, Ledger.act, ← h.size_eq]
    by_cases hstate : n.state = .linked
    · have hin : pick % s.size ∈ shape.inorder := h.mem_of_linked _ n hn hstate
      simp only [hstate, Update.returns_bind, Update.returns_pure]
      refine (returns_attempt (h.toSound.returns_delete hin)).mono ?_
      intro t' s' x hdone
      obtain ⟨shape', hsound, hpayload, hmem⟩ := hdone
      refine ⟨trivial, shape', hsound, Store.size_eq_of_payload hpayload, fun id => ?_⟩
      rw [hmem, h.mem_iff]
      exact Finset.mem_erase.symm
    · -- What is not linked is in no tree, so there is nothing to take out of the ledger either.
      have hout : pick % s.size ∉ l.linked := by
        intro hin
        exact hstate ((h.linked_iff hn).mpr ((h.mem_iff _).mpr hin))
      rw [Finset.erase_eq_of_notMem hout]
      have htracks : Tracks t s shape { l with
          size := s.size
          tally := { l.tally with deletes := l.tally.deletes + 1 }
          hits := if pick % s.size ∈ l.linked then l.hits + 1 else l.hits } :=
        ⟨h.toSound, rfl, h.mem_iff⟩
      cases hcase : n.state with
      | linked => exact absurd hcase hstate
      | detached | removed => exact Update.returns_pure.mpr ⟨rfl, shape, htracks⟩

/-- A search leaves the items alone, and is counted as the ledger counts it. -/
theorem returns_find (h : Tracks t s shape l) (pick : Nat) :
    (act t l.tally (.find pick)).Returns s () fun out s' _ =>
      out.2 = (l.act (.find pick)).tally ∧
        ∃ shape', Tracks out.1 s' shape' (l.act (.find pick)) := by
  simp only [act, Update.returns_bind, Update.returns_read, except_pure_eq_ok, ↓existsAndEq,
    true_and]
  by_cases hsize : s.size = 0
  · have hempty : l.size = 0 := h.size_eq.symm.trans hsize
    simp only [if_pos hsize, Update.returns_pure, Ledger.act, if_pos hempty]
    exact ⟨trivial, shape, h⟩
  · have hid : pick % s.size < s.size := Nat.mod_lt pick (Nat.pos_of_ne_zero hsize)
    obtain ⟨found, hrun, -⟩ := h.lookUp_eq hid
    simp only [if_neg hsize, Update.returns_bind, Update.returns_read, Update.returns_pure,
      Ledger.act, ← h.size_eq]
    exact ⟨found, hrun, trivial, shape, h.toSound, rfl, h.mem_iff⟩

/-- The step: an action that is made is one that is entered. -/
theorem returns_act (h : Tracks t s shape l) (action : Action) :
    (act t l.tally action).Returns s () fun out s' _ =>
      out.2 = (l.act action).tally ∧ ∃ shape', Tracks out.1 s' shape' (l.act action) := by
  cases action with
  | insert key => exact h.returns_insert key
  | delete pick => exact h.returns_delete pick
  | find pick => exact h.returns_find pick

/-- The run: after any number of actions the tree still tracks the ledger. -/
theorem returns_actAll (h : Tracks t s shape l) (count : Nat) (g : γ) :
    (actAll count g t l.tally).Returns s () fun out s' _ =>
      out.1.2 = ((drawActions count g).1.foldl Ledger.act l).tally ∧
        out.2 = (drawActions count g).2 ∧
        ∃ shape', Tracks out.1.1 s' shape' ((drawActions count g).1.foldl Ledger.act l) := by
  induction count generalizing g t s shape l with
  | zero => exact Update.returns_pure.mpr ⟨rfl, rfl, shape, h⟩
  | succ count ih =>
    rw [actAll, Update.returns_bind]
    refine (h.returns_act (Action.draw g).1).mono ?_
    rintro ⟨t', tally⟩ s' x ⟨rfl, shape', h'⟩
    exact ih h' (Action.draw g).2

end Tracks

end Subject

end Benchmark

end RecordTree
