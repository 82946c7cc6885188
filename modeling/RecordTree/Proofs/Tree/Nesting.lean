import RecordTree.Proofs.Tree.Halts
import RecordTree.Proofs.Watched.Basic

/-!
# `RecordTree.Proofs.Tree.Nesting`: how deep the calls of a validation are nested

`Tree.validateNested` is the recursion of a validation with a log of its calls. It keeps track of
the ids whose calls have not returned yet, and notes them in front of the caller's context whenever
it calls itself. Nothing else comes of it: `Tree.logs_validateNested` erases the notes.

An id is pending only after its parent link has passed. So the pending ids are a lineage, and no
call is nested in two calls on one id, or in as many as there are records and one more
(`Visit.Simple`).
-/

set_option autoImplicit false

namespace RecordTree

variable {ρ σ α β ν : Type}

/-! ### Logs of checks -/

/-- Where `c` comes to an end, `c'` comes to the same one, and puts notes of which `P` holds behind
those that were in front of the context before. -/
def Check.Logs (c' : Check (List ν × σ) α) (c : Check σ α) (P : ν → Prop) (x : σ) : Prop :=
  ∀ out x', c.run x = .ok (out, x') → ∀ log, ∃ notes,
    c'.run (log, x) = .ok (out, (log ++ notes, x')) ∧ ∀ v ∈ notes, P v

namespace Check

variable {c' : Check (List ν × σ) α} {c : Check σ α} {P : ν → Prop} {x : σ}

/-- Puts a note behind the others. -/
def note (v : ν) : Check (List ν × σ) Unit :=
  query (Query.ask fun x => ((), (x.1 ++ [v], x.2)))

/-- A check that neither asks nor notes anything. -/
theorem logs_of_run {out : Except Defect α} (h' : ∀ y, c'.run y = .ok (out, y))
    (h : c.run x = .ok (out, x)) : Logs c' c P x := by
  intro out' x' hrun log
  rw [h] at hrun
  cases hrun
  exact ⟨[], by rw [h', List.append_nil], fun _ hv => absurd hv List.not_mem_nil⟩

/-- A check that passes at once makes no calls. -/
theorem logs_pure (a : α) (P : ν → Prop) (x : σ) : Logs (pure a) (pure a) P x :=
  logs_of_run (fun _ => rfl) rfl

/-- A refusal makes no calls. -/
theorem logs_refuse (bad : Prop) [Decidable bad] (defect : Defect) (P : ν → Prop) (x : σ) :
    Logs (refuse bad defect) (refuse bad defect) P x := by
  unfold refuse
  by_cases h : bad
  · rw [if_pos h, if_pos h]
    exact logs_of_run (fun _ => rfl) rfl
  · rw [if_neg h, if_neg h]
    exact logs_pure () P x

/-- Reading makes no calls. -/
theorem logs_read (reading : Except Fault α) (P : ν → Prop) (x : σ) :
    Logs (query (Query.read reading)) (query (Query.read reading)) P x := by
  cases reading with
  | ok a => exact logs_of_run (fun _ => rfl) rfl
  | error fault =>
    intro out x' hrun
    cases hrun

/-- A comparator that leaves the notes alone asks what it asks without them. -/
theorem logs_compare (compare : Comparator ρ σ) (a b : ρ) (P : ν → Prop) (x : σ) :
    Logs (query (Query.ask (compare.beside a b))) (query (Query.ask (compare a b))) P x := by
  intro out x' hrun log
  cases hrun
  refine ⟨[], ?_, fun _ hv => absurd hv List.not_mem_nil⟩
  rw [List.append_nil]
  rfl

/-- Two checks in sequence log their calls one after the other. -/
theorem Logs.bind {f' : α → Check (List ν × σ) β} {f : α → Check σ β} (h : Logs c' c P x)
    (hf : ∀ a x', c.run x = .ok (.ok a, x') → Logs (f' a) (f a) P x') :
    Logs (c' >>= f') (c >>= f) P x := by
  intro out x₂ hrun log
  rw [run_bind] at hrun
  obtain ⟨⟨first, x₁⟩, hc, hrest⟩ := except_bind_eq_ok.mp hrun
  obtain ⟨notes, hc', hnotes⟩ := h first x₁ hc log
  rw [run_bind, hc']
  cases first with
  | error defect =>
    cases hrest
    exact ⟨notes, rfl, hnotes⟩
  | ok a =>
    obtain ⟨more, hf', hmore⟩ := hf a x₁ hc out x₂ hrest (log ++ notes)
    refine ⟨notes ++ more, ?_, fun v hv => ?_⟩
    · rw [← List.append_assoc]
      exact hf'
    · exact (List.mem_append.mp hv).elim (hnotes v) (hmore v)

/-- A note in front of a check. -/
theorem Logs.after_note {v : ν} (hv : P v) (h : Logs c' c P x) :
    Logs (do note v; c') c P x := by
  intro out x' hrun log
  obtain ⟨notes, hc', hnotes⟩ := h out x' hrun (log ++ [v])
  refine ⟨v :: notes, ?_, List.forall_mem_cons.mpr ⟨hv, hnotes⟩⟩
  rw [List.append_cons, ← hc', run_bind]
  rfl

end Check

variable [Linked ρ] {s : Store ρ}

/-! ### Calls of the recursion -/

/-- A call of the recursion: the ids that it is nested in, the innermost one first, and the position
that it checks. -/
structure Visit where
  pending : List RecordId
  position : Option RecordId

/-- The call is nested in calls on different ids, whose parent links are the way up to the root. If
the parent link at its own position is right as well, then that is another one. -/
structure Visit.Simple (s : Store ρ) (v : Visit) : Prop where
  lineage : s.Lineage v.pending.head? v.pending.reverse
  nodup : v.pending.Nodup
  fresh : ∀ id n, v.position = some id → s.node id = .ok n → n.parent = v.pending.head? →
    id ∉ v.pending
  length_le : v.pending.length ≤ s.size

/-- What passed on the way to a call is a lineage, and in one no id comes twice. -/
theorem Visit.simple_of_lineage {pending : List RecordId}
    (hline : s.Lineage pending.head? pending.reverse) (position : Option RecordId) :
    Visit.Simple s ⟨pending, position⟩ where
  lineage := hline
  nodup := List.nodup_reverse.mp hline.nodup
  fresh id n _ hn hparent := by
    have hbelow := (hline.cons hn hparent).nodup
    exact (List.nodup_cons.mp (List.nodup_reverse.mp hbelow)).1
  length_le := by
    rw [← List.length_reverse]
    exact hline.length_le

namespace Tree

variable {compare : Comparator ρ σ}

/-- The checks of one node, whose children are left to `inner`. -/
def validateNode (s : Store ρ) (compare : Comparator ρ σ) (inner : Option RecordId → Check σ Nat)
    (id : RecordId) (parent : Option RecordId) : Check σ Nat := do
  let n ← Check.query (Query.read (s.node id))
  Check.refuse (n.state ≠ .linked) (.notLinked id n.state)
  Check.refuse (n.parent ≠ parent) (.wrongParent id n.parent parent)
  checkRed s n.color parent id
  let left ← inner n.left
  let right ← inner n.right
  Check.refuse (left ≠ right) (.unevenBlacks left right id)
  validateSide s compare .gt .leftOutOfOrder n.left id
  validateSide s compare .lt .rightOutOfOrder n.right id
  pure (if n.color = .red then left else left + 1)

/-- The recursion of a validation leaves the children to itself. -/
theorem validateFrom_eq_node (s : Store ρ) (compare : Comparator ρ σ) (depth : Nat) (id : RecordId)
    (parent : Option RecordId) :
    validateFrom s compare (depth + 1) (some id) parent =
      validateNode s compare (fun child => validateFrom s compare depth child (some id)) id
        parent :=
  validateFrom_some s compare depth id parent

/-- The recursion of a validation, with a log of its calls. -/
def validateNested (s : Store ρ) (compare : Comparator ρ σ) :
    Nat → List RecordId → Option RecordId → Check (List Visit × σ) Nat
  | 0, pending, position => do
    Check.note ⟨pending, position⟩
    match position with
    | none => pure 0
    | some _ => Check.query (throw .endless)
  | depth + 1, pending, position => do
    Check.note ⟨pending, position⟩
    match position with
    | none => pure 0
    | some id =>
      validateNode s compare.beside (validateNested s compare depth (id :: pending)) id
        pending.head?

omit [Linked ρ] in
/-- Checking the order of a child and its parent makes no calls. -/
theorem logs_validateSide (compare : Comparator ρ σ) (wrong : Ordering)
    (defect : RecordId → RecordId → Defect) (child : Option RecordId) (parent : RecordId)
    (P : ν → Prop) (x : σ) :
    Check.Logs (validateSide s compare.beside wrong defect child parent)
      (validateSide s compare wrong defect child parent) P x := by
  cases child with
  | none => exact Check.logs_pure () P x
  | some j =>
    refine (Check.logs_read _ P x).bind fun below x₁ _ => ?_
    refine (Check.logs_read _ P x₁).bind fun above x₂ _ => ?_
    refine (Check.logs_compare compare below above P x₂).bind fun answer x₃ _ => ?_
    exact Check.logs_refuse _ _ P x₃

/-- Checking the colours of a node and its parent makes no calls. -/
theorem logs_checkRed (color : Color) (parent : Option RecordId) (id : RecordId) (P : ν → Prop)
    (x : σ) : Check.Logs (checkRed s color parent id) (checkRed s color parent id) P x := by
  cases color with
  | black => exact Check.logs_pure () P x
  | red =>
    cases parent with
    | none => exact Check.logs_pure () P x
    | some above => exact (Check.logs_read _ P x).bind fun p x₁ _ => Check.logs_refuse _ _ P x₁

/-- The children are checked only after the parent link has passed. -/
theorem logs_validateNode {inner' : Option RecordId → Check (List ν × σ) Nat}
    {inner : Option RecordId → Check σ Nat} {id : RecordId} {parent : Option RecordId}
    {P : ν → Prop}
    (hinner : ∀ n child x, s.node id = .ok n → n.parent = parent →
      Check.Logs (inner' child) (inner child) P x) (x : σ) :
    Check.Logs (validateNode s compare.beside inner' id parent)
      (validateNode s compare inner id parent) P x := by
  refine (Check.logs_read _ P x).bind fun n x₁ hread => ?_
  have hn : s.node id = .ok n := by
    obtain ⟨m, hm, hsame⟩ := Check.passes_read.mp
      (⟨n, x₁, hread, rfl⟩ : (Check.query (Query.read (s.node id))).Passes x fun m _ => m = n)
    rwa [hsame] at hm
  refine (Check.logs_refuse _ _ P x₁).bind fun _ x₂ _ => ?_
  refine (Check.logs_refuse _ _ P x₂).bind fun _ x₃ hpassed => ?_
  -- The children are only looked at when the parent link was right.
  have hparent : n.parent = parent := not_not.mp (Check.not_of_refuse_run hpassed)
  refine (logs_checkRed n.color parent id P x₃).bind fun _ x₄ _ => ?_
  refine (hinner n n.left x₄ hn hparent).bind fun left x₅ _ => ?_
  refine (hinner n n.right x₅ hn hparent).bind fun right x₆ _ => ?_
  refine (Check.logs_refuse _ _ P x₆).bind fun _ x₇ _ => ?_
  refine (logs_validateSide compare _ _ n.left id P x₇).bind fun _ x₈ _ => ?_
  refine (logs_validateSide compare _ _ n.right id P x₈).bind fun _ x₉ _ => ?_
  exact Check.logs_pure _ P x₉

/-- With the log or without, the recursion does the same, and no call is nested in two on one id. -/
theorem logs_validateNested (compare : Comparator ρ σ) (depth : Nat) {pending : List RecordId}
    (hline : s.Lineage pending.head? pending.reverse) (position : Option RecordId) (x : σ) :
    Check.Logs (validateNested s compare depth pending position)
      (validateFrom s compare depth position pending.head?) (Visit.Simple s) x := by
  induction depth generalizing pending position x with
  | zero =>
    refine Check.Logs.after_note (Visit.simple_of_lineage hline position) ?_
    cases position with
    | none => exact Check.logs_pure 0 _ x
    | some id =>
      intro out x' hrun
      cases hrun
  | succ depth ih =>
    refine Check.Logs.after_note (Visit.simple_of_lineage hline position) ?_
    cases position with
    | none => exact Check.logs_pure 0 _ x
    | some id =>
      rw [validateFrom_eq_node]
      refine logs_validateNode (fun n child x hn hparent => ?_) x
      exact ih (hline.cons hn hparent) child x

/-- So it is with the calls of a validation, which start at the root. -/
theorem exists_log_of_run {t : Tree} {depth : Nat} {x x' : σ} {out : Except Defect Nat}
    (hrun : (validateFrom s compare depth t.root none).run x = .ok (out, x')) :
    ∃ log, (validateNested s compare depth [] t.root).run ([], x) = .ok (out, (log, x')) ∧
      ∀ v ∈ log, Visit.Simple s v :=
  logs_validateNested compare depth Store.lineage_nil t.root x out x' hrun []

end Tree

end RecordTree
