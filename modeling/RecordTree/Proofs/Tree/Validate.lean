import RecordTree.Proofs.Sorted
import RecordTree.Tree.Validate

/-!
# `RecordTree.Proofs.Tree.Validate`: a tree in order passes its own checks

`Tree.validate` reads a tree back from its links. `Check.Passes` says of a check that it finds no
defect and what it answers, and has one lemma for each thing that checks are made of.
`Tree.Keeps.passes_validate` then is an induction over the shape: what the recursion looks up at a
node is what `Spells`, `Shape.Balanced` and `Store.Sorted` say of it.
-/

set_option autoImplicit false

namespace RecordTree

open Std

variable {ρ σ α β : Type}

/-- The check finds no defect. What it answers, and the context it leaves, are as `Q` says. -/
def Check.Passes (c : Check σ α) (x : σ) (Q : α → σ → Prop) : Prop :=
  ∃ a x', c.run x = .ok (.ok a, x') ∧ Q a x'

namespace Check

variable {c : Check σ α} {x : σ} {Q : α → σ → Prop}

/-- What a check makes sure of may be weakened. -/
theorem Passes.mono {R : α → σ → Prop} (h : c.Passes x Q) (hQR : ∀ a x', Q a x' → R a x') :
    c.Passes x R := by
  obtain ⟨a, x', hrun, hQ⟩ := h
  exact ⟨a, x', hrun, hQR a x' hQ⟩

/-- A check that passes at once makes sure of what already holds. -/
@[simp] theorem passes_pure {a : α} : (pure a : Check σ α).Passes x Q ↔ Q a x := by
  constructor
  · rintro ⟨b, x', hrun, hQ⟩
    cases hrun
    exact hQ
  · exact fun hQ => ⟨a, x, rfl, hQ⟩

/-- Two checks in sequence run one after the other. The first defect ends both. -/
theorem run_bind (c : Check σ α) (f : α → Check σ β) (x : σ) :
    (c >>= f).run x = (c.run x >>= fun (out, x') =>
      match out with
      | .ok a => (f a).run x'
      | .error e => .ok (.error e, x')) := by
  rw [ExceptT.run_bind]
  show StateT.bind _ _ x = _
  unfold StateT.bind
  congr 1
  funext out
  obtain ⟨out, x'⟩ := out
  cases out <;> rfl

/-- A sequence of checks makes sure of something if the first one leads to where the second one
does. -/
@[simp] theorem passes_bind {f : α → Check σ β} {Q : β → σ → Prop} :
    (c >>= f).Passes x Q ↔ c.Passes x fun a x' => (f a).Passes x' Q := by
  constructor
  · rintro ⟨b, x₂, hrun, hQ⟩
    rw [run_bind] at hrun
    obtain ⟨⟨out, x₁⟩, hc, hf⟩ := except_bind_eq_ok.mp hrun
    cases out with
    | error e => cases hf
    | ok a => exact ⟨a, x₁, hc, b, x₂, hf, hQ⟩
  · rintro ⟨a, x₁, hc, b, x₂, hf, hQ⟩
    refine ⟨b, x₂, ?_, hQ⟩
    rw [run_bind, hc]
    exact hf

/-- Reading passes if there is something to read. -/
@[simp] theorem passes_read {reading : Except Fault α} :
    (Check.query (Query.read reading)).Passes x Q ↔ ∃ a, reading = .ok a ∧ Q a x := by
  cases reading with
  | error e =>
    refine iff_of_false ?_ (by simp)
    rintro ⟨a, x', hrun, -⟩
    cases hrun
  | ok a =>
    constructor
    · rintro ⟨b, x', hrun, hQ⟩
      cases hrun
      exact ⟨a, rfl, hQ⟩
    · rintro ⟨b, hb, hQ⟩
      cases hb
      exact ⟨a, x, rfl, hQ⟩

/-- A question passes, with its answer. -/
@[simp] theorem passes_ask {question : σ → α × σ} :
    (Check.query (Query.ask question)).Passes x Q ↔ Q (question x).1 (question x).2 := by
  constructor
  · rintro ⟨a, x', hrun, hQ⟩
    cases hrun
    exact hQ
  · exact fun hQ => ⟨_, _, rfl, hQ⟩

/-- A refusal passes if what it refuses is not so. -/
@[simp] theorem passes_refuse {bad : Prop} [Decidable bad] {defect : Defect} {Q : Unit → σ → Prop} :
    (Check.refuse bad defect).Passes x Q ↔ ¬ bad ∧ Q () x := by
  unfold refuse
  by_cases h : bad
  · rw [if_pos h]
    refine iff_of_false ?_ (by simp [h])
    rintro ⟨a, x', hrun, -⟩
    cases hrun
  · rw [if_neg h, passes_pure]
    simp [h]

end Check

/-- When a tree is balanced, by its root. -/
theorem Shape.balanced_node {height : Nat} {c : Color} {l r : Shape} {id : RecordId} :
    (Shape.node c l id r).Balanced height ↔ ∃ h, l.Balanced h ∧ r.Balanced h ∧
      (c = .red → l.color = .black ∧ r.color = .black) ∧
      height = if c = .red then h else h + 1 := by
  constructor
  · rintro (_ | ⟨hl, hr, hcl, hcr⟩ | ⟨hl, hr⟩)
    · exact ⟨_, hl, hr, fun _ => ⟨hcl, hcr⟩, rfl⟩
    · exact ⟨_, hl, hr, by simp, rfl⟩
  · rintro ⟨h, hl, hr, hreds, rfl⟩
    cases c with
    | red => exact .red hl hr (hreds rfl).1 (hreds rfl).2
    | black => exact .black hl hr

variable [Linked ρ] {s : Store ρ} {order : ρ → ρ → Ordering} {compare : Comparator ρ σ}

namespace Tree

/-- The check that a red node does not hang under a red one. -/
def checkRed (s : Store ρ) (color : Color) (parent : Option RecordId) (id : RecordId) :
    Check σ Unit :=
  match color, parent with
  | .red, some above => do
    let p ← Check.query (Query.read (s.node above))
    Check.refuse (p.color = .red) (.redUnderRed parent id)
  | _, _ => pure ()

/-- The checks of one node. -/
theorem validateFrom_some (s : Store ρ) (compare : Comparator ρ σ) (depth : Nat) (id : RecordId)
    (parent : Option RecordId) :
    validateFrom s compare (depth + 1) (some id) parent = (do
      let n ← Check.query (Query.read (s.node id))
      Check.refuse (n.state ≠ .linked) (.notLinked id n.state)
      Check.refuse (n.parent ≠ parent) (.wrongParent id n.parent parent)
      checkRed s n.color parent id
      let left ← validateFrom s compare depth n.left (some id)
      let right ← validateFrom s compare depth n.right (some id)
      Check.refuse (left ≠ right) (.unevenBlacks left right id)
      validateSide s compare .gt .leftOutOfOrder n.left id
      validateSide s compare .lt .rightOutOfOrder n.right id
      pure (if n.color = .red then left else left + 1)) := by
  rw [validateFrom]
  congr 1
  funext n
  congr 1
  funext _
  congr 1
  funext _
  cases n.color <;> cases parent <;> simp [checkRed]

/-- A red node passes under one that is not red. -/
theorem passes_checkRed {color : Color} {parent : Option RecordId} {id : RecordId} {x : σ}
    {Q : Unit → σ → Prop} :
    (checkRed s color parent id).Passes x Q ↔
      (color = .red → ∀ above, parent = some above →
        ∃ p, s.node above = .ok p ∧ p.color ≠ .red) ∧ Q () x := by
  cases color with
  | black => simp [checkRed]
  | red => cases parent <;> simp [checkRed, ← and_assoc]

omit [Linked ρ] in
/-- A child that does not order as `wrong` passes. -/
theorem passes_validateSide (hanswers : compare.Answers order) {wrong : Ordering}
    (defect : RecordId → RecordId → Defect) {child : Option RecordId} {parent : RecordId}
    (h : ∀ j, child = some j →
      ∃ a b, s.fetch j = .ok a ∧ s.fetch parent = .ok b ∧ order a b ≠ wrong) (x : σ) :
    (validateSide s compare wrong defect child parent).Passes x fun _ _ => True := by
  cases child with
  | none => exact Check.passes_pure.mpr trivial
  | some j =>
    obtain ⟨a, b, ha, hb, hne⟩ := h j rfl
    simp only [validateSide, Check.passes_bind, Check.passes_read, Check.passes_ask,
      Check.passes_refuse, ha, hb]
    exact ⟨a, rfl, b, rfl, hanswers a b x ▸ hne, trivial⟩

end Tree

/-- A red-black tree whose nodes are in order passes, with its black height as the answer. -/
theorem Spells.passes_validateFrom [OrientedCmp order] (hanswers : compare.Answers order)
    {t : Shape} {depth height : Nat} {parent : Option RecordId} (hspells : Spells s parent t)
    (hbal : t.Balanced height) (hsorted : s.Sorted order t.inorder)
    (habove : t.color = .red → ∀ above, parent = some above →
      ∃ p, s.node above = .ok p ∧ p.color ≠ .red)
    (hdepth : t.size ≤ depth) (x : σ) :
    (Tree.validateFrom s compare depth t.root? parent).Passes x fun h _ => h = height := by
  induction t generalizing depth height parent x with
  | leaf =>
    cases hbal
    cases depth <;> exact Check.passes_pure.mpr rfl
  | node c l id r ihl ihr =>
    obtain ⟨depth, rfl⟩ : ∃ k, depth = k + 1 := Nat.exists_eq_add_one.mpr (by
      simp only [Shape.size] at hdepth
      omega)
    simp only [Shape.size] at hdepth
    obtain ⟨hid, hl, hr⟩ := spells_node.mp hspells
    obtain ⟨height', hball, hbalr, hblack, rfl⟩ := Shape.balanced_node.mp hbal
    obtain ⟨hsl, hsr, hcross⟩ := List.pairwise_append.mp hsorted
    obtain ⟨hfrom, hsr⟩ := List.pairwise_cons.mp hsr
    have hred : c ≠ .red → ∀ above, some id = some above →
        ∃ p, s.node above = .ok p ∧ p.color ≠ .red := by
      rintro hc above ⟨⟩
      exact ⟨_, hid, by rwa [Node.color_placed]⟩
    simp only [Shape.root?_node, Tree.validateFrom_some, Check.passes_bind, Check.passes_read,
      Check.passes_refuse, Tree.passes_checkRed, Check.passes_pure]
    refine ⟨_, hid, by simp, by simp, by rwa [Node.color_placed], ?_⟩
    -- A red child means that this node is not red.
    refine (ihl hl hball hsl (fun hcl => hred ?_) (by omega) x).mono ?_
    · rintro rfl
      rw [(hblack rfl).1] at hcl
      cases hcl
    rintro _ x₁ rfl
    refine (ihr hr hbalr hsr (fun hcr => hred ?_) (by omega) x₁).mono ?_
    · rintro rfl
      rw [(hblack rfl).2] at hcr
      cases hcr
    rintro _ x₂ rfl
    -- Both children stand where their order puts them.
    refine ⟨by simp, (Tree.passes_validateSide hanswers _ ?_ x₂).mono fun _ x₃ _ => ?_⟩
    · intro j hj
      obtain ⟨a, b, ha, hb, hle⟩ := hcross j (Shape.mem_of_root? hj) id List.mem_cons_self
      exact ⟨a, b, ha, hb, Ordering.ne_gt_iff_isLE.mpr hle⟩
    refine (Tree.passes_validateSide hanswers _ ?_ x₃).mono fun _ _ _ => ?_
    · intro j hj
      obtain ⟨a, b, ha, hb, hle⟩ := hfrom j (Shape.mem_of_root? hj)
      refine ⟨b, a, hb, ha, ?_⟩
      rwa [Ne, ← OrientedCmp.gt_iff_lt, Ordering.ne_gt_iff_isLE]
    · rw [Node.color_placed]

/-- A validation of a tree that keeps all rules answers with its black height. -/
theorem Tree.Keeps.passes_validate [OrientedCmp order] {t : Tree} {shape : Shape} {height : Nat}
    (h : t.Keeps s shape) (hheight : shape.Balanced height) (hanswers : compare.Answers order)
    (hsorted : s.Sorted order shape.inorder) (x : σ) :
    (t.validate s compare).Passes x fun answer _ => answer = height := by
  have hfrom := h.spells.passes_validateFrom hanswers hheight hsorted
    (fun _ above hnone => absurd hnone (Option.some_ne_none above).symm)
    (Store.lt_walkLimit h.size_le).le
  obtain ⟨_, hblack, -⟩ := h.redBlack
  unfold validate
  rw [h.root_eq]
  cases shape with
  | leaf => simpa using hfrom x
  | node c l id r =>
    have hid := (spells_node.mp h.spells).1
    have hc : c = .black := hblack
    simp only [Shape.root?_node, Check.passes_bind, Check.passes_read, Check.passes_refuse]
    exact ⟨_, hid, by simp [hc], hfrom x⟩

end RecordTree
