import RecordTree.Proofs.CachedTree
import RecordTree.Proofs.Walk.SharedChild

/-!
# `RecordTree.Proofs.Tree.Halts`: validations come to an end

A validation follows the child links of records of which nothing is known, with no note of where it
has been. What stops it in a cycle is the check of parent links. The records above a position that
is checked have all passed, so their parent links lead from there to the root, which has no parent
(`Store.Lineage`). Such a list has no record twice (`Store.Lineage.nodup`), and so no more records
than the store has.

* `Tree.ends_validateFrom`: the recursion, by induction on how deep it may still go.
* `Tree.ends_validate`, `CachedTree.ends_validate`: whole validations. That the left-most node is
  found afterwards is because the links have passed by then (`Tree.exists_shape_of_validate`).
* `Tree.validateFrom_extends`: more depth than needed changes nothing.
-/

set_option autoImplicit false

namespace RecordTree

variable {ρ σ α β : Type}

/-! ### Checks that come to an end -/

namespace Check

/-- The check comes to an end, with a defect or without. -/
def Ends (c : Check σ α) (x : σ) : Prop := ∃ out, c.run x = .ok out

variable {c : Check σ α} {x : σ}

/-- A check that comes to an end and does not pass finds a defect. -/
theorem Ends.exists_defect (h : c.Ends x) (hnot : ¬ c.Passes x fun _ _ => True) :
    ∃ defect x', c.run x = .ok (.error defect, x') := by
  obtain ⟨⟨out, x'⟩, hrun⟩ := h
  cases out with
  | ok a => exact absurd ⟨a, x', hrun, trivial⟩ hnot
  | error defect => exact ⟨defect, x', hrun⟩

/-- A check that passes at once comes to an end. -/
theorem ends_pure (a : α) (x : σ) : (pure a : Check σ α).Ends x := ⟨_, rfl⟩

/-- A refusal comes to an end, with its defect or without. -/
theorem ends_refuse (bad : Prop) [Decidable bad] (defect : Defect) (x : σ) :
    (refuse bad defect).Ends x := by
  unfold refuse
  by_cases h : bad
  · rw [if_pos h]
    exact ⟨_, rfl⟩
  · rw [if_neg h]
    exact ⟨_, rfl⟩

/-- What was not refused is not bad. -/
theorem not_of_refuse_run {bad : Prop} [Decidable bad] {defect : Defect} {x' : σ}
    (h : (refuse bad defect).run x = .ok (.ok (), x')) : ¬ bad :=
  (passes_refuse.mp (⟨(), x', h, trivial⟩ : (refuse bad defect).Passes x fun _ _ => True)).1

/-- A question comes to an end. -/
theorem ends_ask (question : σ → α × σ) (x : σ) : (query (Query.ask question)).Ends x := ⟨_, rfl⟩

/-- Reading what is there comes to an end. -/
theorem ends_read {reading : Except Fault α} {a : α} (h : reading = .ok a) (x : σ) :
    (query (Query.read reading)).Ends x := by
  rw [h]
  exact ⟨_, rfl⟩

/-- Two checks in sequence come to an end if the first one does, and the second one wherever the
first one passes. -/
theorem Ends.bind {f : α → Check σ β} (h : c.Ends x)
    (hf : ∀ a x', c.run x = .ok (.ok a, x') → (f a).Ends x') : (c >>= f).Ends x := by
  obtain ⟨⟨out, x'⟩, hrun⟩ := h
  unfold Ends
  rw [run_bind, hrun]
  cases out with
  | ok a => exact hf a x' hrun
  | error defect => exact ⟨_, rfl⟩

/-- After a reading, the check goes on with what was read. -/
theorem ends_read_bind {reading : Except Fault α} {a : α} (h : reading = .ok a)
    {f : α → Check σ β} (hf : (f a).Ends x) : (query (Query.read reading) >>= f).Ends x := by
  refine (ends_read h x).bind fun b x' hrun => ?_
  rw [h] at hrun
  cases hrun
  exact hf

/-- Where `c` comes to an end, `c'` comes to the same one. -/
def Extends (c' c : Check σ α) : Prop := ∀ x out, c.run x = .ok out → c'.run x = .ok out

/-- A check ends as it ends. -/
theorem Extends.refl (c : Check σ α) : c.Extends c := fun _ _ hrun => hrun

/-- If each part of a sequence ends where another one does, so does the sequence. -/
theorem Extends.bind {c' : Check σ α} {f f' : α → Check σ β} (h : c'.Extends c)
    (hf : ∀ a, (f' a).Extends (f a)) : (c' >>= f').Extends (c >>= f) := by
  intro x out hrun
  rw [run_bind] at hrun ⊢
  obtain ⟨⟨first, x'⟩, hc, hrest⟩ := except_bind_eq_ok.mp hrun
  refine except_bind_eq_ok.mpr ⟨_, h x _ hc, ?_⟩
  cases first with
  | ok a => exact hf a x' out hrest
  | error defect => exact hrest

end Check

variable [Linked ρ] {s : Store ρ}

/-! ### Lineages -/

namespace Store

variable {position : Option RecordId} {l : List RecordId}

/-- Each record of a lineage has a lineage of its own, which is where that one begins. -/
theorem Lineage.exists_of_mem (h : s.Lineage position l) {id : RecordId} (hid : id ∈ l) :
    ∃ before after, l = before ++ id :: after ∧ s.Lineage (some id) (before ++ [id]) := by
  induction h with
  | top => cases hid
  | @under j n above hn habove ih =>
    rcases List.mem_append.mp hid with hid | hid
    · obtain ⟨before, after, rfl, hline⟩ := ih hid
      exact ⟨before, after ++ [j], by simp, hline⟩
    · obtain rfl := List.mem_singleton.mp hid
      exact ⟨above, [], rfl, .under hn habove⟩

/-- No record comes twice, as it would have two lineages then. -/
theorem Lineage.nodup (h : s.Lineage position l) : l.Nodup := by
  induction h with
  | top => exact List.nodup_nil
  | @under id n above hn habove ih =>
    refine List.nodup_append.mpr ⟨ih, List.nodup_singleton id, ?_⟩
    rintro j hj _ hid rfl
    obtain rfl := List.mem_singleton.mp hid
    obtain ⟨before, after, hsplit, hline⟩ := habove.exists_of_mem hj
    have hsame : before ++ [j] = above ++ [j] := hline.unique (.under hn habove)
    rw [List.append_cancel_right_eq] at hsame
    have hlen := congrArg List.length hsplit
    rw [← hsame, List.length_append, List.length_cons] at hlen
    omega

/-- The ids of a lineage are records of the store. -/
theorem Lineage.lt_size (h : s.Lineage position l) {id : RecordId} (hid : id ∈ l) :
    id < s.size := by
  obtain ⟨before, after, -, hline⟩ := h.exists_of_mem hid
  generalize before ++ [id] = line at hline
  cases hline with
  | under hn => exact lt_of_node hn

/-- A lineage has no more ids than the store has records, since none comes twice. -/
theorem Lineage.length_le (h : s.Lineage position l) : l.length ≤ s.size :=
  length_le_size h.nodup fun _ hid => h.lt_size hid

/-- At the root nothing is pending. -/
theorem lineage_nil : s.Lineage ([] : List RecordId).head? [].reverse := .top

/-- A record whose parent link leads to the innermost of those that are pending joins them. -/
theorem Lineage.cons {pending : List RecordId} (h : s.Lineage pending.head? pending.reverse)
    {id : RecordId} {n : Node} (hn : s.node id = .ok n) (hparent : n.parent = pending.head?) :
    s.Lineage (id :: pending).head? (id :: pending).reverse := by
  rw [List.reverse_cons]
  exact .under hn (hparent ▸ h)

/-! ### Child links that lead to records -/

/-- The position, and all child links below it, lead to records of the store. -/
structure Closed (s : Store ρ) (position : Option RecordId) : Prop where
  lt_size : ∀ id, position = some id → id < s.size
  child_lt : ∀ id n side j, s.Reaches position id → s.node id = .ok n →
    n.child side = some j → j < s.size

/-- If all links below a position lead to records, so do those below its children. -/
theorem Closed.child {id : RecordId} {n : Node} (h : s.Closed (some id)) (hn : s.node id = .ok n)
    (side : Side) : s.Closed (n.child side) where
  lt_size j hj := h.child_lt id n side j (.here hn) hn hj
  child_lt j m side' k hj := h.child_lt j m side' k (.child side hn hj)

end Store

namespace Tree

/-! ### The recursion -/

variable {compare : Comparator ρ σ}

omit [Linked ρ] in
/-- The order of a child and its parent is checked to an end if both are records. -/
theorem ends_validateSide (compare : Comparator ρ σ) (wrong : Ordering)
    (defect : RecordId → RecordId → Defect) {child : Option RecordId} {parent : RecordId}
    (hchild : ∀ j, child = some j → j < s.size) (hparent : parent < s.size) (x : σ) :
    (validateSide s compare wrong defect child parent).Ends x := by
  cases child with
  | none => exact Check.ends_pure () x
  | some j =>
    refine Check.ends_read_bind (Store.fetch_of_lt (hchild j rfl)) ?_
    refine Check.ends_read_bind (Store.fetch_of_lt hparent) ?_
    exact (Check.ends_ask _ x).bind fun answer x' _ => Check.ends_refuse _ _ x'

/-- The colours of a node and its parent are checked to an end if the parent is a record. -/
theorem ends_checkRed (s : Store ρ) (color : Color) {parent : Option RecordId}
    (hparent : ∀ j, parent = some j → j < s.size) (id : RecordId) (x : σ) :
    (checkRed s color parent id).Ends x := by
  cases color with
  | black => exact Check.ends_pure () x
  | red =>
    cases parent with
    | none => exact Check.ends_pure () x
    | some above =>
      exact Check.ends_read_bind (Store.node_of_lt (hparent above rfl)) (Check.ends_refuse _ _ x)

/-- The records above the position have passed, the innermost one first. So the recursion can go as
much deeper as there are other records, and one position more. -/
theorem ends_validateFrom (compare : Comparator ρ σ) {depth : Nat} {pending : List RecordId}
    {position : Option RecordId} (hline : s.Lineage pending.head? pending.reverse)
    (hclosed : s.Closed position) (hdepth : s.size < depth + pending.length) (x : σ) :
    (validateFrom s compare depth position pending.head?).Ends x := by
  induction depth generalizing pending position x with
  | zero =>
    have hle := hline.length_le
    rw [List.length_reverse] at hle
    omega
  | succ depth ih =>
    cases position with
    | none => exact Check.ends_pure 0 x
    | some id =>
      have hid := hclosed.lt_size id rfl
      obtain ⟨n, hn⟩ := Store.exists_node_of_lt hid
      have hparent : ∀ j, pending.head? = some j → j < s.size := fun j hj =>
        hline.lt_size (List.mem_reverse.mpr (List.mem_of_head? hj))
      -- Each check runs on the context that the one before it left, whatever that is.
      rw [validateFrom_some]
      refine Check.ends_read_bind hn ((Check.ends_refuse _ _ x).bind fun _ x₁ _ => ?_)
      refine (Check.ends_refuse _ _ x₁).bind fun _ x₂ hpassed => ?_
      have habove : n.parent = pending.head? := not_not.mp (Check.not_of_refuse_run hpassed)
      have hbelow := hline.cons hn habove
      have hdeeper : s.size < depth + (id :: pending).length := by
        rw [List.length_cons]
        omega
      refine (ends_checkRed s n.color hparent id x₂).bind fun _ x₃ _ => ?_
      refine (ih hbelow (hclosed.child hn .left) hdeeper x₃).bind fun left x₄ _ => ?_
      refine (ih hbelow (hclosed.child hn .right) hdeeper x₄).bind fun right x₅ _ => ?_
      refine (Check.ends_refuse _ _ x₅).bind fun _ x₆ _ => ?_
      refine (ends_validateSide compare _ _ (hclosed.child hn .left).lt_size hid x₆).bind
        fun _ x₇ _ => ?_
      refine (ends_validateSide compare _ _ (hclosed.child hn .right).lt_size hid x₇).bind
        fun _ x₈ _ => ?_
      exact Check.ends_pure _ x₈

/-- With more depth than it needs, the recursion does the same. -/
theorem validateFrom_extends (s : Store ρ) (compare : Comparator ρ σ) {depth depth' : Nat}
    (hle : depth ≤ depth') (position parent : Option RecordId) :
    (validateFrom s compare depth' position parent).Extends
      (validateFrom s compare depth position parent) := by
  induction depth generalizing depth' position parent with
  | zero =>
    cases position with
    | none => cases depth' <;> exact .refl _
    | some id =>
      intro x out hrun
      cases hrun
  | succ depth ih =>
    obtain ⟨depth', rfl⟩ : ∃ k, depth' = k + 1 := Nat.exists_eq_add_one.mpr (by omega)
    have hle' : depth ≤ depth' := by omega
    cases position with
    | none => exact .refl _
    | some id =>
      rw [validateFrom_some, validateFrom_some]
      refine .bind (.refl _) fun n => .bind (.refl _) fun _ => .bind (.refl _) fun _ => ?_
      refine .bind (.refl _) fun _ => .bind (ih hle' _ _) fun left => ?_
      exact .bind (ih hle' _ _) fun right => .refl _

/-! ### Validations -/

/-- A validation comes to an end where all child links lead to records. -/
theorem ends_validate {t : Tree} (h : s.Closed t.root) (compare : Comparator ρ σ) (x : σ) :
    (t.validate s compare).Ends x := by
  have hfrom : ∀ x, (validateFrom s compare s.walkLimit t.root none).Ends x :=
    ends_validateFrom compare Store.lineage_nil h (Nat.lt_succ_self _)
  unfold validate
  cases hroot : t.root with
  | none =>
    rw [hroot] at hfrom
    exact hfrom x
  | some root =>
    rw [hroot] at hfrom
    refine Check.ends_read_bind (Store.node_of_lt (h.lt_size root hroot)) ?_
    exact (Check.ends_refuse _ _ x).bind fun _ x' _ => hfrom x'

/-! ### After the structural checks -/

omit [Linked ρ] in
/-- Children that pass by some comparator pass by the one that takes all records for equal. -/
theorem passes_equal_of_passes_side {wrong : Ordering} (hwrong : wrong ≠ .eq)
    {defect : RecordId → RecordId → Defect} {child : Option RecordId} {parent : RecordId} {x : σ}
    {Q : Unit → σ → Prop} (h : (validateSide s compare wrong defect child parent).Passes x Q) :
    (∃ x', Q () x') ∧
      (validateSide s (.of fun _ _ => .eq : Comparator ρ Unit) wrong defect child parent).Passes ()
        fun _ _ => True := by
  cases child with
  | none => exact ⟨⟨x, Check.passes_pure.mp h⟩, Check.passes_pure.mpr trivial⟩
  | some j =>
    simp only [validateSide, Check.passes_bind, Check.passes_read, Check.passes_ask,
      Check.passes_refuse] at h ⊢
    obtain ⟨a, ha, b, hb, -, hQ⟩ := h
    exact ⟨⟨_, hQ⟩, a, ha, b, hb, hwrong.symm, trivial⟩

/-- The comparator can only make a validation fail. What passes by some comparator passes by the one
that takes all records for equal. -/
theorem passes_equal_of_passes {depth : Nat} {position parent : Option RecordId} {x : σ}
    {Q : Nat → σ → Prop} (h : (validateFrom s compare depth position parent).Passes x Q) :
    ∃ height x', Q height x' ∧
      (validateFrom s (.of fun _ _ => .eq : Comparator ρ Unit) depth position parent).Passes ()
        fun answer _ => answer = height := by
  -- By induction on the depth. A comparator that always answers equal finds less to object to.
  induction depth generalizing position parent x Q with
  | zero =>
    cases position with
    | none => exact ⟨0, x, Check.passes_pure.mp h, Check.passes_pure.mpr rfl⟩
    | some id =>
      obtain ⟨_, _, hrun, -⟩ := h
      cases hrun
  | succ depth ih =>
    cases position with
    | none => exact ⟨0, x, Check.passes_pure.mp h, Check.passes_pure.mpr rfl⟩
    | some id =>
      simp only [validateFrom_some, Check.passes_bind, Check.passes_read, Check.passes_refuse,
        passes_checkRed, Check.passes_pure] at h ⊢
      obtain ⟨n, hn, hstate, hparent, hred, hchildren⟩ := h
      obtain ⟨left, _, hrest, hleft⟩ := ih hchildren
      obtain ⟨right, _, ⟨heven, hsides⟩, hright⟩ := ih hrest
      obtain ⟨⟨_, hside⟩, hleftSide⟩ := passes_equal_of_passes_side (by decide) hsides
      obtain ⟨⟨_, hQ⟩, hrightSide⟩ := passes_equal_of_passes_side (by decide) hside
      refine ⟨_, _, hQ, n, hn, hstate, hparent, hred, hleft.mono ?_⟩
      rintro _ _ rfl
      refine hright.mono ?_
      rintro _ _ rfl
      exact ⟨heven, hleftSide.mono fun _ _ _ => hrightSide.mono fun _ _ _ => rfl⟩

/-- What has passed is a shape, no deeper than the recursion may go, whatever the comparator. -/
theorem exists_shape_of_validate {t : Tree} {height : Nat} {x x' : σ}
    (hrun : (t.validate s compare).run x = .ok (.ok height, x')) :
    ∃ shape, Represents s none t.root shape ∧ shape.height ≤ s.walkLimit := by
  have hpasses : (t.validate s compare).Passes x fun _ _ => True := ⟨height, x', hrun, trivial⟩
  have hfrom : ∃ x, (validateFrom s compare s.walkLimit t.root none).Passes x fun _ _ => True := by
    unfold validate at hpasses
    cases hroot : t.root with
    | none =>
      rw [hroot] at hpasses
      exact ⟨x, hpasses⟩
    | some root =>
      simp only [hroot, Check.passes_bind, Check.passes_read, Check.passes_refuse] at hpasses
      obtain ⟨n, -, -, hfrom⟩ := hpasses
      exact ⟨x, hfrom⟩
  obtain ⟨x, hfrom⟩ := hfrom
  obtain ⟨_, _, -, hequal⟩ := passes_equal_of_passes hfrom
  have : Std.OrientedCmp fun _ _ : ρ => Ordering.eq := ⟨rfl⟩
  obtain ⟨shape, _, _, hchecked, -⟩ := exists_checked_of_passes (Comparator.answers_of _) hequal
  exact ⟨shape, hchecked.represents, hchecked.height_le⟩

end Tree

/-- So a validation of a cached tree comes to an end, whatever node is cached. -/
theorem CachedTree.ends_validate {t : CachedTree} (h : s.Closed t.tree.root)
    (compare : Comparator ρ σ) (x : σ) : (t.validate s compare).Ends x := by
  refine (t.tree.ends_validate h compare x).bind fun height x₁ hrun => ?_
  obtain ⟨shape, hrep, hheight⟩ := Tree.exists_shape_of_validate hrun
  refine Check.ends_read_bind (hrep.extreme_eq hheight) ?_
  exact (Check.ends_refuse _ _ x₁).bind fun _ x₂ _ => Check.ends_pure height x₂

end RecordTree
