import RecordTree.Proofs.Interval.Tree
import RecordTree.Proofs.Shape.Height

/-!
# `RecordTree.Proofs.Interval.Validate`: an interval tree in order passes its own checks

`IntervalTree.validate` checks the tree by start, and then recomputes every reach from the stops
below it. What it recomputes is `Shape.farthest`. So the reaches of a shape pass exactly if it is
`Exact` (`IntervalTree.validateReachFrom_cases`), whatever is stored in them.
-/

set_option autoImplicit false

namespace RecordTree

variable {ρ κ : Type} [Spanned ρ κ] [LinearOrder κ] [LawfulSpanned ρ] {s : Store ρ}

omit [LawfulSpanned ρ] in
/-- The stops leave only one choice for the reaches. -/
theorem Exact.reachAt_unique {p q : Payloads ρ} {t : Shape} (h : Exact p t) (h' : Exact q t)
    (hstop : q.stopAt = p.stopAt) {id : RecordId} (hid : id ∈ t.inorder) :
    q.reachAt id = p.reachAt id := by
  obtain ⟨C, c, l, r, rfl⟩ := Shape.exists_context hid
  rw [(exact_fill.mp h).1.reachAt_eq rfl, (exact_fill.mp h').1.reachAt_eq rfl, hstop]

namespace IntervalTree

omit [LawfulSpanned ρ] [Spanned ρ κ] in
/-- The larger of a stop and those of a subtree, of which an empty one has none. -/
theorem coe_largerStop (stop : κ) (below : Option κ) :
    WithBot.some (largerStop stop below) = WithBot.some stop ⊔ below.elim ⊥ WithBot.some := by
  cases below with
  | none => exact (sup_bot_eq _).symm
  | some y =>
    rw [largerStop, larger_eq_max, WithBot.coe_max]
    rfl

omit [LawfulSpanned ρ] in
/-- How far a subtree reaches is checked against what is below its root. -/
theorem validateReachFrom_some (s : Store ρ) (depth : Nat) {id : RecordId}
    {e : Entry κ} (he : s.entry id = .ok e) :
    validateReachFrom s (depth + 1) (some id) = (do
      let left ← validateReachFrom s depth e.node.left
      let right ← validateReachFrom s depth e.node.right
      let stop := largerStop (largerStop e.stop left) right
      if e.reach = stop then pure (some stop) else throw (.wrongReach id e.reach stop)) := by
  have hlift : ExceptT.lift (s.entry id) = (pure e : Check κ (Entry κ)) := by
    rw [he]
    rfl
  simp only [validateReachFrom, hlift, pure_bind]

/-- In an exact subtree every reach passes, and what is answered is the largest stop. In any other
one a wrong reach is found. -/
theorem validateReachFrom_cases {t : Shape} {up : Option RecordId} {depth : Nat}
    (hspells : Spells s up t) (hdepth : t.height ≤ depth) :
    (Exact s.payload t ∧ ∃ stop, validateReachFrom s depth t.root? = pure stop ∧
        stop.elim ⊥ WithBot.some = t.farthest (Payloads.stopAt s.payload)) ∨
      ¬ Exact s.payload t ∧ ∃ defect, validateReachFrom s depth t.root? = throw defect := by
  induction t generalizing up depth with
  | leaf => exact .inl ⟨exact_leaf, none, by cases depth <;> rfl, rfl⟩
  | node c l id r ihl ihr =>
    simp only [Shape.height] at hdepth
    obtain ⟨depth, rfl⟩ : ∃ k, depth = k + 1 := Nat.exists_eq_add_one.mpr (by omega)
    obtain ⟨hn, hsl, hsr⟩ := spells_node.mp hspells
    obtain ⟨e, he, hnode⟩ := Store.exists_entry hn
    obtain ⟨-, hstop, hstored⟩ := Store.payload_of_entry he
    have hl : e.node.left = l.root? := by simp [hnode, Node.placed, Node.setChild]
    have hr : e.node.right = r.root? := by simp [hnode, Node.placed, Node.setChild, Side.flip]
    rw [Shape.root?_node, validateReachFrom_some s depth he, hl, hr]
    -- The checks go to the left first, so a defect there hides all others.
    rcases ihl hsl (show l.height ≤ depth by omega) with
      ⟨hexactl, left, hleft, hfarl⟩ | ⟨hnot, defect, hleft⟩
    · rcases ihr hsr (show r.height ≤ depth by omega) with
        ⟨hexactr, right, hright, hfarr⟩ | ⟨hnot, defect, hright⟩
      · -- Both sides are exact, and it is the reach of the top that decides.
        have hmax : WithBot.some (largerStop (largerStop e.stop left) right) =
            (Shape.node c l id r).farthest (Payloads.stopAt s.payload) := by
          rw [coe_largerStop, coe_largerStop, hfarl, hfarr, Shape.farthest, hstop]
        have hreach : e.reach = largerStop (largerStop e.stop left) right ↔
            Payloads.reachAt s.payload id =
              (Shape.node c l id r).farthest (Payloads.stopAt s.payload) := by
          rw [hstored, ← hmax, WithBot.coe_inj]
        simp only [hleft, hright, pure_bind]
        split_ifs with hif
        · exact .inl ⟨⟨hreach.mp hif, hexactl, hexactr⟩, _, rfl, hmax⟩
        · exact .inr ⟨fun hexact => hif (hreach.mpr hexact.1), _, rfl⟩
      · refine .inr ⟨fun hexact => hnot hexact.2.2, defect, ?_⟩
        rw [hleft, hright]
        rfl
    · refine .inr ⟨fun hexact => hnot hexact.2.1, defect, ?_⟩
      rw [hleft]
      rfl

omit [LawfulSpanned ρ] in
/-- More depth than there are levels changes nothing. -/
theorem validateReachFrom_eq_of_height {t : Shape} {up : Option RecordId} {depth depth' : Nat}
    (hspells : Spells s up t) (hdepth : t.height ≤ depth) (hdepth' : t.height ≤ depth') :
    validateReachFrom s depth t.root? = validateReachFrom s depth' t.root? := by
  induction t generalizing up depth depth' with
  | leaf => cases depth <;> cases depth' <;> rfl
  | node c l id r ihl ihr =>
    simp only [Shape.height] at hdepth hdepth'
    obtain ⟨depth, rfl⟩ : ∃ k, depth = k + 1 := Nat.exists_eq_add_one.mpr (by omega)
    obtain ⟨depth', rfl⟩ : ∃ k, depth' = k + 1 := Nat.exists_eq_add_one.mpr (by omega)
    obtain ⟨hn, hsl, hsr⟩ := spells_node.mp hspells
    obtain ⟨e, he, hnode⟩ := Store.exists_entry hn
    have hl : e.node.left = l.root? := by simp [hnode, Node.placed, Node.setChild]
    have hr : e.node.right = r.root? := by simp [hnode, Node.placed, Node.setChild, Side.flip]
    rw [Shape.root?_node, validateReachFrom_some s depth he, validateReachFrom_some s depth' he, hl,
      hr, ihl hsl (show l.height ≤ depth by omega) (show l.height ≤ depth' by omega),
      ihr hsr (show r.height ≤ depth by omega) (show r.height ≤ depth' by omega)]

/-! ### Whole validations -/

omit [LawfulSpanned ρ] in
/-- What is found wrong with the cached tree is found wrong with the interval tree. -/
theorem validate_eq_of_defect {t : IntervalTree} {defect : Defect} {x : Unit}
    (h : (t.cached.validate s (.of compareStart)).run () = .ok (.error defect, x)) :
    (t.validate s).run = .ok (.error (.tree defect)) := by
  have hchecked : (t.cached.validate s (.of compareStart)).run.run' () = .ok (.error defect) := by
    rw [StateT.run', h]
    rfl
  simp only [validate, hchecked]
  rfl

omit [LawfulSpanned ρ] in
/-- When the cached tree passes, the reaches decide. -/
theorem validate_eq_of_height {t : IntervalTree} {height : Nat} {x : Unit}
    (h : (t.cached.validate s (.of compareStart)).run () = .ok (.ok height, x)) :
    t.validate s = (do
      let _ ← validateReachFrom s s.walkLimit t.cached.tree.root
      pure height) := by
  have hchecked : (t.cached.validate s (.of compareStart)).run.run' () = .ok (.ok height) := by
    rw [StateT.run', h]
    rfl
  simp only [validate, hchecked]
  rfl

omit [LawfulSpanned ρ] in
/-- When all is well but maybe the reaches, it is they that decide. -/
theorem validate_eq_of_cached {t : IntervalTree} {shape : Shape} {height : Nat}
    (h : t.cached.Keeps s shape) (hheight : shape.Balanced height)
    (hsorted : s.Sorted compareStart shape.inorder) :
    t.validate s = (do
      let _ ← validateReachFrom s s.walkLimit shape.root?
      pure height) := by
  obtain ⟨answer, x, hrun, rfl⟩ :=
    h.passes_validate hheight (Comparator.answers_of _) hsorted ()
  rw [validate_eq_of_height hrun, h.keeps.root_eq]

/-- A validation answers with the black height of the tree. -/
theorem Keeps.exists_validate_eq {t : IntervalTree} {shape : Shape} (h : t.Keeps s shape) :
    ∃ height, shape.Balanced height ∧ (t.validate s).run = .ok (.ok height) := by
  obtain ⟨height, -, hheight⟩ := h.cached.keeps.redBlack
  have hdepth := shape.height_le_size.trans (Store.lt_walkLimit h.cached.keeps.size_le).le
  rcases validateReachFrom_cases h.cached.keeps.spells hdepth with
    ⟨-, stop, hreach, -⟩ | ⟨hnot, -⟩
  · refine ⟨height, hheight, ?_⟩
    rw [validate_eq_of_cached h.cached hheight h.sorted, hreach]
    rfl
  · exact absurd h.exact hnot

/-- A tree whose reaches are not exact does not pass. -/
theorem exists_defect_of_not_exact {t : IntervalTree} {shape : Shape} (h : t.cached.Keeps s shape)
    (hsorted : s.Sorted compareStart shape.inorder) (hnot : ¬ Exact s.payload shape) :
    ∃ defect, (t.validate s).run = .ok (.error defect) := by
  obtain ⟨height, -, hheight⟩ := h.keeps.redBlack
  have hdepth := shape.height_le_size.trans (Store.lt_walkLimit h.keeps.size_le).le
  rcases validateReachFrom_cases h.keeps.spells hdepth with ⟨hexact, -⟩ | ⟨-, defect, hreach⟩
  · exact absurd hexact hnot
  · refine ⟨defect, ?_⟩
    rw [validate_eq_of_cached h hheight hsorted, hreach]
    rfl

end IntervalTree

end RecordTree
