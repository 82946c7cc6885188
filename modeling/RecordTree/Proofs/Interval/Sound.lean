import RecordTree.Proofs.Interval.Twin
import RecordTree.Proofs.Interval.Validate
import RecordTree.Proofs.Tree.Corrupt

/-!
# `RecordTree.Proofs.Interval.Sound`: what an interval tree that passes its checks is like

A validation of an interval tree is made of three, each inside the next: of the links, of the cache
and of the reaches. Each of them compares a record with its neighbours. `IntervalTree.Sound` is what
this comes to for whole paths and subtrees, of records of which nothing else is known and in which
one may be the child of another on both sides.

* `Represents.exists_below`: below every record that is reached there is a shape, balanced if the
  whole one is. So what the checks found out about a shape is true of the records in it.
* `Store.along_of_extremeFrom`: where the way down a side ends.
* `IntervalTree.passes_of_validate`: the three validations, taken apart.
* `IntervalTree.sound_of_validate`: what a validation that finds no defect has made sure of.
-/

set_option autoImplicit false

namespace RecordTree

section Links

variable {ρ : Type} [Linked ρ] {s : Store ρ}

/-- Below each record that is reached from the top of a shape there is a part of it. -/
theorem Represents.exists_below {up position : Option RecordId} {t : Shape} {height : Nat}
    (h : Represents s up position t) (hb : t.Balanced height) {id : RecordId}
    (hid : s.Reaches position id) :
    ∃ n l r k, s.node id = .ok n ∧ n.state = .linked ∧ Represents s (some id) n.left l ∧
      Represents s (some id) n.right r ∧ (Shape.node n.color l id r).Balanced k := by
  induction hid generalizing up t height with
  | here =>
    cases h with
    | @node _ id n l r hn _ hstate hl hr => exact ⟨n, l, r, height, hn, hstate, hl, hr, hb⟩
  | child side hn _ ih =>
    cases h with
    | node hm _ _ hl hr =>
      rw [hn] at hm
      cases hm
      obtain ⟨k, hbl, hbr, -, -⟩ := Shape.balanced_node.mp hb
      cases side with
      | left => exact ih hl hbl
      | right => exact ih hr hbr

/-- The child of a record in a balanced shape hangs under it, and is black under a red one. -/
theorem Represents.exists_child {up position : Option RecordId} {t : Shape} {height : Nat}
    (h : Represents s up position t) (hb : t.Balanced height) {id j : RecordId} {n : Node}
    {side : Side} (hid : s.Reaches position id) (hn : s.node id = .ok n)
    (hj : n.child side = some j) :
    ∃ m, s.node j = .ok m ∧ m.parent = some id ∧ (n.color = .red → m.color = .black) := by
  obtain ⟨n', l, r, k, hn', -, hl, hr, hbelow⟩ := h.exists_below hb hid
  rw [hn] at hn'
  cases hn'
  obtain ⟨-, -, -, hblack, -⟩ := Shape.balanced_node.mp hbelow
  cases side with
  | left =>
    have hleft : n.left = some j := hj
    rw [hleft] at hl
    cases hl with
    | @node _ _ m _ _ hm hparent => exact ⟨m, hm, hparent, fun hred => (hblack hred).1⟩
  | right =>
    have hright : n.right = some j := hj
    rw [hright] at hr
    cases hr with
    | @node _ _ m _ _ hm hparent => exact ⟨m, hm, hparent, fun hred => (hblack hred).2⟩

/-- The way down a side goes along its links, and ends where there is none. -/
theorem Store.along_of_extremeFrom {side : Side} {steps : Nat} {id j : RecordId}
    (h : s.extremeFrom side steps id = .ok j) :
    s.Along side id j ∧ ∃ n, s.node j = .ok n ∧ n.child side = none := by
  induction steps generalizing id with
  | zero => cases h
  | succ steps ih =>
    obtain ⟨n, hn, hrest⟩ := except_bind_eq_ok.mp h
    cases hchild : n.child side with
    | none =>
      rw [hchild] at hrest
      cases hrest
      exact ⟨.here _, n, hn, hchild⟩
    | some child =>
      rw [hchild] at hrest
      obtain ⟨halong, hend⟩ := ih hrest
      exact ⟨.down hn hchild halong, hend⟩

end Links

namespace IntervalTree

variable {ρ κ : Type} [Spanned ρ κ] [LinearOrder κ] {s : Store ρ} {t : IntervalTree} {height : Nat}

/-- What a validation that answers `height` makes sure of. -/
structure Sound (t : IntervalTree) (s : Store ρ) (height : Nat) : Prop where
  /-- The root is black and has no parent. -/
  root : ∀ root, t.plain.root = some root →
    ∃ n, s.node root = .ok n ∧ n.parent = none ∧ n.color = .black
  linked : ∀ id, s.Reaches t.plain.root id → ∃ n, s.node id = .ok n ∧ n.state = .linked
  /-- A child hangs under the node that it was reached from, and is not red under a red one. -/
  child : ∀ id n side j, s.Reaches t.plain.root id → s.node id = .ok n → n.child side = some j →
    ∃ m, s.node j = .ok m ∧ m.parent = some id ∧ (n.color = .red → m.color = .black)
  path_iff : ∀ blacks, s.Path t.plain.root blacks ↔ blacks = height
  /-- The cached node is where left links end, if there is a root. -/
  leftmost : ∀ root, t.plain.root = some root → ∃ j n, t.cached.leftmost = some j ∧
    s.Along .left root j ∧ s.node j = .ok n ∧ n.left = none
  leftmost_empty : t.plain.root = none → t.cached.leftmost = none
  reachExact : ∀ id, s.Reaches t.plain.root id → s.ReachExact id

/-- A validation that finds no defect has passed the links, the cache and the reaches. -/
theorem passes_of_validate (h : (t.validate s).run = .ok (.ok height)) :
    (t.plain.validate s (.of compareStart)).run () = .ok (.ok height, ()) ∧
    t.plain.first s = .ok t.cached.leftmost ∧
    ∃ stop, validateReachFrom s s.walkLimit t.plain.root = pure stop := by
  have hcached : (t.cached.validate s (.of compareStart)).Passes () fun answer _ =>
      answer = height ∧ ∃ stop, validateReachFrom s s.walkLimit t.plain.root = pure stop := by
    -- The checks of the cached tree come first, so they have passed.
    cases hrun : (t.cached.validate s (.of compareStart)).run () with
    | error fault =>
      have hfault : (t.cached.validate s (.of compareStart)).run.run' () = .error fault := by
        rw [StateT.run', hrun]
        rfl
      simp only [validate, hfault] at h
      cases h
    | ok out =>
      obtain ⟨checked, x⟩ := out
      cases checked with
      | error defect =>
        rw [validate_eq_of_defect hrun] at h
        cases h
      | ok answer =>
        rw [validate_eq_of_height hrun, ExceptT.run_bind] at h
        obtain ⟨out, hreach, hout⟩ := except_bind_eq_ok.mp h
        cases out with
        | error defect => cases hout
        | ok stop =>
          cases hout
          exact ⟨height, x, hrun, rfl, stop, hreach⟩
  simp only [CachedTree.validate, Check.passes_bind, Check.passes_read, Check.passes_refuse,
    Check.passes_pure, not_not] at hcached
  obtain ⟨answer, x, htree, first, hfirst, rfl, rfl, hreach⟩ := hcached
  exact ⟨htree, hfirst, hreach⟩

/-- Whatever the records hold, what an answer of a validation says is so. -/
theorem sound_of_validate [LawfulSpanned ρ] (h : (t.validate s).run = .ok (.ok height)) :
    t.Sound s height := by
  obtain ⟨htree, hfirst, stop, hreach⟩ := passes_of_validate h
  obtain ⟨shape, hchecked, hblack⟩ :=
    Tree.exists_checked_of_validate (Comparator.answers_of compareStart) htree
  have hrep := hchecked.represents
  obtain ⟨hroot, hspells⟩ := represents_iff.mp hrep
  refine ⟨fun root htop => ?_, fun id hid => ?_, fun id n side j hid hn hj => ?_, fun blacks => ?_,
    fun root htop => ?_, fun hempty => ?_, fun id hid => ?_⟩
  · rw [htop] at hrep
    cases hrep with
    | node hn hparent => exact ⟨_, hn, hparent, hblack⟩
  · obtain ⟨n, -, -, -, hn, hstate, -⟩ := hrep.exists_below hchecked.balanced hid
    exact ⟨n, hn, hstate⟩
  · exact hrep.exists_child hchecked.balanced hid hn hj
  · exact hrep.path_iff hchecked.balanced
  · rw [Tree.first, htop] at hfirst
    obtain ⟨j, hextreme, hleftmost⟩ := except_functor_map_eq_ok.mp hfirst
    obtain ⟨halong, n, hn, hend⟩ := Store.along_of_extremeFrom hextreme
    exact ⟨j, n, hleftmost.symm, halong, hn, hend⟩
  · rw [Tree.first, hempty] at hfirst
    exact (Except.ok.inj hfirst).symm
  · -- In a shape that is not exact, a wrong reach would have been found.
    rw [hroot] at hreach
    rcases validateReachFrom_cases hspells hchecked.height_le with
      ⟨hexact, -⟩ | ⟨-, defect, hthrow⟩
    · exact hspells.exact_iff.mp hexact id ((hrep.reaches_iff id).mp hid)
    · rw [hthrow] at hreach
      cases hreach

/-- The records of `shared` pass, although the second one is the child of the first one on both
sides. On either way there is one black node, and the reach of the first one is right. -/
theorem sound_shared :
    ((⟨⟨⟨some 0⟩, some 1⟩⟩ : IntervalTree).validate shared).run = .ok (.ok 1) ∧
    (∀ blacks, shared.Path (some 0) blacks ↔ blacks = 1) ∧ shared.ReachExact 0 := by
  have hrun : ((⟨⟨⟨some 0⟩, some 1⟩⟩ : IntervalTree).validate shared).run = .ok (.ok 1) := rfl
  have hsound := sound_of_validate hrun
  exact ⟨hrun, hsound.path_iff, hsound.reachExact 0 (.here rfl)⟩

end IntervalTree

end RecordTree
