import RecordTree.Proofs.Interval.Twin
import RecordTree.Proofs.Interval.Validate
import RecordTree.Proofs.Tree.Corrupt
import RecordTree.Proofs.Tree.Nesting

/-!
# `RecordTree.Proofs.Interval.Halts`: validations of all trees come to an end

After the structural checks, a validation of an interval tree goes down to all nodes once more, and
compares their reaches. It could meet a cycle there, but for the structural checks, which have found
a shape by then. That is finite, even if a record stands in it several times.

`validate_halts` says of all three kinds of trees that their validations come to an end, whatever
the records hold, if only the child links lead to records.
-/

set_option autoImplicit false

namespace RecordTree

namespace IntervalTree

variable {ρ κ : Type} [Spanned ρ κ] [LinearOrder κ] [LawfulSpanned ρ] {s : Store ρ}

/-- The check of the reaches ends after the others have passed, the same way at every depth that
exceeds the number of records. -/
theorem validateReachFrom_ends {t : IntervalTree} {height : Nat} {x : Unit}
    (h : (t.cached.tree.validate s (.of compareStart)).run () = .ok (.ok height, x)) :
    ∃ out, ∀ depth, s.size < depth → (validateReachFrom s depth t.plain.root).run = .ok out := by
  obtain ⟨shape, hrep, hheight⟩ := Tree.exists_shape_of_validate h
  obtain ⟨hroot, hspells⟩ := represents_iff.mp hrep
  have hsame : ∀ depth, s.size < depth →
      validateReachFrom s depth t.plain.root = validateReachFrom s s.walkLimit shape.root? := by
    intro depth hdepth
    rw [show t.plain.root = shape.root? from hroot]
    exact validateReachFrom_eq_of_height hspells (hheight.trans hdepth) hheight
  rcases validateReachFrom_cases hspells hheight with
    ⟨-, stop, hreach, -⟩ | ⟨-, defect, hreach⟩
  · exact ⟨.ok stop, fun depth hdepth => by rw [hsame depth hdepth, hreach]; rfl⟩
  · exact ⟨.error defect, fun depth hdepth => by rw [hsame depth hdepth, hreach]; rfl⟩

/-- A validation of an interval tree comes to an end where all child links lead to records. -/
theorem exists_validate_run {t : IntervalTree} (h : s.Closed t.plain.root) :
    ∃ out, (t.validate s).run = .ok out := by
  obtain ⟨⟨checked, x⟩, hrun⟩ := t.cached.ends_validate h (.of compareStart) ()
  cases checked with
  | error defect => exact ⟨_, validate_eq_of_defect hrun⟩
  | ok height =>
    -- The cached tree passes only if the tree in it does.
    have hpasses : (t.cached.validate s (.of compareStart)).Passes () fun _ _ => True :=
      ⟨height, x, hrun, trivial⟩
    rw [CachedTree.validate, Check.passes_bind] at hpasses
    obtain ⟨_, _, htree, -⟩ := hpasses
    obtain ⟨out, hreach⟩ := validateReachFrom_ends htree
    have hwhole : (validateReachFrom s s.walkLimit t.cached.tree.root).run = .ok out :=
      hreach s.walkLimit (Nat.lt_succ_self _)
    rw [validate_eq_of_height hrun]
    cases out with
    | error defect => exact ⟨.error defect, by rw [ExceptT.run_bind, hwhole]; rfl⟩
    | ok stop => exact ⟨.ok height, by rw [ExceptT.run_bind, hwhole]; rfl⟩

end IntervalTree

/-- Two intervals that are each other's left child. The first one is black and has no parent. -/
def looped : Store (Entry Nat) :=
  #[⟨{ left := some 1, color := .black, state := .linked }, 0, 1, 1⟩,
    ⟨{ parent := some 0, left := some 0, state := .linked }, 0, 1, 1⟩]

/-- All child links below the first record of `looped` lead to its two records. -/
theorem closed_looped : looped.Closed (some 0) := by
  refine ⟨fun id hid => Option.some.inj hid ▸ Nat.zero_lt_two, fun id n side j _ hn hj => ?_⟩
  match id, side with
  | 0, .left | 1, .left =>
    cases hn
    cases hj
    decide
  | 0, .right | 1, .right =>
    cases hn
    cases hj
  | k + 2, side => simp [looped, Store.node, Store.fetch] at hn

/-- Whatever the records hold, a validation of a tree of any kind by any comparator comes to an end,
with a black height or a defect, if the child links from the root on lead to records. The limits on
depth play no part in it. In the recursion of the structural checks no call is nested in two calls
on the same id. When these have passed, the way down to the left-most node ends as well, and so does
the recursion that checks the reaches. -/
theorem validate_halts {ρ ι σ κ : Type} [Linked ρ] [Spanned ι κ] [LawfulSpanned ι]
    [LinearOrder κ] :
    (∀ (s : Store ρ) (t : Tree) (compare : Comparator ρ σ) (x : σ), s.Closed t.root →
      (t.validate s compare).Ends x ∧
      ∃ out x', ∀ depth, s.size < depth →
        (Tree.validateFrom s compare depth t.root none).run x = .ok (out, x') ∧
        ∃ log, (Tree.validateNested s compare depth [] t.root).run ([], x) =
            .ok (out, (log, x')) ∧ ∀ v ∈ log, Visit.Simple s v) ∧
    (∀ (s : Store ρ) (t : CachedTree) (compare : Comparator ρ σ) (x : σ), s.Closed t.tree.root →
      (t.validate s compare).Ends x ∧
      ∀ height x', (t.tree.validate s compare).run x = .ok (.ok height, x') →
        ∃ first, t.tree.first s = .ok first ∧ ∀ root ∈ t.tree.root, ∀ steps, s.size < steps →
          some <$> s.extremeFrom .left steps root = .ok first) ∧
    ∀ (s : Store ι) (t : IntervalTree), s.Closed t.plain.root →
      (∃ out, (t.validate s).run = .ok out) ∧
      ∀ height x, (t.plain.validate s (.of compareStart)).run () = .ok (.ok height, x) →
        ∃ out, ∀ depth, s.size < depth →
          (IntervalTree.validateReachFrom s depth t.plain.root).run = .ok out := by
  refine ⟨?_, ?_, ?_⟩
  · intro s t compare x hclosed
    refine ⟨t.ends_validate hclosed compare x, ?_⟩
    obtain ⟨⟨out, x'⟩, hrun⟩ :=
      Tree.ends_validateFrom compare Store.lineage_nil hclosed (Nat.lt_succ_self s.size) x
    refine ⟨out, x', fun depth hdepth => ?_⟩
    -- It has ended at the depth of the store, and more depth changes nothing.
    have hdeep := Tree.validateFrom_extends s compare hdepth t.root none x _ hrun
    exact ⟨hdeep, Tree.exists_log_of_run hdeep⟩
  · intro s t compare x hclosed
    refine ⟨t.ends_validate hclosed compare x, fun height x' hrun => ?_⟩
    -- The structural checks have passed, so the links spell out a finite shape.
    obtain ⟨shape, hrep, hheight⟩ := Tree.exists_shape_of_validate hrun
    refine ⟨_, hrep.extreme_eq hheight, fun root hroot steps hsteps => ?_⟩
    have htop : Represents s none (some root) shape := Option.mem_def.mp hroot ▸ hrep
    obtain ⟨j, hfirst, hhead⟩ := htop.extremeFrom_eq (hheight.trans hsteps)
    rw [hfirst, hhead]
    rfl
  · intro s t hclosed
    exact ⟨IntervalTree.exists_validate_run hclosed, fun height x hrun =>
      IntervalTree.validateReachFrom_ends hrun⟩

/-- The validations of a tree at the first record of `looped` find their way out of the cycle. In
the tree of `Cached.sample`, which passes the structural checks, the left-most node is found, and
the check of the reaches ends. -/
theorem halts_looped :
    ((⟨some 0⟩ : Tree).validate looped (.of fun _ _ => .eq)).Ends () ∧
    ((⟨⟨some 0⟩, some 5⟩ : CachedTree).validate looped (.of fun _ _ => .eq)).Ends () ∧
    (∃ out, ((⟨⟨⟨some 0⟩, some 5⟩⟩ : IntervalTree).validate looped).run = .ok out) ∧
    (∃ first, Cached.sample.tree.tree.first Cached.sample.store = .ok first) ∧
    ∃ out, ∀ depth, 3 < depth →
      (IntervalTree.validateReachFrom Cached.sample.store depth (some 1)).run = .ok out := by
  obtain ⟨htree, hcached, hinterval⟩ :=
    validate_halts (ρ := Entry Nat) (ι := Entry Nat) (σ := Unit) (κ := Nat)
  obtain ⟨shape, hkeeps⟩ := Cached.reachable_sample.exists_keeps
  have hclosed : Cached.sample.store.Closed Cached.sample.tree.tree.root :=
    hkeeps.keeps.represents.closed rfl
  have hpasses : (Cached.sample.tree.tree.validate Cached.sample.store (.of compareStart)).run () =
      .ok (.ok 1, ()) := rfl
  obtain ⟨first, hfirst, -⟩ :=
    (hcached Cached.sample.store Cached.sample.tree (.of compareStart) () hclosed).2 1 () hpasses
  exact ⟨(htree looped ⟨some 0⟩ (.of fun _ _ => .eq) () closed_looped).1,
    (hcached looped ⟨⟨some 0⟩, some 5⟩ (.of fun _ _ => .eq) () closed_looped).1,
    (hinterval looped ⟨⟨⟨some 0⟩, some 5⟩⟩ closed_looped).1, ⟨first, hfirst⟩,
    (hinterval Cached.sample.store ⟨Cached.sample.tree⟩ hclosed).2 1 () hpasses⟩

end RecordTree
