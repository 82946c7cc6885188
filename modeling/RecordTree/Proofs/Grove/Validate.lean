import RecordTree.Proofs.Grove.Apart
import RecordTree.Proofs.Grove.Order
import RecordTree.Proofs.Interval.Validate
import RecordTree.Proofs.Tree.Corrupt

/-!
# `RecordTree.Proofs.Grove.Validate`: validations are right, and miss no single corruption

A tree of any kind that has collected its nodes in order passes its own checks, and they answer
with the number of black nodes on every path (`Variety.Passable.validate_eq`). `Grove.Corrupts`
changes one thing that the tree keeps book of to another value, and then the checks find a defect:

* at a node, because the child links leave no choice for the colours, the parent links and the
  states (`Variety.Passable.exists_defect_of_node`),
* in the cache, because it is compared with the first node
  (`Variety.Passable.exists_defect_of_leftmost`),
* in a reach, because the stops leave no choice for the reaches
  (`Variety.Passable.exists_defect_of_reach`).

`Grove.validate_of_collects` says both of every run of `Grove.Collects`.
-/

set_option autoImplicit false

namespace RecordTree

open Std

variable {ι ρ σ κ : Type}

/-! ### Cached trees -/

namespace CachedTree

variable [Linked ρ] [LawfulLinked ρ] {t : CachedTree} {s s' : Store ρ} {shape : Shape}
  {order : ρ → ρ → Ordering} {compare : Comparator ρ σ}

/-- What is wrong at one node of a cached tree is found. -/
theorem exists_defect_of_corrupts [OrientedCmp order] (h : t.tree.Keeps s shape)
    (hanswers : compare.Answers order) {id : RecordId} (hid : id ∈ shape.inorder)
    (hcorrupts : s.Corrupts id s') (x : σ) :
    ∃ defect x', (t.validate s' compare).run x = .ok (.error defect, x') := by
  have hends := ends_validate (h.represents.closed hcorrupts.children_eq) compare x
  refine hends.exists_defect fun hpasses => ?_
  rw [validate, Check.passes_bind] at hpasses
  exact Tree.not_passes_of_corrupts h hanswers hid hcorrupts x (hpasses.mono fun _ _ _ => trivial)

omit [LawfulLinked ρ] in
/-- A cache that does not name the first node is found. -/
theorem exists_defect_of_leftmost (h : t.tree.Keeps s shape) {leftmost : Option RecordId}
    (hne : leftmost ≠ shape.inorder.head?) (compare : Comparator ρ σ) (x : σ) :
    ∃ defect x', ((⟨t.tree, leftmost⟩ : CachedTree).validate s compare).run x =
      .ok (.error defect, x') := by
  have hclosed : s.Closed (⟨t.tree, leftmost⟩ : CachedTree).tree.root := h.represents.closed rfl
  refine (ends_validate hclosed compare x).exists_defect ?_
  simp only [validate, Check.passes_bind, Check.passes_read, Check.passes_refuse, not_not]
  rintro ⟨height, x₁, -, first, hfirst, heq, -⟩
  rw [h.first_eq] at hfirst
  exact hne (heq.symm.trans (Except.ok.inj hfirst).symm)

end CachedTree

/-! ### Interval trees -/

namespace IntervalTree

variable [Spanned ρ κ] [LinearOrder κ] {t : IntervalTree} {s s' : Store ρ} {shape : Shape}

/-- A wrong reach is found. -/
theorem exists_defect_of_reach [LawfulSpanned ρ] (h : t.Keeps s shape) {id : RecordId}
    (hid : id ∈ shape.inorder) {e : Entry κ} (he : s.entry id = .ok e) {reach : κ}
    (hne : reach ≠ e.reach) :
    ∃ defect, (t.validate (s.setReach id reach)).run = .ok (.error defect) := by
  have hres := s.resummed_setReach reach (List.mem_singleton_self id)
  have hcached : t.cached.Keeps (s.setReach id reach) shape :=
    h.cached.congr fun j _ => congrFun (s.node_setReach id reach) j
  have hsorted : (s.setReach id reach).Sorted compareStart shape.inorder :=
    hres.sorted h.sorted fun j hj => h.lt_size hj
  refine exists_defect_of_not_exact hcached hsorted fun hexact => hne ?_
  -- The stops are the same, and they leave no choice.
  obtain ⟨⟨r, hr⟩, -, hreach⟩ := Store.payload_of_entry he
  have heq := h.exact.reachAt_unique hexact hres.stopAt_eq hid
  rw [Store.payload_setReach, Payloads.reachAt_setReach_self hr, hreach] at heq
  exact WithBot.coe_inj.mp heq

end IntervalTree

/-! ### Trees of all kinds -/

namespace Variety

variable [Spanned ρ κ] [LinearOrder κ]

/-- The handle with another node cached. A plain one has no cache. -/
def withLeftmost (leftmost : Option RecordId) : (v : Variety) → v.Handle → v.Handle
  | plain, t => t
  | cached, t => (⟨CachedTree.tree t, leftmost⟩ : CachedTree)
  | interval, t => (⟨⟨IntervalTree.plain t, leftmost⟩⟩ : IntervalTree)

/-- Validates through the handle. Interval trees are not asked for a comparator, they have their
own. -/
def validate : (v : Variety) → v.Handle → Store ρ → Comparator ρ σ → σ →
    Except Fault (Except (IntervalDefect κ) Nat)
  | plain, t, s, compare, x => (·.1.mapError .tree) <$> (Tree.validate t s compare).run x
  | cached, t, s, compare, x => (·.1.mapError .tree) <$> (CachedTree.validate t s compare).run x
  | interval, t, s, _, _ => (IntervalTree.validate t s).run

variable {v : Variety} {h : v.Handle} {s s' : Store ρ} {shape : Shape} {height : Nat}
  {order : ρ → ρ → Ordering} {compare : Comparator ρ σ} {id : RecordId}

/-- What a tree of the kind needs to pass. Interval trees keep it in any case. -/
structure Passable (order : ρ → ρ → Ordering) (v : Variety) (h : v.Handle) (s : Store ρ)
    (shape : Shape) : Prop where
  tree : (v.tree h).Keeps s shape
  keeps : v.Keeps s shape h
  sorted : v ≠ interval → s.Sorted order shape.inorder
  leftmost_eq : v ≠ plain → v.leftmost h = shape.inorder.head?

/-- The cached tree in a handle that has one. -/
theorem Passable.cached {t : CachedTree} (hp : Passable order cached t s shape) :
    t.Keeps s shape :=
  ⟨hp.tree, hp.leftmost_eq (by decide)⟩

section Lawful

variable [LawfulSpanned ρ] [OrientedCmp order]

/-- A validation answers with the black height. -/
theorem Passable.validate_eq (hp : Passable order v h s shape) (hheight : shape.Balanced height)
    (hanswers : compare.Answers order) (x : σ) : v.validate h s compare x = .ok (.ok height) := by
  cases v with
  | plain =>
    obtain ⟨answer, x', hrun, rfl⟩ :=
      hp.tree.passes_validate hheight hanswers (hp.sorted (by decide)) x
    exact except_functor_map_eq_ok.mpr ⟨_, hrun, rfl⟩
  | cached =>
    obtain ⟨answer, x', hrun, rfl⟩ :=
      hp.cached.passes_validate hheight hanswers (hp.sorted (by decide)) x
    exact except_functor_map_eq_ok.mpr ⟨_, hrun, rfl⟩
  | interval =>
    obtain ⟨answer, hanswer, hrun⟩ := IntervalTree.Keeps.exists_validate_eq hp.keeps
    rw [hheight.unique hanswer]
    exact hrun

/-- What is wrong at one node is found, by trees of all kinds. -/
theorem Passable.exists_defect_of_node (hp : Passable order v h s shape)
    (hanswers : compare.Answers order) (hid : id ∈ shape.inorder) (hcorrupts : s.Corrupts id s')
    (x : σ) : ∃ defect, v.validate h s' compare x = .ok (.error defect) := by
  cases v with
  | plain =>
    obtain ⟨defect, x', hrun⟩ := Tree.exists_defect_of_corrupts hp.tree hanswers hid hcorrupts x
    exact ⟨.tree defect, except_functor_map_eq_ok.mpr ⟨_, hrun, rfl⟩⟩
  | cached =>
    obtain ⟨defect, x', hrun⟩ :=
      CachedTree.exists_defect_of_corrupts hp.tree hanswers hid hcorrupts x
    exact ⟨.tree defect, except_functor_map_eq_ok.mpr ⟨_, hrun, rfl⟩⟩
  | interval =>
    obtain ⟨defect, x', hrun⟩ := CachedTree.exists_defect_of_corrupts (t := IntervalTree.cached h)
      hp.tree (Comparator.answers_of compareStart) hid hcorrupts ()
    exact ⟨.tree defect, IntervalTree.validate_eq_of_defect hrun⟩

omit [LawfulSpanned ρ] [OrientedCmp order] in
/-- A wrong cache is found. -/
theorem Passable.exists_defect_of_leftmost (hp : Passable order v h s shape) (hv : v ≠ plain)
    {leftmost : Option RecordId} (hne : leftmost ≠ v.leftmost h) (compare : Comparator ρ σ)
    (x : σ) :
    ∃ defect, v.validate (v.withLeftmost leftmost h) s compare x = .ok (.error defect) := by
  rw [hp.leftmost_eq hv] at hne
  cases v with
  | plain => exact absurd rfl hv
  | cached =>
    obtain ⟨defect, x', hrun⟩ := CachedTree.exists_defect_of_leftmost hp.tree hne compare x
    exact ⟨.tree defect, except_functor_map_eq_ok.mpr ⟨_, hrun, rfl⟩⟩
  | interval =>
    obtain ⟨defect, x', hrun⟩ :=
      CachedTree.exists_defect_of_leftmost (t := IntervalTree.cached h) hp.tree hne
        (.of compareStart) ()
    exact ⟨.tree defect, IntervalTree.validate_eq_of_defect hrun⟩

omit [OrientedCmp order] in
/-- A wrong reach is found. -/
theorem Passable.exists_defect_of_reach (hp : Passable order v h s shape) (hv : v = interval)
    (hid : id ∈ shape.inorder) {e : Entry κ} (he : s.entry id = .ok e) {reach : κ}
    (hne : reach ≠ e.reach) (compare : Comparator ρ σ) (x : σ) :
    ∃ defect, v.validate h (s.setReach id reach) compare x = .ok (.error defect) := by
  subst hv
  exact IntervalTree.exists_defect_of_reach hp.keeps hid he hne

end Lawful

end Variety

namespace Grove

variable [Spanned ρ κ] [LinearOrder κ] {kind : ι → Variety} {f : Grove kind ρ σ}
  {shapes : ι → Shape} {i : ι} {order : ρ → ρ → Ordering} {compare : Comparator ρ σ}

/-- One thing was changed that the tree at `i` keeps book of: the colour, the parent link or the
state of a node, the cached node, or the reach of a node. It is another value than before. -/
inductive Corrupts (f : Grove kind ρ σ) (i : ι) : (kind i).Handle → Store ρ → Prop where
  | node {id : RecordId} {s : Store ρ} : f.Holds i id → f.store.Corrupts id s →
      Corrupts f i (f.handles i) s
  | leftmost {leftmost : Option RecordId} : kind i ≠ .plain →
      leftmost ≠ (kind i).leftmost (f.handles i) →
      Corrupts f i ((kind i).withLeftmost leftmost (f.handles i)) f.store
  | reach {id : RecordId} {e : Entry κ} {reach : κ} : kind i = .interval → f.Holds i id →
      f.store.entry id = .ok e → reach ≠ e.reach →
      Corrupts f i (f.handles i) (f.store.setReach id reach)

/-- A tree that has collected its nodes in order has what it needs to pass. -/
theorem Ordered.passable (h : f.Ordered order i shapes) :
    (kind i).Passable order (f.handles i) f.store (shapes i) :=
  ⟨h.shaped.keeps i, h.keeps i, h.sorted, h.leftmost_eq⟩

variable [DecidableEq ι] [Listener σ] [LawfulSpanned ρ] [TransCmp order]

/-- Whatever has collected its nodes under a total preorder passes, with the number of blacks on
every path as the answer. When one thing is changed that it keeps book of, it does not pass. -/
theorem validate_of_collects (hblind : ∀ r n, order (Linked.withNode r n) r = .eq)
    (h : f.Collects order i) (hanswers : compare.Answers order) (x : σ) :
    (∃ height, (kind i).validate (f.handles i) f.store compare x = .ok (.ok height) ∧
      ∀ blacks, f.store.Path ((kind i).tree (f.handles i)).root blacks ↔ blacks = height) ∧
    ∀ handle s, f.Corrupts i handle s →
      ∃ defect, (kind i).validate handle s compare x = .ok (.error defect) := by
  obtain ⟨shapes, hordered⟩ := h.exists_ordered hblind
  have hpassable := hordered.passable
  constructor
  · obtain ⟨height, -, hheight⟩ := hpassable.tree.redBlack
    exact ⟨height, hpassable.validate_eq hheight hanswers x, fun blacks =>
      hpassable.tree.represents.path_iff hheight⟩
  · intro handle s hcorrupts
    cases hcorrupts with
    | node hholds hnode =>
      exact hpassable.exists_defect_of_node hanswers (hordered.holds_iff.mp hholds) hnode x
    | leftmost hkind hne => exact hpassable.exists_defect_of_leftmost hkind hne compare x
    | reach hkind hholds he hne =>
      exact hpassable.exists_defect_of_reach hkind (hordered.holds_iff.mp hholds) he hne compare x

/-- The records of `tall`. Its handle at `true` has the first `n` of four intervals in its tree, and
nothing is in the other one. -/
def tallStore : Nat → Store (Entry Nat)
  | 0 => #[.of 1 4, .of 3 9, .of 5 6, .of 7 8]
  | 1 => #[⟨{ color := .black, state := .linked }, 1, 4, 4⟩, .of 3 9, .of 5 6, .of 7 8]
  | 2 => #[⟨{ right := some 1, color := .black, state := .linked }, 1, 4, 9⟩,
      ⟨{ parent := some 0, state := .linked }, 3, 9, 9⟩, .of 5 6, .of 7 8]
  | 3 => #[⟨{ parent := some 1, state := .linked }, 1, 4, 4⟩,
      ⟨{ left := some 0, right := some 2, color := .black, state := .linked }, 3, 9, 9⟩,
      ⟨{ parent := some 1, state := .linked }, 5, 6, 6⟩, .of 7 8]
  | _ => #[⟨{ parent := some 1, color := .black, state := .linked }, 1, 4, 4⟩,
      ⟨{ left := some 0, right := some 2, color := .black, state := .linked }, 3, 9, 9⟩,
      ⟨{ parent := some 1, right := some 3, color := .black, state := .linked }, 5, 6, 8⟩,
      ⟨{ parent := some 2, state := .linked }, 7, 8, 8⟩]

/-- Two handles, of which the one at `true` has taken in the first `n` of four intervals. The third
one makes the second one the root. -/
def tall : Nat → Grove sampleKind (Entry Nat) Unit
  | 0 => ⟨tallStore 0, fun i => (sampleKind i).empty, ()⟩
  | n + 1 =>
    let root := if n < 2 then 0 else 1
    ⟨tallStore (n + 1),
      Function.update (tall n).handles true (⟨⟨⟨some root⟩, some 0⟩⟩ : IntervalTree), ()⟩

/-- Each interval goes in after those before it. -/
theorem tall_insert {n : Nat} (hn : n < 4) :
    (tall n).Permits true (IntervalCall.insert n) ∧
      (tall n).call true (IntervalCall.insert n) = .ok (.ok none, tall (n + 1)) := by
  obtain rfl | rfl | rfl | rfl : n = 0 ∨ n = 1 ∨ n = 2 ∨ n = 3 := by omega
  · exact ⟨⟨trivial, show 0 < 4 by decide⟩, rfl⟩
  · exact ⟨⟨trivial, show 1 < 4 by decide⟩, rfl⟩
  · exact ⟨⟨trivial, show 2 < 4 by decide⟩, rfl⟩
  · exact ⟨⟨trivial, show 3 < 4 by decide⟩, rfl⟩

/-- The tree at `true` collects the intervals by their starts. -/
theorem collects_tall {n : Nat} (hn : n ≤ 4) : (tall n).Collects compareStart true := by
  induction n with
  | zero => exact .start (.start (Store.forall_node (by decide)) fun _ => rfl) rfl
  | succ n ih =>
    obtain ⟨hpermits, hcall⟩ := tall_insert hn
    exact (ih (by omega)).call hpermits (fun _ => Comparator.answers_of _) hcall

/-- Four intervals pass, with two blacks on every path. They do not pass when the second child of
the root is red, the last node hangs off the root, the first one is detached, the root is cached as
the first one, or the second child of the root reaches no further than it stops. -/
theorem validate_sample :
    Variety.interval.validate ((tall 4).handles true) (tall 4).store (.of compareStart) () =
        .ok (.ok 2) ∧
      ∀ change ∈ [((tall 4).handles true,
            (tall 4).store.modifyNode 2 fun n => { n with color := .red }),
          ((tall 4).handles true,
            (tall 4).store.modifyNode 3 fun n => { n with parent := some 1 }),
          ((tall 4).handles true,
            (tall 4).store.modifyNode 0 fun n => { n with state := .detached }),
          (Variety.interval.withLeftmost (some 1) ((tall 4).handles true), (tall 4).store),
          ((tall 4).handles true, (tall 4).store.setReach 2 6)],
        ∃ defect, Variety.interval.validate change.1 change.2 (.of compareStart) () =
          .ok (.error defect) := by
  obtain ⟨⟨height, hrun, hpaths⟩, hcorrupts⟩ :=
    validate_of_collects (fun _ _ => compareStart_eq_eq.mpr rfl) (collects_tall le_rfl)
      (Comparator.answers_of (σ := Unit) compareStart) ()
  -- The path on the left side is enough, all have the same number of blacks.
  have hleft : (tall 4).store.Path (some 0) 1 :=
    .down (n := { parent := some 1, color := .black, state := .linked }) .left rfl .stop
  have hpath : (tall 4).store.Path (some 1) 2 :=
    .down (n := { left := some 0, right := some 2, color := .black, state := .linked }) .left rfl
      hleft
  obtain rfl := (hpaths 2).mp hpath
  have hfirst : (tall 4).Holds true 0 := .child .left rfl (.here rfl)
  have hsecond : (tall 4).Holds true 2 := .child .right rfl (.here rfl)
  have hlast : (tall 4).Holds true 3 := .child .right rfl (.child .right rfl (.here rfl))
  refine ⟨hrun, ?_⟩
  simp only [List.forall_mem_cons, List.not_mem_nil, false_implies, implies_true, and_true]
  refine ⟨?color, ?parent, ?state, ?cache, ?reach⟩
  case color => exact hcorrupts _ _ (.node hsecond (.color rfl (by decide)))
  case parent => exact hcorrupts _ _ (.node hlast (.parent rfl (by decide)))
  case state => exact hcorrupts _ _ (.node hfirst (.state rfl (by decide)))
  case cache => exact hcorrupts _ _ (.leftmost (by decide) (by decide))
  case reach => exact hcorrupts _ _ (.reach rfl hsecond rfl (by decide))

end Grove

end RecordTree
