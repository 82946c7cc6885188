import RecordTree.Proofs.Grove.Apart
import RecordTree.Proofs.Tree.Rename

/-!
# `RecordTree.Proofs.Grove.Replace`: what a replacement leaves

In every reachable state a node of a plain tree or a cached one can be replaced by any record that
is not linked, whatever that one was used for before, and comes out renamed.

* `Variety.Renamed`: what it leaves of a handle of any kind and of the records.
* `Variety.renames_replace`: the call through a handle, whose cache, if it has one, need not be
  right.
* `replace_of_reachable`: all this of the states that calls lead to.
-/

set_option autoImplicit false

namespace RecordTree

variable {ρ σ κ : Type}

namespace Variety

/-- The tree in the handle is renamed, and so is the cached node where a call can replace it. -/
def Renamed [Linked ρ] : (v : Variety) → v.Handle → Store ρ → RecordId → RecordId → v.Handle →
    Store ρ → Prop
  | plain, t, s, old, new, t', s' => Tree.Renamed t s old new t' s'
  | cached, t, s, old, new, t', s' => CachedTree.Renamed t s old new t' s'
  | interval, t, s, old, new, t', s' =>
    Tree.Renamed (IntervalTree.plain t) s old new (IntervalTree.plain t') s'

variable [Spanned ρ κ] [LinearOrder κ] [LawfulSpanned ρ] [Listener σ] {s : Store ρ} {shape : Shape}
  {old new : RecordId} {m : Node} {x : σ}

/-- A replacement through a handle renames what is in the handle. There is none in a tree of
intervals. -/
theorem renames_replace {v : Variety} {h : v.Handle} {c : v.Call ρ σ}
    (hc : v.toPlain c = .replace old new) (htree : (v.tree h).Keeps s shape)
    (hkeeps : v.Keeps s shape h) (hold : old ∈ shape.inorder) (hm : s.node new = .ok m)
    (hstate : m.state ≠ .linked) :
    (v.run h c).Returns s x
      (fun out s' x' => out.2 = none ∧ x' = x ∧ v.Renamed h s old new out.1 s')
      fun _ _ _ => False := by
  cases v with
  | plain =>
    obtain rfl : c = Call.replace old new := hc
    simp only [run, Call.run, Guarded.returns_bind, Guarded.returns_pure]
    exact (htree.renames_replace hold hm hstate).mono
      (fun t' s' x' ht' => ⟨trivial, ht'⟩) fun _ _ _ hr => hr
  | cached =>
    cases c with
    | replace out id =>
      cases hc
      simp only [run, CachedCall.run, Guarded.returns_bind, Guarded.returns_pure]
      exact (CachedTree.renames_replace htree hkeeps hold hm hstate).mono
        (fun t' s' x' ht' => ⟨trivial, ht'⟩) fun _ _ _ hr => hr
    | insert | link | delete | clear => cases hc
  | interval => cases c <;> cases hc

end Variety

/-- In every reachable state, a node of a plain tree or a cached one can be replaced by any record
that is not linked. The call returns, no guard turns it down, and the tree comes out renamed. It has
no effect on other handles or the caller's context.

The first part is about forests of plain trees, the second one about a cached tree that is kept with
callbacks, and the third one about trees of all kinds in one store. -/
theorem replace_of_reachable {ι κ : Type} [Linked ρ] [LawfulLinked ρ] [Listener σ] [Spanned ι κ]
    [LawfulSpanned ι] [LinearOrder κ] :
    (∀ {τ : Type} [DecidableEq τ] (f : Forest τ ρ σ) (i : τ) (old new : RecordId) (m : Node),
      f.Reachable → f.Holds i old → f.store.node new = .ok m → m.state ≠ .linked →
      ∃ t s, f.call i (.replace old new) =
          .ok (none, ⟨s, Function.update f.trees i t, f.context⟩) ∧
        (f.trees i).Renamed f.store old new t s) ∧
    (∀ (f : Cached ρ σ) (old new : RecordId) (m : Node),
      f.Reachable → f.Holds old → f.store.node new = .ok m → m.state ≠ .linked →
      ∃ t s, f.call (.replace old new) = .ok (none, ⟨s, t, f.context⟩) ∧
        f.tree.Renamed f.store old new t s) ∧
    ∀ {τ : Type} [DecidableEq τ] {kind : τ → Variety} (f : Grove kind ι σ) (i : τ)
      (c : (kind i).Call ι σ) (old new : RecordId) (m : Node),
      f.Reachable → (kind i).toPlain c = .replace old new → f.Holds i old →
      f.store.node new = .ok m → m.state ≠ .linked →
      ∃ h s, f.call i c =
          .ok (.ok none, ⟨s, Function.update f.handles i h, f.context⟩) ∧
        (kind i).Renamed (f.handles i) f.store old new h s := by
  refine ⟨?_, ?_, ?_⟩
  · intro τ _ f i old new m hreachable hholds hm hstate
    obtain ⟨shapes, hshaped⟩ := hreachable.exists_shaped
    have hold := hshaped.holds_iff.mp hholds
    have hrun := (hshaped.keeps i).renames_replace (x := f.context) hold hm hstate
    obtain ⟨t, s, x, hcall, rfl, hrenamed⟩ | ⟨r, s, x, -, hr⟩ :=
      Forest.call_of_returns (c := .replace old new) hrun
    · exact ⟨t, s, hcall, hrenamed⟩
    · exact hr.elim
  · intro f old new m hreachable hholds hm hstate
    obtain ⟨shape, hkeeps⟩ := hreachable.exists_keeps
    -- The cached node is one of the tree, so that it is renamed with the others.
    have hfirst : ∀ j ∈ f.tree.leftmost, j ∈ shape.inorder := fun j hj =>
      List.mem_of_head? (hkeeps.leftmost_eq.symm.trans hj)
    obtain ⟨outcome, s, x, hrun, hout⟩ := CachedTree.renames_replace (x := f.context) hkeeps.keeps
      hfirst ((Cached.holds_iff hkeeps).mp hholds) hm hstate
    cases outcome with
    | error r => exact hout.elim
    | ok t =>
      obtain ⟨rfl, hrenamed⟩ := hout
      exact ⟨t, s, except_bind_eq_ok.mpr ⟨_, hrun, rfl⟩, hrenamed⟩
  · intro τ _ kind f i c old new m hreachable hc hholds hm hstate
    obtain ⟨shapes, hkept⟩ := hreachable.exists_kept
    obtain ⟨outcome, s, x, hrun, hout⟩ := Variety.renames_replace (x := f.context) hc
      (hkept.shaped.keeps i) (hkept.keeps i) (hkept.holds_iff.mp hholds) hm hstate
    cases outcome with
    | error r => exact hout.elim
    | ok out =>
      obtain ⟨h, answer⟩ := out
      obtain ⟨rfl, rfl, hrenamed⟩ := hout
      exact ⟨h, s, except_bind_eq_ok.mpr ⟨_, hrun, rfl⟩, hrenamed⟩

/-- In the tree of `Forest.pair` the root can be replaced by the third record, and in that of
`Cached.sample` the first node, which is the cached one. In `Grove.sample` the node of the plain
tree gives its place to an interval that was in no tree, beside a tree of intervals. -/
theorem replace_pair :
    (∃ (t : Tree) (s : Store Node), Forest.pair.call true (.replace 0 2) =
        .ok (none, ⟨s, Function.update Forest.pair.trees true t, ()⟩) ∧
      t.root = some 2 ∧ t.walk s .postOrder = .ok [1, 2]) ∧
    (∃ (t : CachedTree) (s : Store (Entry Nat)),
      Cached.sample.call (.replace 0 2) = .ok (none, ⟨s, t, ()⟩) ∧
      t.leftmost = some 2 ∧ s.node 0 = .ok .removed) ∧
    ∃ h s, Grove.sample.call false (Call.replace 2 1) =
        .ok (.ok none, ⟨s, Function.update Grove.sample.handles false h, ()⟩) ∧
      s.node 2 = .ok .removed := by
  obtain ⟨hforest, -, -⟩ := replace_of_reachable (ρ := Node) (σ := Unit) (ι := Entry Nat) (κ := Nat)
  obtain ⟨-, hcached, hgrove⟩ :=
    replace_of_reachable (ρ := Entry Nat) (σ := Unit) (ι := Entry Nat) (κ := Nat)
  refine ⟨?_, ?_, ?_⟩
  · obtain ⟨t, s, hcall, hrenamed⟩ :=
      hforest Forest.pair true 0 2 {} Forest.reachable_pair (.here rfl) rfl (by decide)
    obtain ⟨l, hwalk, hwalk'⟩ := hrenamed.walk_eq .postOrder
    obtain rfl : l = [1, 0] := (Except.ok.inj hwalk).symm
    exact ⟨t, s, hcall, hrenamed.root_eq, hwalk'⟩
  · have htop : Cached.sample.store.node 1 =
        .ok { left := some 0, color := .black, state := .linked } := rfl
    have hholds : Cached.sample.Holds 0 := .child .left htop (.here rfl)
    obtain ⟨t, s, hcall, hrenamed⟩ :=
      hcached Cached.sample 0 2 {} Cached.reachable_sample hholds rfl (by decide)
    exact ⟨t, s, hcall, hrenamed.leftmost_eq, hrenamed.node_old⟩
  · obtain ⟨h, s, hcall, hrenamed⟩ := hgrove Grove.sample false (Call.replace 2 1) 2 1 {}
      Grove.reachable_sample rfl (.here rfl) rfl (by decide)
    exact ⟨h, s, hcall, Tree.Renamed.node_old hrenamed⟩

end RecordTree
