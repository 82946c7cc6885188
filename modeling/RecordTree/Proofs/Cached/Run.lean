import RecordTree.Proofs.Callbacks
import RecordTree.Proofs.Forest.Invariant
import RecordTree.Proofs.Walk.Cursor

/-!
# `RecordTree.Proofs.Cached.Run`: runs on a cached tree

`Cached` is a store of records, the handle of a cached tree over some of them, and the caller's
context. `Cached.Reachable` collects the states that calls through the handle lead to from an
empty tree. A node is linked at a position only if the handle has just offered it for that node
(`Cached.Offers`), and callbacks do not change nodes. In between the caller may do anything to the
records, but for the nodes of those that are in the tree.

* `CachedTree.Keeps.returns_call`: the step. A call that fits the tree returns, if its callbacks
  are skipped where they would fail, and leaves the cache right.
* `Cached.first_of_reachable`: the run. In every reachable state the cache names the first node,
  and a position that is offered for a node says truly whether it is the first one.
-/

set_option autoImplicit false

namespace RecordTree

variable {ρ σ : Type} [Linked ρ]

/-! ### Calls -/

/-- What a caller can do through the handle of a cached tree. -/
inductive CachedCall (ρ σ : Type) where
  | insert (aug : Augmentation ρ σ) (id : RecordId) (compare : Comparator ρ σ)
  | link (aug : Augmentation ρ σ) (vacancy : Vacancy) (id : RecordId)
  | delete (aug : Augmentation ρ σ) (id : RecordId)
  | replace (old new : RecordId)
  | clear

namespace CachedCall

/-- Makes the call through the handle `t`. -/
def run [Listener σ] (t : CachedTree) : CachedCall ρ σ → Guarded ρ σ CachedTree
  | insert aug id compare => t.insertWith aug id compare
  | link aug vacancy id => t.linkWith aug vacancy id
  | delete aug id => t.deleteWith aug id
  | replace old new => t.replace old new
  | clear => do
    let (t, _) ← Guarded.update t.clear
    pure t

/-- The call with callbacks that do nothing where they would fail. -/
def orSkip : CachedCall ρ σ → CachedCall ρ σ
  | insert aug id compare => insert aug.orSkip id compare
  | link aug vacancy id => link aug.orSkip vacancy id
  | delete aug id => delete aug.orSkip id
  | replace old new => replace old new
  | clear => clear

/-- The call's callbacks change no node. -/
def Spares : CachedCall ρ σ → Prop
  | insert aug _ _ | link aug _ _ | delete aug _ => aug.Spares
  | replace _ _ | clear => True

end CachedCall

/-- The handle of a cached tree, the store of its records, and the caller's context. -/
structure Cached (ρ σ : Type) where
  store : Store ρ
  tree : CachedTree
  context : σ

namespace Cached

/-- The tree has the node `id`. -/
def Holds (f : Cached ρ σ) (id : RecordId) : Prop := f.store.Reaches f.tree.tree.root id

/-- The handle offers the position for record `id`, by some comparator. -/
def Offers (f : Cached ρ σ) (vacancy : Vacancy) (id : RecordId) : Prop :=
  ∃ (compare : Comparator ρ σ) (x x' : σ),
    (f.tree.findSlot f.store id compare) x = .ok (vacancy, x')

/-- The calls that a caller can make on the tree as it is: they name records of the store, link at
a position that is offered, and take out or replace a node that the tree has. -/
def Fits (f : Cached ρ σ) : CachedCall ρ σ → Prop
  | .insert _ id _ => id < f.store.size
  | .link _ vacancy id => id < f.store.size ∧ f.Offers vacancy id
  | .delete _ id => f.Holds id
  | .replace old new => f.Holds old ∧ new < f.store.size
  | .clear => True

variable [Listener σ]

/-- Makes a call. Returns what turned it down, if a guard did. -/
def call (f : Cached ρ σ) (c : CachedCall ρ σ) :
    Except Fault (Option Rejection × Cached ρ σ) := do
  let ((outcome, store), context) ← (c.run f.tree).run f.store f.context
  match outcome with
  | .ok tree => pure (none, ⟨store, tree, context⟩)
  | .error r => pure (some r, ⟨store, f.tree, context⟩)

/-- The guards turn the call down. -/
def Rejects (f : Cached ρ σ) (c : CachedCall ρ σ) : Prop := ∃ r f', f.call c = .ok (some r, f')

/-- The calls that a caller may make. -/
def Permits (f : Cached ρ σ) (c : CachedCall ρ σ) : Prop := c.Spares ∧ f.Fits c ∨ f.Rejects c

/-- The states that permitted calls lead to. -/
inductive Reachable : Cached ρ σ → Prop where
  | start {f : Cached ρ σ} : f.tree = .empty → Reachable f
  | call {f f' : Cached ρ σ} {c : CachedCall ρ σ} {outcome : Option Rejection} :
      Reachable f → f.Permits c → f.call c = .ok (outcome, f') → Reachable f'
  /-- The caller changes what the nodes of the tree do not hold. -/
  | edit {f : Cached ρ σ} {s : Store ρ} (context : σ) :
      Reachable f → (∀ id, f.Holds id → s.node id = f.store.node id) →
      Reachable { f with store := s, context }

end Cached

/-! ### The step -/

section Step

variable [Listener σ]

/-- When callbacks that would fail are skipped, a call does the same wherever it returned before. -/
theorem CachedCall.approximates_orSkip (t : CachedTree) (c : CachedCall ρ σ) :
    Update.Approximates (c.run t).run (c.orSkip.run t).run := by
  cases c with
  | insert aug id compare =>
    exact CachedTree.approximates_insertWith aug.approximates_orSkip t id compare
  | link aug vacancy id =>
    exact CachedTree.approximates_linkWith aug.approximates_orSkip t vacancy id
  | delete aug id => exact CachedTree.approximates_deleteWith aug.approximates_orSkip t id
  | replace old new => exact .refl _
  | clear => exact .refl _

/-- A call that a guard turns down leaves the store as it was. -/
theorem CachedCall.rejectsSilently (t : CachedTree) (c : CachedCall ρ σ) :
    (c.run t).RejectsSilently := by
  cases c with
  | insert aug id compare => exact t.rejectsSilently_insertWith aug id compare
  | link aug vacancy id => exact t.rejectsSilently_linkWith aug vacancy id
  | delete aug id => exact t.rejectsSilently_deleteWith aug id
  | replace old new => exact t.rejectsSilently_replace old new
  | clear => exact (Guarded.rejectsSilently_update t.clear).bind_pure (f := Prod.fst)

namespace Cached

variable [LawfulLinked ρ] {f f' : Cached ρ σ} {c : CachedCall ρ σ} {shape : Shape}
  {id : RecordId}

omit [LawfulLinked ρ] [Listener σ] in
/-- The tree has exactly the nodes of its shape. -/
theorem holds_iff (h : f.tree.Keeps f.store shape) : f.Holds id ↔ id ∈ shape.inorder :=
  h.keeps.represents.reaches_iff id

omit [LawfulLinked ρ] [Listener σ] in
/-- A position that is offered is one of the tree, and its flag tells whether it is the first. -/
theorem exists_context_of_offers (h : f.tree.Keeps f.store shape) (hid : id < f.store.size)
    {vacancy : Vacancy} (hoffers : f.Offers vacancy id) :
    ∃ C : Context, shape = C.fill .leaf ∧ vacancy = ⟨C.slot, C.before.isEmpty⟩ := by
  obtain ⟨compare, x, x', hslot⟩ := hoffers
  obtain ⟨C, y, hfill, hdesc, -⟩ := Tree.returns_descend compare x h.keeps.toHasShape hid
  rw [CachedTree.findSlot, hdesc] at hslot
  cases hslot
  exact ⟨C, hfill, rfl⟩

/-- The step: with callbacks that spare nodes and are skipped where they would fail, a call that
fits the tree returns. A guard turned it down and nothing changed, or the cache is right again. -/
theorem returns_run (h : f.tree.Keeps f.store shape) (hspares : c.Spares) (hfits : f.Fits c) :
    (c.orSkip.run f.tree).Returns f.store f.context (fun t s _ => ∃ shape', t.Keeps s shape')
      (fun _ s _ => s = f.store) := by
  cases c with
  | insert aug id compare =>
    obtain ⟨n, hn⟩ := Store.exists_node_of_lt hfits
    refine (CachedTree.returns_insertWith hspares.turns (hspares.grows id) compare h hn
      fun _ _ => trivial).mono ?_ ?_
    · rintro t s x ⟨-, C, -, -, k, -, shape', hs, hleftmost, -⟩
      exact ⟨shape', hs.keeps, hleftmost⟩
    · rintro r s x ⟨-, -, hs⟩
      exact hs
  | link aug vacancy id =>
    obtain ⟨hid, hoffers⟩ := hfits
    obtain ⟨n, hn⟩ := Store.exists_node_of_lt hid
    -- What the handle offers is an empty position of its tree.
    obtain ⟨C, rfl, rfl⟩ := exists_context_of_offers h hid hoffers
    refine (CachedTree.returns_linkWith hspares.turns (hspares.grows id) h hn C.names_slot rfl
      fun _ => trivial).mono ?_ ?_
    · rintro t s x ⟨-, k, -, shape', hs, hleftmost, -⟩
      exact ⟨shape', hs.keeps, hleftmost⟩
    · rintro r s x ⟨-, -, hs, -⟩
      exact hs
  | delete aug id =>
    obtain ⟨l, r, hlist⟩ := List.append_of_mem ((holds_iff h).mp hfits)
    refine (CachedTree.returns_deleteWith hspares.turns (hspares.shrinks id) h hlist
      trivial).mono ?_ fun _ _ _ hf => hf.elim
    rintro t s x ⟨k, -, shape', hs, hleftmost, -⟩
    exact ⟨shape', hs.keeps, hleftmost⟩
  | replace old new =>
    obtain ⟨hholds, hnew⟩ := hfits
    obtain ⟨l, r, hlist⟩ := List.append_of_mem ((holds_iff h).mp hholds)
    obtain ⟨n, hn⟩ := Store.exists_node_of_lt hnew
    -- A record that is part of a tree is turned down, and any other one takes the place.
    by_cases hstate : n.state = .linked
    · obtain ⟨m, hm, -⟩ := h.keeps.spells.exists_linked ((holds_iff h).mp hholds)
      exact (CachedTree.rejects_replace hm hn (.inr hstate)).mono (fun _ _ _ hf => hf.elim)
        fun _ _ _ hout => hout.1
    · refine (CachedTree.returns_replace h hlist hn hstate).mono ?_ fun _ _ _ hf => hf.elim
      rintro t s x ⟨shape', hs, hleftmost, -⟩
      exact ⟨shape', hs.keeps, hleftmost⟩
  | clear =>
    simp only [CachedCall.orSkip, CachedCall.run, Guarded.returns_bind, Guarded.returns_update,
      Guarded.returns_pure]
    refine (CachedTree.returns_clear h).mono ?_
    rintro ⟨t, n⟩ s x ⟨rfl, -⟩
    exact ⟨.leaf, CachedTree.keeps_empty s⟩

omit [LawfulLinked ρ] in
/-- A call that returned does the same with callbacks that would be skipped. -/
theorem call_orSkip {out : Option Rejection × Cached ρ σ} (hcall : f.call c = .ok out) :
    f.call c.orSkip = .ok out := by
  unfold call at hcall ⊢
  obtain ⟨r, hrun, hout⟩ := except_bind_eq_ok.mp hcall
  exact except_bind_eq_ok.mpr ⟨r, c.approximates_orSkip f.tree f.store f.context r hrun, hout⟩

/-- What a permitted call leaves. -/
def Outcome (f : Cached ρ σ) : Option Rejection → Cached ρ σ → Prop
  | none, f' => ∃ shape, f'.tree.Keeps f'.store shape
  | some _, f' => f'.store = f.store ∧ f'.tree = f.tree

omit [LawfulLinked ρ] in
/-- A call that the guards reject returns, and changes nothing but what the caller hears. -/
theorem outcome_of_rejects (h : f.Rejects c) : ∃ r f', f.call c = .ok (some r, f') ∧
    f.Outcome (some r) f' := by
  obtain ⟨r, f', hcall⟩ := h
  refine ⟨r, f', hcall, ?_⟩
  unfold call at hcall
  obtain ⟨⟨⟨outcome, s⟩, x⟩, hrun, hout⟩ := except_bind_eq_ok.mp hcall
  cases outcome with
  | ok t => cases hout
  | error e =>
    cases hout
    exact ⟨c.rejectsSilently f.tree f.store f.context r s x hrun, rfl⟩

/-- A permitted call returns, with callbacks that are skipped where they would fail. -/
theorem returns_call (h : f.tree.Keeps f.store shape) (hc : f.Permits c) :
    ∃ outcome f', f.call c.orSkip = .ok (outcome, f') ∧ f.Outcome outcome f' := by
  rcases hc with ⟨hspares, hfits⟩ | hrejects
  · obtain ⟨outcome, s, x, hrun, hout⟩ := returns_run h hspares hfits
    cases outcome with
    | ok t =>
      refine ⟨none, ⟨s, t, x⟩, ?_, hout⟩
      rw [call, hrun]
      rfl
    | error r =>
      refine ⟨some r, ⟨s, f.tree, x⟩, ?_, hout, rfl⟩
      rw [call, hrun]
      rfl
  · obtain ⟨r, f', hcall, hout⟩ := outcome_of_rejects hrejects
    exact ⟨some r, f', call_orSkip hcall, hout⟩

/-- The run: the cache is right in every reachable state. -/
theorem Reachable.exists_keeps (h : f.Reachable) : ∃ shape, f.tree.Keeps f.store shape := by
  induction h with
  | @start f hempty => exact ⟨.leaf, hempty ▸ CachedTree.keeps_empty f.store⟩
  | @call f f' c outcome _ hp hcall ih =>
    obtain ⟨shape, hkeeps⟩ := ih
    obtain ⟨outcome', f'', hcall', hout⟩ := returns_call hkeeps hp
    rw [call_orSkip hcall] at hcall'
    cases hcall'
    cases outcome with
    | none => exact hout
    | some r =>
      obtain ⟨hstore, htree⟩ := hout
      exact ⟨shape, by rwa [hstore, htree]⟩
  | edit context _ hs ih =>
    obtain ⟨shape, hkeeps⟩ := ih
    exact ⟨shape, hkeeps.congr fun j hj => hs j ((holds_iff hkeeps).mpr hj)⟩

/-- A node linked at the position that is offered for it comes first exactly if the position says
that it does. -/
theorem returns_link_offered (h : f.tree.Keeps f.store shape) {n : Node}
    (hn : f.store.node id = .ok n) (hstate : n.state ≠ .linked) {vacancy : Vacancy}
    (hoffers : f.Offers vacancy id) (x : σ) :
    (f.tree.tree.link vacancy.slot id).Returns f.store x
      (fun t s _ => ∃ l, t.walk s .ascending = .ok l ∧
        (vacancy.leftmost = true ↔ l.head? = some id))
      fun _ _ _ => False := by
  obtain ⟨C, rfl, rfl⟩ := exists_context_of_offers h (Store.lt_of_node hn) hoffers
  refine (Tree.returns_linkWith Augmentation.spares_none.turns (Augmentation.spares_none.grows id)
    h.keeps hn C.names_slot fun _ => trivial).mono ?_ fun _ _ _ hout => hstate hout.1
  rintro t s x ⟨-, k, -, shape', hs, -⟩
  have hnodup := hs.keeps.nodup
  rw [hs.inorder] at hnodup
  refine ⟨_, hs.inorder ▸ hs.keeps.walk_ascending, ?_⟩
  rw [CachedTree.head?_eq_some_iff_of_nodup hnodup, List.isEmpty_iff]

/-- In every reachable state the cached node is the one that is reached by left links from the root,
and there is none exactly if the tree is empty. So the ascending walk from the cached node is the
walk over the tree. There, every permitted call returns, if its callbacks are skipped where they
would fail, and every record of the store is offered a position, whose flag tells whether the
record comes first in the walk when it is linked there. -/
theorem first_of_reachable (h : f.Reachable) :
    f.tree.tree.first f.store = .ok f.tree.first ∧
    (f.tree.first = none ↔ f.tree.isEmpty = true) ∧
    f.tree.tree.cursor f.store .ascending = .ok f.tree.ascending ∧
    f.tree.cursor f.store .ascending = .ok f.tree.ascending ∧
    (∃ l, f.tree.tree.walk f.store .ascending = .ok l ∧ f.tree.ascending.toList f.store = .ok l ∧
      l.Nodup ∧ ∀ id, id ∈ l ↔ f.Holds id) ∧
    (∀ c, f.Permits c → ∃ outcome f', f.call c.orSkip = .ok (outcome, f')) ∧
    ∀ id (compare : Comparator ρ σ) x, id < f.store.size → ∃ vacancy x',
      (f.tree.findSlot f.store id compare) x = .ok (vacancy, x') ∧
        ∀ n, f.store.node id = .ok n → n.state ≠ .linked →
          (f.tree.tree.link vacancy.slot id).Returns f.store x'
            (fun t s _ => ∃ l, t.walk s .ascending = .ok l ∧
              (vacancy.leftmost = true ↔ l.head? = some id))
            fun _ _ _ => False := by
  obtain ⟨shape, hkeeps⟩ := h.exists_keeps
  have hfirst := hkeeps.keeps.first_eq
  have hascending := hkeeps.ascending_eq
  refine ⟨?_, ?_, hascending ▸ hkeeps.keeps.cursor_towards .right,
    hascending ▸ hkeeps.cursor_towards .right, ?_, ?_, ?_⟩
  · rw [hfirst, CachedTree.first, hkeeps.leftmost_eq]
  · rw [CachedTree.first, hkeeps.leftmost_eq, CachedTree.isEmpty, Tree.isEmpty,
      hkeeps.keeps.root_eq]
    cases shape <;> simp [Shape.inorder]
  · refine ⟨shape.inorder, hkeeps.keeps.walk_ascending, ?_, hkeeps.keeps.nodup,
      fun id => (holds_iff hkeeps).symm⟩
    rw [hascending]
    exact Cursor.toList_eq hkeeps.keeps.visits_ascending hkeeps.keeps.length_le
  · intro c hc
    obtain ⟨outcome, f', hcall, -⟩ := returns_call hkeeps hc
    exact ⟨outcome, f', hcall⟩
  · -- The descent ends at a position that the handle offers, whatever it asks on its way.
    intro id compare x hid
    obtain ⟨C, x', -, hdesc, -⟩ := Tree.returns_descend compare x hkeeps.keeps.toHasShape hid
    refine ⟨_, x', hdesc, fun n hn hstate => ?_⟩
    exact returns_link_offered hkeeps hn hstate ⟨compare, x, x', hdesc⟩ x'

/-- Three intervals, of which the tree has two. -/
def sample : Cached (Entry Nat) Unit where
  store := #[⟨{ parent := some 1, state := .linked }, 1, 2, 2⟩,
    ⟨{ left := some 0, color := .black, state := .linked }, 3, 4, 4⟩, .of 0 1]
  tree := ⟨⟨some 1⟩, some 0⟩
  context := ()

/-- The records of `sample` before their insertion. -/
def sampleBare : Cached (Entry Nat) Unit := ⟨#[.of 1 2, .of 3 4, .of 0 1], .empty, ()⟩

/-- The tree of `sample` before its second node was linked. -/
def sampleHalf : Cached (Entry Nat) Unit where
  store := #[.of 1 2, ⟨{ color := .black, state := .linked }, 3, 4, 4⟩, .of 0 1]
  tree := ⟨⟨some 1⟩, some 1⟩
  context := ()

/-- An insertion, and a link at the position that the handle then offers, lead to `sample`. -/
theorem reachable_sample : sample.Reachable := by
  have hspares : (reachSummary : Augmentation (Entry Nat) Unit).Spares := spares_reachSummary
  have hbare : sampleBare.Reachable := .start rfl
  have hfirst : sampleBare.call (.insert reachSummary 1 (.of compareStart)) =
      .ok (none, sampleHalf) := rfl
  have hhalf : sampleHalf.Reachable :=
    hbare.call (c := .insert _ 1 _) (.inl ⟨hspares, show 1 < 3 by decide⟩) hfirst
  -- The second node goes to the position that the handle offers for it.
  have hoffers : sampleHalf.Offers ⟨⟨some 1, .left⟩, true⟩ 0 :=
    ⟨.of compareStart, (), (), rfl⟩
  have hsecond : sampleHalf.call (.link reachSummary ⟨⟨some 1, .left⟩, true⟩ 0) =
      .ok (none, sample) := rfl
  exact hhalf.call (c := .link _ _ 0) (.inl ⟨hspares, show 0 < 3 by decide, hoffers⟩) hsecond

/-- The first node of the sample is `0`, and the record `2` would come before it. -/
theorem first_sample : sample.tree.tree.first sample.store = .ok (some 0) ∧
    ∃ vacancy x, (sample.tree.findSlot sample.store 2 (.of compareStart)) () = .ok (vacancy, x) ∧
      vacancy.leftmost = true ∧
      (sample.tree.tree.link vacancy.slot 2).Returns sample.store x
        (fun t s _ => ∃ l, t.walk s .ascending = .ok l ∧ l.head? = some 2) fun _ _ _ => False := by
  obtain ⟨hfirst, -, -, -, -, -, hoffered⟩ := first_of_reachable reachable_sample
  obtain ⟨vacancy, x, hslot, hlink⟩ := hoffered 2 (.of compareStart) () (show 2 < 3 by decide)
  cases hslot
  refine ⟨hfirst, _, _, rfl, rfl, (hlink _ rfl (by decide)).mono ?_ fun _ _ _ hf => hf⟩
  rintro t s x ⟨l, hwalk, hhead⟩
  exact ⟨l, hwalk, hhead.mp rfl⟩

end Cached

end Step

end RecordTree
