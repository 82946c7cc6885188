import RecordTree.Proofs.Grove.Invariant
import RecordTree.Proofs.Lockstep.Within

/-!
# `RecordTree.Proofs.Grove.Apart`: trees over one store do not interfere

A call touches the records of its tree, and those that it names and that are in no tree
(`Grove.Touches`). It changes no others (`Grove.Kept.fetch_eq`), and links do not lead from
the others to the ones it touches (`Grove.Kept.inside`).

So a call on one tree is not seen by a call on another one that touches none of the same records.
The run of the second call after the first one keeps to what the first one does not touch
(`RecordTree.Proofs.Lockstep.Within`), and comes to the same end there as without it
(`Grove.Kept.follows`).

* `Grove.calls_apart`: what a permitted call changes, and that calls that are apart commute.
-/

set_option autoImplicit false

namespace RecordTree

variable {ι ρ σ κ α β : Type}

/-- The links of a node lead to nodes of its tree. -/
theorem Tree.HasShape.node_inside [Linked ρ] {t : Tree} {s : Store ρ} {shape : Shape}
    (h : t.HasShape s shape) {id : RecordId} {n : Node} (hid : id ∈ shape.inorder)
    (hn : s.node id = .ok n) : n.Inside {j | j ∈ shape.inorder} := by
  obtain ⟨C, c, l, r, rfl⟩ := Shape.exists_context hid
  have hnode := (spells_node.mp (represents_fill.mp h.represents).2).1
  rw [hn] at hnode
  cases hnode
  refine ⟨fun j hj => ?_, fun j hj => ?_, fun j hj => ?_⟩
  · have hmem := Context.mem_ids_of_parent hj
    simp [hmem]
  · have hmem := Shape.mem_of_root? hj
    simp [Shape.inorder, hmem]
  · have hmem := Shape.mem_of_root? hj
    simp [Shape.inorder, hmem]

/-! ### Calls in step -/

/-- The call names records of `F`, and a slot that is under one. -/
def Call.Inside (F : Set RecordId) (c : Call ρ σ) : Prop :=
  (∀ id ∈ c.args, id ∈ F) ∧ ∀ slot id, c = .link slot id → slot.Inside F

/-- The comparator that the call makes use of, if any, uses its own part of the context. -/
def Call.Minds (own : σ → α) (rest : σ → β) : Call ρ σ → Prop
  | insert _ compare => compare.Minds own rest
  | link _ _ | delete _ | replace _ _ | clear => True

namespace Variety

/-- All that the handle names is among `F`. -/
def Inside (F : Set RecordId) : (v : Variety) → v.Handle → Prop
  | plain, t => Tree.Inside F t
  | cached, t => CachedTree.Inside F t
  | interval, t => CachedTree.Inside F (IntervalTree.cached t)

variable [Spanned ρ κ] [LinearOrder κ] {F : Set RecordId}

/-- A handle names nodes of its tree only. -/
theorem Keeps.inside {s : Store ρ} {shape : Shape} {v : Variety} {h : v.Handle}
    (htree : (v.tree h).HasShape s shape) (hkeeps : v.Keeps s shape h)
    (hsub : ∀ id ∈ shape.inorder, id ∈ F) : v.Inside F h := by
  have hroot : (v.tree h).Inside F := by
    intro id hid
    rw [htree.root_eq] at hid
    exact hsub id (Shape.mem_of_root? hid)
  cases v with
  | plain => exact hroot
  | cached => exact ⟨hroot, fun id hid => hsub id (hkeeps id hid)⟩
  | interval =>
    refine ⟨hroot, fun id hid => hsub id ?_⟩
    have hcached := (IntervalTree.Keeps.cached hkeeps).leftmost_eq
    exact List.mem_of_head? (hcached.symm.trans hid)

variable [LawfulSpanned ρ] [Listener σ] {own : σ → α} {rest : σ → β} {t t₀ : Store ρ} {y y₀ : σ}

section Kinds

variable (hown : Deaf own) (hrest : Deaf rest)
include hown hrest

/-- A call on a plain tree within `F` goes the same way on stores that have the same records at `F`,
and stays within `F`. -/
theorem tracks_plain {h : Tree} (hin : h.Inside F) {c : RecordTree.Call ρ σ} (hc : c.Inside F)
    (hminds : c.Minds own rest) :
    Guarded.Tracks (Within F own rest t y t₀ y₀) (plain.run h c) (plain.run h c)
      fun out => Tree.Inside F out.1 := by
  have L : Lockstep F (Within F own rest t y t₀ y₀ : Alignment ρ σ σ) := Within.lockstep
  have hears : Hears (Within F own rest t y t₀ y₀ : Alignment ρ σ σ) := Within.hears hown hrest
  have hnone := Augmentation.tracks_none F (Within F own rest t y t₀ y₀ : Alignment ρ σ σ)
  -- All that the call names is in `F`, so each way through the code stays there.
  obtain ⟨hnames, hslot⟩ := hc
  cases c with
  | insert id compare =>
    have hid : id ∈ F := hnames id (List.mem_singleton_self id)
    have hcompare : Comparator.Agrees F (Within F own rest t y t₀ y₀) compare compare :=
      Within.agrees hminds
    exact (L.insertWith hears hnone hcompare hin hid).bind fun _ htree => Guarded.tracks_pure htree
  | link slot id =>
    have hid : id ∈ F := hnames id (List.mem_singleton_self id)
    exact (L.linkWith hears hnone hin (hslot slot id rfl) hid).bind fun _ htree =>
      Guarded.tracks_pure htree
  | delete id =>
    have hid : id ∈ F := hnames id (List.mem_singleton_self id)
    exact (L.deleteWith hears hnone hin hid).bind fun _ htree => Guarded.tracks_pure htree
  | replace old new =>
    have hold : old ∈ F := hnames old List.mem_cons_self
    have hnew : new ∈ F := hnames new (List.mem_cons_of_mem old (List.mem_singleton_self new))
    exact (L.replace hears hin hold hnew).bind fun _ htree => Guarded.tracks_pure htree
  | clear =>
    exact (Guarded.tracks_update (L.clear hin)).bind fun _ htree => Guarded.tracks_pure htree

/-- So does a call on a cached tree, if it makes no callbacks. -/
theorem tracks_cached {h : CachedTree} (hin : h.Inside F) {c : CachedCall ρ σ} (hbare : c.Bare)
    (hc : c.plain.Inside F) (hminds : c.plain.Minds own rest) :
    Guarded.Tracks (Within F own rest t y t₀ y₀) (cached.run h c) (cached.run h c)
      fun out => CachedTree.Inside F out.1 := by
  have L : Lockstep F (Within F own rest t y t₀ y₀ : Alignment ρ σ σ) := Within.lockstep
  have hears : Hears (Within F own rest t y t₀ y₀ : Alignment ρ σ σ) := Within.hears hown hrest
  have hnone := Augmentation.tracks_none F (Within F own rest t y t₀ y₀ : Alignment ρ σ σ)
  obtain ⟨hnames, hslot⟩ := hc
  cases c with
  | insert aug id compare =>
    obtain rfl := hbare
    have hid : id ∈ F := hnames id (List.mem_singleton_self id)
    have hcompare : Comparator.Agrees F (Within F own rest t y t₀ y₀) compare compare :=
      Within.agrees hminds
    exact (L.insertCached hears hnone hcompare hin hid).bind fun _ htree =>
      Guarded.tracks_pure htree
  | link aug vacancy id =>
    obtain rfl := hbare
    have hid : id ∈ F := hnames id (List.mem_singleton_self id)
    exact (L.linkCached hears hnone hin (hslot vacancy.slot id rfl) hid).bind fun _ htree =>
      Guarded.tracks_pure htree
  | delete aug id =>
    obtain rfl := hbare
    have hid : id ∈ F := hnames id (List.mem_singleton_self id)
    exact (L.deleteCached hears hnone hin hid).bind fun _ htree => Guarded.tracks_pure htree
  | replace old new =>
    have hold : old ∈ F := hnames old List.mem_cons_self
    have hnew : new ∈ F := hnames new (List.mem_cons_of_mem old (List.mem_singleton_self new))
    exact (L.replaceCached hears hin hold hnew).bind fun _ htree => Guarded.tracks_pure htree
  | clear =>
    exact (Guarded.tracks_update (L.clearCached hin)).bind fun _ htree => Guarded.tracks_pure htree

/-- So does a call on an interval tree, whose callbacks climb along its own links. -/
theorem tracks_interval {h : IntervalTree} (hin : h.cached.Inside F) {c : IntervalCall}
    (hc : (IntervalCall.plain c : RecordTree.Call ρ σ).Inside F) :
    Guarded.Tracks (Within (ρ := ρ) F own rest t y t₀ y₀) (interval.run h c) (interval.run h c)
      fun out => CachedTree.Inside F (IntervalTree.cached out.1) := by
  have L : Lockstep F (Within F own rest t y t₀ y₀ : Alignment ρ σ σ) := Within.lockstep
  have hears : Hears (Within F own rest t y t₀ y₀ : Alignment ρ σ σ) := Within.hears hown hrest
  have hsum : (reachSummary : Augmentation ρ σ).Tracks F (Within F own rest t y t₀ y₀)
      reachSummary := Within.tracks_reachSummary
  -- The callbacks keep the reaches of records that are in `F`.
  obtain ⟨hnames, -⟩ := hc
  cases c with
  | insert id =>
    have hid : id ∈ F := hnames id (List.mem_singleton_self id)
    have hcompare : Comparator.Agrees F (Within F own rest t y t₀ y₀ : Alignment ρ σ σ)
        (.of compareStart) (.of compareStart) :=
      Within.agrees (Comparator.minds_of own rest compareStart)
    refine Guarded.Tracks.bind ?_ fun _ htree => Guarded.tracks_pure htree
    refine (Guarded.tracks_update (Within.tracks_resetReach hid)).bind fun _ _ => ?_
    exact (L.insertCached hears hsum hcompare hin hid).bind fun _ htree =>
      Guarded.tracks_pure htree
  | delete id =>
    have hid : id ∈ F := hnames id (List.mem_singleton_self id)
    refine Guarded.Tracks.bind ?_ fun _ htree => Guarded.tracks_pure htree
    exact (L.deleteCached hears hsum hin hid).bind fun _ htree => Guarded.tracks_pure htree
  | clear =>
    refine Guarded.Tracks.bind (Guarded.tracks_update ?_) fun _ htree => Guarded.tracks_pure htree
    exact (L.clearCached hin).bind fun _ htree => Update.tracks_pure htree

end Kinds

/-- A call with a handle and records of `F` keeps to `F`. -/
theorem tracks_run (hown : Deaf own) (hrest : Deaf rest) {v : Variety} {h : v.Handle}
    (hin : v.Inside F h) {c : v.Call ρ σ} (hbare : v.Bare c) (hc : (v.toPlain c).Inside F)
    (hminds : (v.toPlain c).Minds own rest) :
    Guarded.Tracks (Within F own rest t y t₀ y₀) (v.run h c) (v.run h c)
      fun out => v.Inside F out.1 := by
  cases v with
  | plain => exact tracks_plain hown hrest hin hc hminds
  | cached => exact tracks_cached hown hrest hin hbare hc hminds
  | interval => exact tracks_interval hown hrest hin hc

end Variety

/-! ### What calls leave alone -/

/-- Stores with the same records are one. -/
theorem Store.eq_of_fetch_eq {s s' : Store ρ} (h : ∀ id, s'.fetch id = s.fetch id) : s' = s := by
  have hiff : ∀ id, id < s'.size ↔ id < s.size := by
    intro id
    have hid := h id
    unfold fetch at hid
    split_ifs at hid <;> simp_all
  refine Array.ext ?_ fun id hid' hid => ?_
  · exact Nat.le_antisymm (Nat.le_of_not_lt fun hlt => absurd ((hiff _).mp hlt) (Nat.lt_irrefl _))
      (Nat.le_of_not_lt fun hlt => absurd ((hiff _).mpr hlt) (Nat.lt_irrefl _))
  · have heq := h id
    rw [fetch_of_lt hid', fetch_of_lt hid] at heq
    exact Except.ok.inj heq

/-- A record that has kept all but its node and its reach. -/
theorem Store.exists_fetch_of_span [Spanned ρ κ] [LawfulSpanned ρ] {s s' : Store ρ}
    (h : Payloads.span s'.payload = Payloads.span s.payload) {id : RecordId} {r : ρ}
    (hr : s.fetch id = .ok r) :
    ∃ node reach, s'.fetch id = .ok (Spanned.withEntry r { Spanned.entry r with node, reach }) := by
  have hspan := congrFun h id
  cases hr' : s'.fetch id with
  | error e => simp [Payloads.span, payload, hr, hr', Functor.map, Except.map] at hspan
  | ok r' =>
    simp only [Payloads.span, payload, hr, hr', Functor.map, Except.map, Except.ok.injEq,
      Linked.withNode, LawfulSpanned.entry_withEntry, LawfulSpanned.withEntry_withEntry] at hspan
    have hentry := congrArg Spanned.entry hspan
    simp only [LawfulSpanned.entry_withEntry, Entry.mk.injEq] at hentry
    -- Both records become one with the interval that the later one has.
    have hrecord := congrArg (Spanned.withEntry · (Spanned.entry r')) hspan
    simp only [LawfulSpanned.withEntry_withEntry, LawfulSpanned.withEntry_entry] at hrecord
    refine ⟨(Spanned.entry r').node, (Spanned.entry r').reach, congrArg _ (hrecord.trans ?_)⟩
    show _ = Spanned.withEntry r ⟨_, (Spanned.entry r).start, (Spanned.entry r).stop, _⟩
    rw [← hentry.2.1, ← hentry.2.2.1]

/-- A node that a call does not name stays in its tree, or out of it, unless the tree is cleared. -/
theorem Variety.Settles.state_eq [Spanned ρ κ] [LinearOrder κ] {f : Forest ι ρ σ}
    {shapes : ι → Shape} {i : ι} {v : Variety} {c : RecordTree.Call ρ σ} {h : v.Handle}
    {s : Store ρ} {shape : Shape} (hs : v.Settles f shapes i c h s shape) (hf : f.Shaped shapes)
    {id : RecordId} {n n' : Node} (hn : f.store.node id = .ok n) (hn' : s.node id = .ok n') :
    n'.state = n.state ∨ id ∈ c.args ∨ c = .clear ∧ id ∈ (shapes i).inorder := by
  have hmem := hs.mem_iff (hf.keeps i).nodup id
  by_cases hargs : id ∈ c.args
  · exact .inr (.inl hargs)
  have hputs : id ∉ c.puts := fun hin => hargs (Call.mem_args_of_puts hin)
  by_cases hold : id ∈ (shapes i).inorder
  · by_cases hremoves : c.Removes id
    · have hclear := (Call.mem_args_of_removes hremoves).resolve_left hargs
      exact .inr (.inr ⟨hclear, hold⟩)
    · -- It is a node before and after.
      have hnew : id ∈ shape.inorder := hmem.mpr (.inr ⟨hold, hremoves⟩)
      left
      rw [hs.settled.keeps.state_eq hnew hn', (hf.keeps i).state_eq hold hn]
  · -- It is not one of the tree at any time, so that it is as it was.
    have hnew : id ∉ shape.inorder := by
      intro hin
      exact (hmem.mp hin).elim hputs fun hin => hold hin.1
    left
    rw [hs.settled.frame id hold hnew] at hn'
    rw [Except.ok.inj (hn'.symm.trans hn)]

namespace Grove

section General

variable [Spanned ρ κ] {kind : ι → Variety} {f f' : Grove kind ρ σ} {shapes : ι → Shape} {i j : ι}

/-- What a call through the handle at `i` can change: the records of its tree, and those that it
names and that are in no tree. -/
def Touches (f : Grove kind ρ σ) (i : ι) (c : Call ρ σ) (id : RecordId) : Prop :=
  f.Holds i id ∨ id ∈ c.args ∧ f.forest.Free id

/-- What a call through the handle at `i` leaves alone: all records but those of its tree and those
that it names, what records hold besides their nodes and reaches, and whether records are linked
that it does not name, unless it clears its tree. -/
structure Confines (f : Grove kind ρ σ) (i : ι) (c : Call ρ σ) (f' : Grove kind ρ σ) : Prop where
  size_eq : f'.store.size = f.store.size
  fetch_eq : ∀ id, ¬ f.Holds i id → id ∉ c.args → f'.store.fetch id = f.store.fetch id
  exists_fetch : ∀ id r, f.store.fetch id = .ok r → ∃ node reach,
    f'.store.fetch id = .ok (Spanned.withEntry r { Spanned.entry r with node, reach })
  state_eq : ∀ id n n', f.store.node id = .ok n → f'.store.node id = .ok n' →
    n'.state = n.state ∨ id ∈ c.args ∨ c = .clear ∧ f.Holds i id

/-- The calls are through two handles, they do not name the same records, and neither names one that
the other tree has. -/
structure Apart (f : Grove kind ρ σ) (i j : ι) (c d : Call ρ σ) : Prop where
  ne : i ≠ j
  names : c.args.Disjoint d.args
  left : ∀ id ∈ c.args, ¬ f.Holds j id
  right : ∀ id ∈ d.args, ¬ f.Holds i id

/-- Two calls that are apart are so in either order. -/
theorem Apart.symm {c d : Call ρ σ} (h : f.Apart i j c d) : f.Apart j i d c :=
  ⟨h.ne.symm, h.names.symm, h.right, h.left⟩

variable [LinearOrder κ] (h : f.Kept shapes)
include h

/-- A call touches nothing of another tree. -/
theorem Kept.not_touches (hij : i ≠ j) (c : Call ρ σ) {id : RecordId}
    (hid : id ∈ (shapes i).inorder) : ¬ f.Touches j c id := by
  rintro (hholds | ⟨-, hfree⟩)
  · exact h.shaped.apart i j hij hid (h.holds_iff.mp hholds)
  · exact hfree i (h.holds_iff.mpr hid)

/-- Calls that are apart touch none of the same records. -/
theorem Kept.not_touches_of_apart {c d : Call ρ σ} (hapart : f.Apart i j c d) {id : RecordId}
    (hid : f.Touches i c id) : ¬ f.Touches j d id := by
  rcases hid with hholds | ⟨hin, -⟩
  · exact h.not_touches hapart.ne d (h.holds_iff.mp hholds)
  · rintro (hholds | ⟨hin', -⟩)
    · exact hapart.left id hin hholds
    · exact hapart.names hin hin'

/-- Links do not lead to what a call touches, but from there. -/
theorem Kept.inside {c : Call ρ σ} {id : RecordId} {n : Node} (hid : ¬ f.Touches i c id)
    (hn : f.store.node id = .ok n) : n.Inside {j | ¬ f.Touches i c j} := by
  by_cases hstate : n.state = .linked
  · obtain ⟨k, hk⟩ := (h.shaped.linked_iff id n hn).mp hstate
    have hki : k ≠ i := by
      rintro rfl
      exact hid (.inl (h.holds_iff.mpr hk))
    exact ((h.shaped.keeps k).node_inside hk hn).mono fun _ hj => h.not_touches hki c hj
  · rw [h.shaped.bare id n hn hstate]
    exact ⟨inside_none, inside_none, inside_none⟩

/-- All that a handle names is what calls on other trees do not touch. -/
theorem Kept.handle_inside (hij : i ≠ j) (c : Call ρ σ) :
    (kind i).Inside {id | ¬ f.Touches j c id} (f.handles i) := by
  exact Variety.Keeps.inside (h.shaped.keeps i).toHasShape (h.keeps i) fun _ hid =>
    h.not_touches hij c hid

section Step

variable [LawfulSpanned ρ] [DecidableEq ι] {c : (kind i).Call ρ σ}
  {out : Except Rejection (Option Nat)}

/-- A call changes nothing that it does not touch. -/
theorem Kept.fetch_eq (hout : f.Outcome shapes i c out f') {id : RecordId}
    (hid : ¬ f.Touches i ((kind i).toPlain c) id) : f'.store.fetch id = f.store.fetch id := by
  cases out with
  | ok answer =>
    obtain ⟨handle, shape, hs, -⟩ := hout
    have hold : id ∉ (shapes i).inorder := fun hin => hid (.inl (h.holds_iff.mpr hin))
    refine hs.fetch_eq hold ?_
    intro hnew
    refine hid (.inr ?_)
    obtain ⟨n, hn, hstate⟩ := hs.fresh id hnew hold
    -- A node that was not in the tree before was put in by the call, out of no tree.
    have hmem := (hs.mem_iff (h.shaped.keeps i).nodup id).mp hnew
    have hputs := hmem.resolve_right fun hin => hold hin.1
    exact ⟨Call.mem_args_of_puts hputs, (h.shaped.free_iff hn).mpr hstate⟩
  | error r =>
    obtain ⟨hstore, -⟩ := hout
    rw [hstore]

omit h [LawfulSpanned ρ] in
/-- A permitted call neither adds nor removes records. -/
theorem size_eq_of_outcome (hout : f.Outcome shapes i c out f') : f'.store.size = f.store.size := by
  cases out with
  | ok answer =>
    obtain ⟨handle, shape, hs, -⟩ := hout
    exact hs.settled.size
  | error r =>
    obtain ⟨hstore, -⟩ := hout
    rw [hstore]

/-- What a permitted call leaves is confined to its tree and to what it names. -/
theorem Kept.confines (hout : f.Outcome shapes i c out f') :
    f.Confines i ((kind i).toPlain c) f' where
  size_eq := size_eq_of_outcome hout
  fetch_eq id hholds hargs := by
    refine h.fetch_eq hout ?_
    rintro (hin | ⟨hin, -⟩)
    · exact hholds hin
    · exact hargs hin
  exists_fetch id r hr := by
    cases out with
    | ok answer =>
      obtain ⟨handle, shape, hs, -⟩ := hout
      exact Store.exists_fetch_of_span hs.resummed.span_eq hr
    | error e =>
      obtain ⟨hstore, -⟩ := hout
      exact Store.exists_fetch_of_span (by rw [hstore]) hr
  state_eq id n n' hn hn' := by
    cases out with
    | ok answer =>
      obtain ⟨handle, shape, hs, -⟩ := hout
      refine (hs.state_eq h.shaped hn hn').imp_right (Or.imp_right fun hclear => ?_)
      exact ⟨hclear.1, h.holds_iff.mpr hclear.2⟩
    | error e =>
      obtain ⟨hstore, -⟩ := hout
      rw [hstore] at hn'
      exact .inl (congrArg Node.state (Except.ok.inj (hn'.symm.trans hn)))

/-! ### Calls that are apart -/

variable [Listener σ] {d : (kind j).Call ρ σ} {own : σ → α} {rest : σ → β}

omit h [LawfulSpanned ρ] in
/-- A call changes no other handle. -/
theorem handle_eq_of_call (hcall : f.call i c = .ok (out, f')) {k : ι} (hk : k ≠ i) :
    f'.handles k = f.handles k := by
  obtain ⟨⟨⟨outcome, s⟩, x⟩, -, hout⟩ := except_bind_eq_ok.mp hcall
  cases outcome with
  | ok o =>
    cases hout
    exact Function.update_of_ne hk _ _
  | error r =>
    cases hout
    rfl

omit [LawfulSpanned ρ] [DecidableEq ι] [Listener σ] in
/-- A call names nothing that one touches that is apart from it. -/
theorem Kept.call_inside (hc : f.Permits i c)
    (hapart : f.Apart i j ((kind i).toPlain c) ((kind j).toPlain d)) :
    ((kind i).toPlain c).Inside {id | ¬ f.Touches j ((kind j).toPlain d) id} := by
  constructor
  · intro id hid
    rintro (hholds | ⟨hin, -⟩)
    · exact hapart.left id hid hholds
    · exact hapart.names hid hin
  · -- A slot that is vacant is under a node of the call's own tree.
    intro slot id hlink parent hparent
    have hsuits := hc.2
    rw [hlink] at hsuits
    have hvacant := hsuits.2
    rw [Forest.Vacant, hparent] at hvacant
    exact h.not_touches hapart.ne _ (h.holds_iff.mp hvacant.1)

/-- A call that is permitted comes to the same end in a state that differs from `f` in what another
call touches. -/
theorem Kept.follows (hc : f.Permits i c)
    (hapart : f.Apart i j ((kind i).toPlain c) ((kind j).toPlain d)) (hown : Deaf own)
    (hrest : Deaf rest) (hminds : ((kind i).toPlain c).Minds own rest)
    (hcall : f.call i c = .ok (out, f')) {g : Grove kind ρ σ}
    (hsize : g.store.size = f.store.size)
    (hfetch : ∀ id, ¬ f.Touches j ((kind j).toPlain d) id → g.store.fetch id = f.store.fetch id)
    (hhandle : g.handles i = f.handles i) (hcontext : own g.context = own f.context) :
    ∃ g', g.call i c = .ok (out, g') ∧ g'.handles i = f'.handles i ∧
      Within {id | ¬ f.Touches j ((kind j).toPlain d) id} own rest f.store f.context g.store
        g.context f'.store f'.context g'.store g'.context := by
  have hbegin : Within {id | ¬ f.Touches j ((kind j).toPlain d) id} own rest f.store f.context
      g.store g.context f.store f.context g.store g.context :=
    ⟨hsize, hfetch, fun _ hid _ hn => h.inside hid hn, fun _ _ => rfl, fun _ _ => rfl, hcontext,
      rfl, rfl⟩
  -- The run in `f` is followed by one in `g` that keeps to what the other call does not touch.
  obtain ⟨⟨⟨outcome, s⟩, x⟩, hrun, hout⟩ := except_bind_eq_ok.mp hcall
  obtain ⟨outcome₀, s₀, x₀, hrun₀, heq, hend, -⟩ := Variety.tracks_run hown hrest
    (h.handle_inside hapart.ne _) hc.1 (h.call_inside hc hapart) hminds f.store f.context g.store
    g.context hbegin outcome s x hrun
  subst heq
  rw [← hhandle] at hrun₀
  cases outcome₀ with
  | ok o =>
    cases hout
    refine ⟨_, except_bind_eq_ok.mpr ⟨_, hrun₀, rfl⟩, ?_, hend⟩
    simp
  | error r =>
    cases hout
    exact ⟨_, except_bind_eq_ok.mpr ⟨_, hrun₀, rfl⟩, hhandle, hend⟩

/-- A call leaves the rest of the context as it is. -/
theorem Kept.rest_eq (hc : f.Permits i c)
    (hapart : f.Apart i j ((kind i).toPlain c) ((kind j).toPlain d)) (hown : Deaf own)
    (hrest : Deaf rest) (hminds : ((kind i).toPlain c).Minds own rest)
    (hcall : f.call i c = .ok (out, f')) : rest f'.context = rest f.context := by
  obtain ⟨_, -, -, hend⟩ := h.follows hc hapart hown hrest hminds hcall rfl (fun _ _ => rfl) rfl rfl
  exact hend.rest_eq

/-- Calls that are apart commute: in either order, each of them returns what it returns alone, and
the stores and the handles at the end are the same. So are the parts of the context. -/
theorem Kept.commute (hc : f.Permits i c) (hd : f.Permits j d)
    (hapart : f.Apart i j ((kind i).toPlain c) ((kind j).toPlain d)) (hown : Deaf own)
    (hrest : Deaf rest) (hcminds : ((kind i).toPlain c).Minds own rest)
    (hdminds : ((kind j).toPlain d).Minds rest own) :
    ∃ outc outd f₁ f₂ g₁ g₂, f.call i c = .ok (outc, f₁) ∧ f₁.call j d = .ok (outd, g₁) ∧
      f.call j d = .ok (outd, f₂) ∧ f₂.call i c = .ok (outc, g₂) ∧
      g₂.store = g₁.store ∧ g₂.handles = g₁.handles ∧
      own g₂.context = own g₁.context ∧ rest g₂.context = rest g₁.context := by
  obtain ⟨outc, f₁, hcall₁, hout₁⟩ := h.returns_call hc
  obtain ⟨outd, f₂, hcall₂, hout₂⟩ := h.returns_call hd
  have hfetch₁ : ∀ id, ¬ f.Touches i ((kind i).toPlain c) id →
      f₁.store.fetch id = f.store.fetch id := fun _ hid => h.fetch_eq hout₁ hid
  have hfetch₂ : ∀ id, ¬ f.Touches j ((kind j).toPlain d) id →
      f₂.store.fetch id = f.store.fetch id := fun _ hid => h.fetch_eq hout₂ hid
  -- The second call after the first one, in either order.
  obtain ⟨g₂, hafter₂, hhandle₂, hend₂⟩ := h.follows hc hapart hown hrest hcminds hcall₁
    (size_eq_of_outcome hout₂) hfetch₂ (handle_eq_of_call hcall₂ hapart.ne)
    (h.rest_eq hd hapart.symm hrest hown hdminds hcall₂)
  obtain ⟨g₁, hafter₁, hhandle₁, hend₁⟩ := h.follows hd hapart.symm hrest hown hdminds hcall₂
    (size_eq_of_outcome hout₁) hfetch₁ (handle_eq_of_call hcall₁ hapart.ne.symm)
    (h.rest_eq hc hapart hown hrest hcminds hcall₁)
  refine ⟨outc, outd, f₁, f₂, g₁, g₂, hcall₁, hafter₁, hcall₂, hafter₂, ?_, ?_, ?_, ?_⟩
  · -- A record is what the one call made of it that touches it, if any does.
    refine Store.eq_of_fetch_eq fun id => ?_
    by_cases htouches : f.Touches j ((kind j).toPlain d) id
    · rw [hend₂.frame₀ id (not_not_intro htouches),
        hend₁.fetch_eq id (h.not_touches_of_apart hapart.symm htouches)]
    · rw [hend₂.fetch_eq id htouches]
      by_cases htouches' : f.Touches i ((kind i).toPlain c) id
      · rw [hend₁.frame₀ id (not_not_intro htouches')]
      · rw [hend₁.fetch_eq id htouches', hfetch₁ id htouches', hfetch₂ id htouches]
  · -- Each call changes its own handle only.
    refine funext fun k => ?_
    by_cases hki : k = i
    · subst hki
      rw [hhandle₂, handle_eq_of_call hafter₁ hapart.ne]
    · rw [handle_eq_of_call hafter₂ hki]
      by_cases hkj : k = j
      · subst hkj
        rw [hhandle₁]
      · rw [handle_eq_of_call hcall₂ hkj, handle_eq_of_call hafter₁ hkj,
          handle_eq_of_call hcall₁ hki]
  · exact hend₂.own_eq.trans hend₁.rest_eq₀.symm
  · exact hend₂.rest_eq₀.trans hend₁.own_eq.symm

omit h in
/-- In every reachable state no record is in two trees, and a permitted call returns and confines
itself to its tree and the records that it names. Two calls through different handles commute if
they name different records, and none that the other's tree has. Their comparators may use the
caller's context, each its own part. -/
theorem calls_apart (h : f.Reachable) :
    (∀ i j id, i ≠ j → f.Holds i id → ¬ f.Holds j id) ∧
    (∀ i (c : (kind i).Call ρ σ), f.Permits i c →
      ∃ out f', f.call i c = .ok (out, f') ∧ f.Confines i ((kind i).toPlain c) f') ∧
    ∀ i j (c : (kind i).Call ρ σ) (d : (kind j).Call ρ σ), f.Permits i c → f.Permits j d →
      f.Apart i j ((kind i).toPlain c) ((kind j).toPlain d) →
      ∀ (α β : Type) (own : σ → α) (rest : σ → β), Deaf own → Deaf rest →
        ((kind i).toPlain c).Minds own rest → ((kind j).toPlain d).Minds rest own →
        ∃ outc outd f₁ f₂ g₁ g₂, f.call i c = .ok (outc, f₁) ∧ f₁.call j d = .ok (outd, g₁) ∧
          f.call j d = .ok (outd, f₂) ∧ f₂.call i c = .ok (outc, g₂) ∧
          g₂.store = g₁.store ∧ g₂.handles = g₁.handles ∧
          own g₂.context = own g₁.context ∧ rest g₂.context = rest g₁.context := by
  obtain ⟨shapes, hkept⟩ := h.exists_kept
  refine ⟨fun i j id hij hi hj => ?_, fun i c hc => ?_, ?_⟩
  · exact hkept.shaped.apart i j hij (hkept.holds_iff.mp hi) (hkept.holds_iff.mp hj)
  · obtain ⟨out, f', hcall, hout⟩ := hkept.returns_call hc
    exact ⟨out, f', hcall, hkept.confines hout⟩
  · intro i j c d hc hd hapart α β own rest hown hrest hcminds hdminds
    exact hkept.commute hc hd hapart hown hrest hcminds hdminds

end Step

end General

/-- The tree at `true` is one of intervals, and the other one is plain. -/
def sampleKind : Bool → Variety
  | true => .interval
  | false => .plain

/-- Three intervals that are in no tree. -/
def sampleBare : Grove sampleKind (Entry Nat) Unit where
  store := #[.of 1 5, .of 2 3, .of 0 9]
  handles i := (sampleKind i).empty
  context := ()

/-- The intervals of `sampleBare` when the first one is in the tree at `true`. -/
def sampleHalf : Grove sampleKind (Entry Nat) Unit where
  store := #[⟨{ color := .black, state := .linked }, 1, 5, 5⟩, .of 2 3, .of 0 9]
  handles := Function.update sampleBare.handles true (⟨⟨⟨some 0⟩, some 0⟩⟩ : IntervalTree)
  context := ()

/-- The intervals of `sampleBare` when the first one is in the tree at `true`, and the last one in
the other tree. -/
def sample : Grove sampleKind (Entry Nat) Unit where
  store := #[⟨{ color := .black, state := .linked }, 1, 5, 5⟩, .of 2 3,
    ⟨{ color := .black, state := .linked }, 0, 9, 9⟩]
  handles := Function.update sampleHalf.handles false (⟨some 2⟩ : Tree)
  context := ()

/-- Two empty handles over new intervals are where a run starts. -/
theorem reachable_sampleBare : sampleBare.Reachable :=
  .start (Store.forall_node (by decide)) fun _ => rfl

/-- The first interval becomes the root of the tree at `true`. -/
theorem sampleBare_insert :
    sampleBare.call true (IntervalCall.insert 0) = .ok (.ok none, sampleHalf) :=
  rfl

/-- The last interval becomes the root of the other tree. -/
theorem sampleHalf_insert :
    sampleHalf.call false (Call.insert 2 (.of compareStart)) = .ok (.ok none, sample) :=
  rfl

/-- Two insertions, one through each handle, lead to `sample`. -/
theorem reachable_sample : sample.Reachable := by
  have hpermits : sampleBare.Permits true (IntervalCall.insert 0) :=
    ⟨trivial, show 0 < 3 by decide⟩
  have hpermits' : sampleHalf.Permits false (Call.insert 2 (.of compareStart)) :=
    ⟨trivial, show 2 < 3 by decide⟩
  exact (reachable_sampleBare.call hpermits sampleBare_insert).call hpermits' sampleHalf_insert

/-- An insertion into the one tree and a deletion from the other one commute. -/
theorem commute_sample : ∃ outc outd f₁ f₂ g₁ g₂,
    sample.call true (IntervalCall.insert 1) = .ok (outc, f₁) ∧
      f₁.call false (Call.delete 2) = .ok (outd, g₁) ∧
      sample.call false (Call.delete 2) = .ok (outd, f₂) ∧
      f₂.call true (IntervalCall.insert 1) = .ok (outc, g₂) ∧
      g₂.store = g₁.store ∧ g₂.handles = g₁.handles := by
  have hholds : sample.Holds false 2 := .here rfl
  have hinsert : sample.Permits true (IntervalCall.insert 1) := ⟨trivial, show 1 < 3 by decide⟩
  have hdelete : sample.Permits false (Call.delete 2) :=
    ⟨trivial, show 2 < 3 by decide, fun _ => hholds⟩
  obtain ⟨hone, -, hcommute⟩ := calls_apart reachable_sample
  have hapart : sample.Apart true false (.insert 1 (.of compareStart)) (.delete 2) := by
    refine ⟨by decide, by simp [Call.args], ?_, ?_⟩
    · intro id hid
      obtain rfl := List.mem_singleton.mp hid
      rintro (_ | ⟨side, hn, hreach⟩)
      cases hn
      cases side <;> cases hreach
    · intro id hid hin
      obtain rfl := List.mem_singleton.mp hid
      exact hone true false 2 (by decide) hin hholds
  obtain ⟨outc, outd, f₁, f₂, g₁, g₂, hc, hcd, hd, hdc, hstore, hhandles, -, -⟩ :=
    hcommute true false (IntervalCall.insert 1) (Call.delete 2) hinsert hdelete hapart Unit Unit id
      id (fun _ _ => rfl) (fun _ _ => rfl) (Comparator.minds_of id id compareStart) trivial
  exact ⟨outc, outd, f₁, f₂, g₁, g₂, hc, hcd, hd, hdc, hstore, hhandles⟩

end Grove

end RecordTree
