import RecordTree.Proofs.Grove.Basic

/-!
# `RecordTree.Proofs.Grove.Invariant`: what every run of calls on trees of all kinds keeps

`Grove.Kept` is the invariant of a grove: the plain trees in the handles are a forest in order
(`Forest.Shaped`), a cache names a node of its tree if any, and an interval tree keeps what interval
trees keep.

All calls are alike to it. `Variety.Settles` says what one does that no guard turns down: it takes
the nodes of its tree somewhere else, puts in and takes out no other records than those that it
names, and changes no more of a record than its node and its reach.

* `Variety.settles_call`: each call on each kind of tree settles, or a guard turns it down.
* `Grove.Kept.returns_call`: the step. A permitted call returns, and the invariant holds again.
* `Grove.Reachable.exists_kept`: the run.
-/

set_option autoImplicit false

namespace RecordTree

variable {ι ρ σ κ : Type}

/-- What is turned down leaves the store as it was. -/
theorem Guarded.Returns.silently {α : Type} {g : Guarded ρ σ α} {s : Store ρ} {x : σ}
    {Q : α → Store ρ → σ → Prop} {R : Rejection → Store ρ → σ → Prop} (h : g.Returns s x Q R)
    (hg : g.RejectsSilently) : g.Returns s x Q fun r s' x' => R r s' x' ∧ s' = s := by
  obtain ⟨outcome, s', x', hrun, hout⟩ := h
  refine ⟨outcome, s', x', hrun, ?_⟩
  cases outcome with
  | ok a => exact hout
  | error r => exact ⟨hout, hg s x r s' x' hrun⟩

/-! ### Calls on plain trees -/

/-- The records that the call is to put in. -/
def Call.puts : Call ρ σ → List RecordId
  | insert id _ | link _ id | replace _ id => [id]
  | delete _ | clear => []

/-- The call is to take out the record. -/
def Call.Removes : Call ρ σ → RecordId → Prop
  | delete id, j | replace id _, j => j = id
  | clear, _ => True
  | insert _ _, _ | link _ _, _ => False

/-- What a call is to put in, it names. -/
theorem Call.mem_args_of_puts {c : Call ρ σ} {j : RecordId} (h : j ∈ c.puts) : j ∈ c.args := by
  cases c <;> simp_all [puts, args]

/-- What a call is to take out, it names, unless it is a clearing. -/
theorem Call.mem_args_of_removes {c : Call ρ σ} {j : RecordId} (h : c.Removes j) :
    j ∈ c.args ∨ c = .clear := by
  cases c <;> simp_all [Removes, args]

/-- Where a call takes the nodes of its tree, it leaves those that it does not take out, and puts in
those that it is to put in. -/
theorem Call.Takes.mem_iff {s : Store ρ} {c : Call ρ σ} {old new : List RecordId}
    (h : c.Takes s old new) (hold : old.Nodup) (j : RecordId) :
    j ∈ new ↔ j ∈ c.puts ∨ j ∈ old ∧ ¬ c.Removes j := by
  cases c with
  | insert id compare =>
    obtain ⟨l, r, rfl, rfl, -⟩ := h
    simp [puts, Removes]
    tauto
  | link slot id =>
    obtain ⟨parent, side⟩ := slot
    cases parent with
    | none =>
      obtain ⟨rfl, rfl⟩ := h
      simp [puts]
    | some parent =>
      cases side with
      | left =>
        obtain ⟨l, r, rfl, rfl⟩ := h
        simp [puts, Removes]
        tauto
      | right =>
        obtain ⟨l, r, rfl, rfl⟩ := h
        simp [puts, Removes]
        tauto
  | delete id =>
    obtain ⟨l, r, rfl, rfl⟩ := h
    have hout := notMem_of_nodup_middle hold
    have hne : j ∈ l ++ r → j ≠ id := fun hj => ne_of_mem_of_not_mem hj hout
    simp [puts, Removes] at hne ⊢
    tauto
  | replace out id =>
    obtain ⟨l, r, rfl, rfl⟩ := h
    have hout := notMem_of_nodup_middle hold
    have hne : j ∈ l ++ r → j ≠ out := fun hj => ne_of_mem_of_not_mem hj hout
    simp [puts, Removes] at hne ⊢
    tauto
  | clear =>
    cases h
    simp [puts, Removes]

section Plain

variable [Linked ρ] [LawfulLinked ρ] [Listener σ] {f : Forest ι ρ σ} {shapes : ι → Shape} {i : ι}
  {c : Call ρ σ}

/-- A call that suits the forest settles, or is turned down and leaves the store alone. -/
theorem Forest.Shaped.settles_call (h : f.Shaped shapes) (hc : f.Suits i c) :
    (c.run (f.trees i)).Returns f.store f.context (fun t s _ => f.Settles shapes i c t s)
      fun _ s _ => ¬ f.Admits i c ∧ s = f.store := by
  refine Guarded.Returns.silently ?_ (Call.rejectsSilently (f.trees i) c)
  -- Where no guard turns the call down, it is permitted, and settles. Where one does, it is not.
  cases c with
  | insert id compare => exact h.settles_insert compare hc
  | link slot id => exact h.settles_link hc.1 hc.2
  | delete id =>
    obtain ⟨hid, hlinked⟩ := hc
    obtain ⟨n, hn⟩ := Store.exists_node_of_lt hid
    rw [Store.isLinked_of_node hn, decide_eq_true_eq] at hlinked
    by_cases hstate : n.state = .linked
    · exact h.settles_delete (hlinked hstate)
    · refine (Tree.rejects_deleteWith hn hstate).mono (fun _ _ _ hf => hf.elim)
        fun _ _ _ _ hholds => ?_
      exact hstate ((h.linked_iff id n hn).mpr ⟨i, h.holds_iff.mp hholds⟩)
  | replace old new =>
    obtain ⟨hold, hnew, hlinked⟩ := hc
    obtain ⟨n, hn⟩ := Store.exists_node_of_lt hold
    obtain ⟨m, hm⟩ := Store.exists_node_of_lt hnew
    rw [Store.isLinked_of_node hn, Store.isLinked_of_node hm, decide_eq_true_eq,
      decide_eq_true_eq] at hlinked
    by_cases hguards : n.state ≠ .linked ∨ m.state = .linked
    · refine (Tree.rejects_replace hn hm hguards).mono (fun _ _ _ hf => hf.elim)
        fun _ _ _ _ hadmits => ?_
      rcases hguards with hstate | hstate
      · exact hstate ((h.linked_iff old n hn).mpr ⟨i, h.holds_iff.mp hadmits.1⟩)
      · exact (h.free_iff hm).mp hadmits.2.2 hstate
    · rw [not_or, not_not] at hguards
      exact h.settles_replace ((hlinked hguards.1).resolve_left hguards.2) hnew
  | clear => exact h.settles_clear

end Plain

/-! ### Calls on cached trees -/

/-- What comes next behind a node, if anything, is another node of the tree. -/
theorem Tree.Keeps.exists_next [Linked ρ] {t : Tree} {s : Store ρ} {shape : Shape}
    (h : t.Keeps s shape) {id : RecordId} (hid : id ∈ shape.inorder) :
    ∃ next, s.next id = .ok next ∧ ∀ j ∈ next, j ∈ shape.inorder ∧ j ≠ id := by
  obtain ⟨l, r, hlist⟩ := List.append_of_mem hid
  refine ⟨r.head?, h.next_eq hlist, fun j hj => ?_⟩
  have hr : j ∈ l ++ r := List.mem_append_right l (List.mem_of_head? hj)
  have hnodup := h.nodup
  rw [hlist] at hnodup ⊢
  -- Nodes are listed once, so that none behind `id` is `id`.
  have hout := notMem_of_nodup_middle hnodup
  exact ⟨List.perm_middle.mem_iff.mpr (.tail id hr), ne_of_mem_of_not_mem hr hout⟩

namespace CachedTree

variable [Linked ρ] [Listener σ] {aug : Augmentation ρ σ} {t : CachedTree} {s : Store ρ} {x : σ}
  {id : RecordId} {Q : Tree → Store ρ → σ → Prop} {R : Rejection → Store ρ → σ → Prop}

/-- A node that is linked is first afterwards, or the node that was is. -/
theorem returns_linkWith_of_tree {vacancy : Vacancy}
    (h : (t.tree.linkWith aug vacancy.slot id).Returns s x Q R) :
    (t.linkWith aug vacancy id).Returns s x
      (fun t' s' x' => Q t'.tree s' x' ∧ ∀ j ∈ t'.leftmost, j = id ∨ j ∈ t.leftmost) R := by
  rw [linkWith, Guarded.returns_bind]
  refine h.mono (fun tree s' x' hQ => Guarded.returns_pure.mpr ⟨hQ, ?_⟩) fun _ _ _ hR => hR
  intro j hj
  dsimp only at hj
  split_ifs at hj
  · exact .inl (Option.mem_some_iff.mp hj).symm
  · exact .inr hj

/-- An insertion into a cached tree does to the tree inside what it does there. The cache keeps its
node or takes the new one. -/
theorem returns_insertWith_of_tree {compare : Comparator ρ σ}
    (h : (t.tree.insertWith aug id compare).Returns s x Q R) :
    (t.insertWith aug id compare).Returns s x
      (fun t' s' x' => Q t'.tree s' x' ∧ ∀ j ∈ t'.leftmost, j = id ∨ j ∈ t.leftmost) R := by
  rw [Tree.insertWith, Guarded.returns_bind] at h
  rw [insertWith, Guarded.returns_bind]
  exact h.mono (fun vacancy s' x' hlink => returns_linkWith_of_tree hlink) fun _ _ _ hR => hR

/-- A replacement in a cached tree does to the tree inside what it does there. The cache does not
name the old node any more. -/
theorem returns_replace_of_tree {old new : RecordId}
    (h : (t.tree.replace old new).Returns s x Q R) :
    (t.replace old new).Returns s x
      (fun t' s' x' => Q t'.tree s' x' ∧ ∀ j ∈ t'.leftmost, j = new ∨ j ∈ t.leftmost ∧ j ≠ old)
      R := by
  rw [replace, Guarded.returns_bind]
  refine h.mono (fun tree s' x' hQ => Guarded.returns_pure.mpr ⟨hQ, ?_⟩) fun _ _ _ hR => hR
  intro j hj
  dsimp only at hj
  split_ifs at hj with hold
  · exact .inl (Option.mem_some_iff.mp hj).symm
  · refine .inr ⟨hj, ?_⟩
    rintro rfl
    exact hold hj

/-- When the first node is deleted, the next one is the first afterwards. -/
theorem returns_deleteWith_of_tree (h : (t.tree.deleteWith aug id).Returns s x Q R)
    (hnext : t.leftmost = some id → ∃ next, s.next id = .ok next) :
    (t.deleteWith aug id).Returns s x
      (fun t' s' x' => Q t'.tree s' x' ∧
        ∀ j ∈ t'.leftmost, t.leftmost = some id ∧ s.next id = .ok (some j) ∨
          j ∈ t.leftmost ∧ j ≠ id) R := by
  unfold deleteWith
  -- If the cached node goes, the cache moves on to the next one. Else it stays.
  by_cases hfirst : t.leftmost = some id
  · obtain ⟨next, heq⟩ := hnext hfirst
    simp only [if_pos hfirst, Guarded.returns_bind, Guarded.returns_update, Update.returns_read]
    refine ⟨next, heq, h.mono (fun tree s' x' hQ => Guarded.returns_pure.mpr ⟨hQ, ?_⟩)
      fun _ _ _ hR => hR⟩
    intro j hj
    left
    rw [heq, show next = some j from hj]
    exact ⟨hfirst, rfl⟩
  · simp only [if_neg hfirst, Guarded.returns_bind]
    refine h.mono (fun tree s' x' hQ => Guarded.returns_pure.mpr ⟨hQ, ?_⟩) fun _ _ _ hR => hR
    intro j hj
    refine .inr ⟨hj, ?_⟩
    rintro rfl
    exact hfirst hj

end CachedTree

/-! ### Calls on trees of all kinds -/

section All

variable [Spanned ρ κ] [LinearOrder κ]

/-- What a handle has to keep besides the plain tree in it. -/
def Variety.Keeps (s : Store ρ) (shape : Shape) : (v : Variety) → v.Handle → Prop
  | plain, _ => True
  | cached, t => ∀ id ∈ CachedTree.leftmost t, id ∈ shape.inorder
  | interval, t => IntervalTree.Keeps t s shape

/-- Empty handles of all kinds keep the empty shape. -/
theorem Variety.keeps_empty (s : Store ρ) (v : Variety) : v.Keeps s .leaf v.empty := by
  cases v with
  | plain => trivial
  | cached => exact nofun
  | interval => exact IntervalTree.keeps_empty s

/-- Only an interval tree keeps something that is about the records. -/
theorem Variety.Keeps.congr [LawfulSpanned ρ] {s s' : Store ρ} {shape : Shape} {v : Variety}
    {h : v.Handle} (hkeeps : v.Keeps s shape h)
    (hs : v = interval → ∀ j ∈ shape.inorder, s'.entry j = s.entry j) : v.Keeps s' shape h := by
  cases v with
  | plain => trivial
  | cached => exact hkeeps
  | interval => exact IntervalTree.Keeps.congr hkeeps (hs rfl)

/-- What a call does that no guard turns down. It takes the tree at `i` to the nodes of `shape`,
which the handle `h` reaches in `s`. -/
structure Variety.Settles (v : Variety) (f : Forest ι ρ σ) (shapes : ι → Shape) (i : ι)
    (c : RecordTree.Call ρ σ) (h : v.Handle) (s : Store ρ) (shape : Shape) : Prop where
  settled : Settled f.store (shapes i).inorder shape.inorder (v.tree h) s shape
  takes : c.Takes f.store (shapes i).inorder shape.inorder
  fresh : ∀ j ∈ shape.inorder, j ∉ (shapes i).inorder →
    ∃ n, f.store.node j = .ok n ∧ n.state ≠ .linked
  resummed : Payloads.Resummed f.store.payload s.payload ((shapes i).inorder ++ shape.inorder)
  /-- Only interval trees have summaries. -/
  payload_eq : v ≠ interval → s.payload = f.store.payload
  keeps : v.Keeps s shape h

namespace Variety

variable [LawfulSpanned ρ] {f : Forest ι ρ σ} {shapes : ι → Shape} {i : ι} {s : Store ρ}

omit [LawfulSpanned ρ] in
/-- What is in the tree after a call. -/
theorem Settles.mem_iff {v : Variety} {c : RecordTree.Call ρ σ} {h : v.Handle} {shape : Shape}
    (hs : v.Settles f shapes i c h s shape) (hold : (shapes i).inorder.Nodup) (j : RecordId) :
    j ∈ shape.inorder ↔ j ∈ c.puts ∨ j ∈ (shapes i).inorder ∧ ¬ c.Removes j :=
  hs.takes.mem_iff hold j

omit [LawfulSpanned ρ] in
/-- What a call settles on the plain tree in a handle, it settles on the tree. -/
theorem Settles.of_plain {v : Variety} {c : RecordTree.Call ρ σ} {h : v.Handle}
    (hsettles : f.Settles shapes i c (v.tree h) s) (hold : (shapes i).inorder.Nodup)
    (hkeeps : ∀ shape : Shape,
      (∀ j, j ∈ shape.inorder ↔ j ∈ c.puts ∨ j ∈ (shapes i).inorder ∧ ¬ c.Removes j) →
      v.Keeps s shape h) : ∃ shape, v.Settles f shapes i c h s shape := by
  obtain ⟨-, hpayload, shape, new, hs, htakes, hnew⟩ := hsettles
  obtain rfl := hs.inorder
  exact ⟨shape, hs, htakes, hnew, hpayload ▸ .refl _ _, fun _ => hpayload,
    hkeeps shape (htakes.mem_iff hold)⟩

variable [Listener σ]

/-- What a call through a handle of the kind does: it settles, or is turned down. -/
def Settling (v : Variety) (f : Forest ι ρ σ) (shapes : ι → Shape) (i : ι) (h : v.Handle)
    (c : v.Call ρ σ) : Prop :=
  (v.run h c).Returns f.store f.context
    (fun out s _ => ∃ shape, v.Settles f shapes i (v.toPlain c) out.1 s shape)
    fun _ s _ => s = f.store

/-- Calls on plain trees settle. -/
theorem settling_plain (hf : f.Shaped shapes) {c : RecordTree.Call ρ σ} (hc : f.Suits i c) :
    plain.Settling f shapes i (f.trees i) c := by
  have hold := (hf.keeps i).nodup
  have hcall := hf.settles_call hc
  unfold Settling
  cases c with
  | clear =>
    simp only [RecordTree.Call.run, run, Guarded.returns_bind, Guarded.returns_update,
      Guarded.returns_pure] at hcall ⊢
    exact hcall.mono fun out s x hs => Settles.of_plain hs hold fun _ _ => trivial
  | insert id compare | link slot id | delete id | replace old new =>
    simp only [run, Guarded.returns_bind, Guarded.returns_pure]
    refine hcall.mono ?_ fun _ _ _ hr => hr.2
    intro t s x hs
    exact Settles.of_plain hs hold fun _ _ => trivial

omit [LawfulSpanned ρ] [Listener σ] in
/-- What a call settles on the tree in a cached one, it settles, if the first node is one that the
call puts in, or one that it leaves. -/
theorem Settles.of_cached {t : CachedTree} {c : RecordTree.Call ρ σ}
    (hsettles : f.Settles shapes i c t.tree s) (hold : (shapes i).inorder.Nodup)
    (hfirst : ∀ j ∈ t.leftmost, j ∈ c.puts ∨ j ∈ (shapes i).inorder ∧ ¬ c.Removes j) :
    ∃ shape, cached.Settles f shapes i c t s shape :=
  Settles.of_plain hsettles hold fun _ hmem j hj => (hmem j).mpr (hfirst j hj)

/-- Calls on cached trees settle, if they make no callbacks. -/
theorem settling_cached (hf : f.Shaped shapes) {t : CachedTree} (htree : f.trees i = t.tree)
    (hfirst : ∀ j ∈ t.leftmost, j ∈ (shapes i).inorder) {c : CachedCall ρ σ} (hbare : c.Bare)
    (hc : f.Suits i c.plain) : cached.Settling f shapes i t c := by
  have hold := (hf.keeps i).nodup
  have hcall := hf.settles_call hc
  rw [htree] at hcall
  unfold Settling
  cases c with
  | insert aug id compare =>
    obtain rfl := hbare
    simp only [run, Guarded.returns_bind, Guarded.returns_pure]
    refine (CachedTree.returns_insertWith_of_tree hcall).mono ?_ fun _ _ _ hr => hr.2
    intro t' s x hs
    refine Settles.of_cached hs.1 hold fun j hj => (hs.2 j hj).imp ?_ fun hin => ?_
    · exact List.mem_singleton.mpr
    · exact ⟨hfirst j hin, not_false⟩
  | link aug vacancy id =>
    obtain rfl := hbare
    simp only [run, Guarded.returns_bind, Guarded.returns_pure]
    refine (CachedTree.returns_linkWith_of_tree hcall).mono ?_ fun _ _ _ hr => hr.2
    intro t' s x hs
    refine Settles.of_cached hs.1 hold fun j hj => (hs.2 j hj).imp ?_ fun hin => ?_
    · exact List.mem_singleton.mpr
    · exact ⟨hfirst j hin, not_false⟩
  | delete aug id =>
    obtain rfl := hbare
    simp only [run, Guarded.returns_bind, Guarded.returns_pure]
    -- The next node is looked up before the deletion, while the tree is still whole.
    have hnext : t.leftmost = some id → ∃ next, f.store.next id = .ok next ∧
        ∀ j ∈ next, j ∈ (shapes i).inorder ∧ j ≠ id := by
      intro hid
      exact (hf.keeps i).exists_next (hfirst id hid)
    refine (CachedTree.returns_deleteWith_of_tree hcall fun hid => ?_).mono ?_ fun _ _ _ hr => hr.2
    · obtain ⟨next, heq, -⟩ := hnext hid
      exact ⟨next, heq⟩
    · intro t' s x hs
      refine Settles.of_cached hs.1 hold fun j hj => .inr ?_
      rcases hs.2 j hj with ⟨hid, hj⟩ | ⟨hin, hne⟩
      · obtain ⟨next, heq, hother⟩ := hnext hid
        exact hother j (Except.ok.inj (heq.symm.trans hj))
      · exact ⟨hfirst j hin, hne⟩
  | replace old new =>
    simp only [run, Guarded.returns_bind, Guarded.returns_pure]
    refine (CachedTree.returns_replace_of_tree hcall).mono ?_ fun _ _ _ hr => hr.2
    intro t' s x hs
    refine Settles.of_cached hs.1 hold fun j hj => (hs.2 j hj).imp ?_ fun hin => ?_
    · exact List.mem_singleton.mpr
    · exact ⟨hfirst j hin.1, hin.2⟩
  | clear =>
    simp only [RecordTree.Call.run, CachedCall.plain, run, CachedTree.clear, Guarded.returns_bind,
      Guarded.returns_update, Guarded.returns_pure, Update.returns_bind,
      Update.returns_pure] at hcall ⊢
    exact hcall.mono fun out s x hs => Settles.of_cached hs hold fun j hj => absurd hj (by simp)

/-- An insertion into an interval tree settles. -/
theorem settling_interval_insert {t : IntervalTree} (hkeeps : t.Keeps f.store (shapes i))
    {id : RecordId} (hid : id < f.store.size) :
    interval.Settling f shapes i t (.insert id : IntervalCall) := by
  obtain ⟨n, hn⟩ := Store.exists_node_of_lt hid
  simp only [Settling, run, IntervalCall.run, Guarded.returns_bind, Guarded.returns_pure]
  refine (IntervalTree.returns_insert hkeeps hn).mono ?_ fun _ _ _ hr => hr.2.2
  intro t' s x hdone
  obtain ⟨hstate, l, r, shape, hlist, hl, hr, hs, hkeeps', hres⟩ := hdone
  have hnew := hs.inorder
  have hmem : ∀ j, j ∈ shape.inorder ↔ j = id ∨ j ∈ (shapes i).inorder := by
    intro j
    rw [hnew, hlist, List.perm_middle.mem_iff, List.mem_cons]
  refine ⟨shape, hnew ▸ hs, ?_, ?_, ?_, absurd rfl, hkeeps'⟩
  · -- An order that the comparator answers by can only be that of the starts.
    refine ⟨l, r, hlist, hnew, fun order hanswers _ => ?_⟩
    obtain rfl : order = compareStart := funext₂ fun a b => (hanswers a b f.context).symm
    exact ⟨hl, hr⟩
  · intro j hj hout
    obtain rfl := ((hmem j).mp hj).resolve_right hout
    exact ⟨n, hn, hstate⟩
  · refine hres.mono fun j hj => List.mem_append_right _ ((hmem j).mpr ?_)
    exact List.mem_cons.mp hj

/-- A deletion from an interval tree settles. -/
theorem settling_interval_delete (hf : f.Shaped shapes) {t : IntervalTree}
    (hkeeps : t.Keeps f.store (shapes i)) {id : RecordId} (hid : id < f.store.size)
    (hholds : f.store.isLinked id → f.Holds i id) :
    interval.Settling f shapes i t (.delete id : IntervalCall) := by
  obtain ⟨n, hn⟩ := Store.exists_node_of_lt hid
  rw [Store.isLinked_of_node hn, decide_eq_true_eq] at hholds
  simp only [Settling, run, IntervalCall.run, Guarded.returns_bind, Guarded.returns_pure]
  by_cases hstate : n.state = .linked
  · obtain ⟨l, r, hlist⟩ := List.append_of_mem (hf.holds_iff.mp (hholds hstate))
    refine (IntervalTree.returns_delete hkeeps hlist).mono ?_ fun _ _ _ hr => hr.elim
    intro t' s x hdone
    obtain ⟨shape, hs, hkeeps', hres⟩ := hdone
    have hnew := hs.inorder
    refine ⟨shape, hnew ▸ hs, ⟨l, r, hlist, hnew⟩, ?_, ?_, absurd rfl, hkeeps'⟩
    · intro j hj hout
      rw [hnew, List.mem_append] at hj
      rw [hlist, List.perm_middle.mem_iff, List.mem_cons, List.mem_append] at hout
      exact absurd (.inr hj) hout
    · exact hres.mono fun j hj => List.mem_append_left _ hj
  · exact (IntervalTree.rejects_delete hkeeps hn hstate).mono (fun _ _ _ hf => hf.elim)
      fun _ _ _ hr => hr.1

/-- Calls on interval trees settle. -/
theorem settling_interval (hf : f.Shaped shapes) {t : IntervalTree}
    (hkeeps : t.Keeps f.store (shapes i)) {c : IntervalCall}
    (hc : f.Suits i (IntervalCall.plain c)) : interval.Settling f shapes i t c := by
  cases c with
  | insert id => exact settling_interval_insert hkeeps hc
  | delete id => exact settling_interval_delete hf hkeeps hc.1 hc.2
  | clear =>
    simp only [Settling, run, Guarded.returns_bind, Guarded.returns_update, Guarded.returns_pure]
    refine (IntervalTree.returns_clear hkeeps).mono ?_
    rintro ⟨t', n⟩ s x ⟨rfl, -, -, hpayload, hs⟩
    exact ⟨.leaf, hs, rfl, fun _ hj => absurd hj List.not_mem_nil, hpayload ▸ .refl _ _,
      absurd rfl, IntervalTree.keeps_empty s⟩

omit [Listener σ] in
/-- A call changes no records but those of its tree, before or after. -/
theorem Settles.fetch_eq {v : Variety} {c : RecordTree.Call ρ σ} {h : v.Handle} {shape : Shape}
    (hs : v.Settles f shapes i c h s shape) {j : RecordId} (hold : j ∉ (shapes i).inorder)
    (hnew : j ∉ shape.inorder) : s.fetch j = f.store.fetch j := by
  refine Store.fetch_congr (hs.settled.frame j hold hnew) (hs.resummed.frame j ?_)
  rw [List.mem_append, not_or]
  exact ⟨hold, hnew⟩

/-- A call on a tree of any kind settles, or is turned down. -/
theorem settling (hf : f.Shaped shapes) {v : Variety} {h : v.Handle} (htree : f.trees i = v.tree h)
    (hkeeps : v.Keeps f.store (shapes i) h) {c : v.Call ρ σ} (hbare : v.Bare c)
    (hc : f.Suits i (v.toPlain c)) : v.Settling f shapes i h c := by
  cases v with
  | plain =>
    have hplain := settling_plain hf hc
    rwa [htree] at hplain
  | cached => exact settling_cached hf htree hkeeps hbare hc
  | interval => exact settling_interval hf hkeeps hc

end Variety

/-! ### The invariant -/

namespace Grove

variable [LawfulSpanned ρ] {kind : ι → Variety} {f : Grove kind ρ σ} {shapes : ι → Shape} {i : ι}

/-- The handles' plain trees are a forest in order, and each handle keeps what its kind keeps. -/
structure Kept (f : Grove kind ρ σ) (shapes : ι → Shape) : Prop where
  shaped : f.forest.Shaped shapes
  keeps : ∀ i, (kind i).Keeps f.store (shapes i) (f.handles i)

omit [LawfulSpanned ρ] in
/-- Each tree of a grove has exactly the nodes of its shape. -/
theorem Kept.holds_iff (h : f.Kept shapes) {id : RecordId} :
    f.Holds i id ↔ id ∈ (shapes i).inorder :=
  h.shaped.holds_iff

variable [DecidableEq ι]

omit [LinearOrder κ] [LawfulSpanned ρ] in
/-- A changed handle changes one of the plain trees. -/
theorem forest_update (f : Grove kind ρ σ) (i : ι) (handle : (kind i).Handle) (s : Store ρ)
    (x : σ) : forest (⟨s, Function.update f.handles i handle, x⟩ : Grove kind ρ σ) =
      ⟨s, Function.update f.forest.trees i ((kind i).tree handle), x⟩ := by
  simp only [forest, Forest.mk.injEq, true_and, and_true]
  exact funext fun k => Function.apply_update (fun k => (kind k).tree) f.handles i handle k

/-- A call that settles keeps the invariant. -/
theorem Kept.settle (h : f.Kept shapes) {c : Call ρ σ} {handle : (kind i).Handle} {s : Store ρ}
    {shape : Shape} (hs : (kind i).Settles f.forest shapes i c handle s shape) (context : σ) :
    Kept ⟨s, Function.update f.handles i handle, context⟩ (Function.update shapes i shape) := by
  constructor
  · rw [forest_update]
    exact h.shaped.settle hs.settled hs.fresh context
  · show ∀ k, (kind k).Keeps s (Function.update shapes i shape k)
      (Function.update f.handles i handle k)
    intro k
    by_cases hk : k = i
    · subst hk
      simpa using hs.keeps
    · rw [Function.update_of_ne hk, Function.update_of_ne hk]
      -- The call did not touch the records of the other trees.
      refine (h.keeps k).congr fun _ j hj => ?_
      obtain ⟨hold, hnew⟩ := h.shaped.untouched hs.fresh hk hj
      exact congrArg _ (hs.fetch_eq hold hnew)

variable [Listener σ] {c : (kind i).Call ρ σ}

/-- What a permitted call leaves: it settles, or a guard turned it down and nothing changed. -/
def Outcome (f : Grove kind ρ σ) (shapes : ι → Shape) (i : ι) (c : (kind i).Call ρ σ) :
    Except Rejection (Option Nat) → Grove kind ρ σ → Prop
  | .ok _, f' => ∃ handle shape,
      (kind i).Settles f.forest shapes i ((kind i).toPlain c) handle f'.store shape ∧
        f'.handles = Function.update f.handles i handle
  | .error _, f' => f'.store = f.store ∧ f'.handles = f.handles

/-- The step: a permitted call returns and has an outcome. -/
theorem Kept.returns_call (h : f.Kept shapes) (hc : f.Permits i c) :
    ∃ out f', f.call i c = .ok (out, f') ∧ f.Outcome shapes i c out f' := by
  obtain ⟨outcome, s, x, hrun, hout⟩ := Variety.settling h.shaped rfl (h.keeps i) hc.1 hc.2
  cases outcome with
  | ok out =>
    obtain ⟨shape, hs⟩ := hout
    exact ⟨.ok out.2, _, except_bind_eq_ok.mpr ⟨_, hrun, rfl⟩, out.1, shape, hs, rfl⟩
  | error r => exact ⟨.error r, _, except_bind_eq_ok.mpr ⟨_, hrun, rfl⟩, hout, rfl⟩

omit [DecidableEq ι] [Listener σ] in
/-- The invariant is about nodes and handles, and the intervals of interval trees. -/
theorem Kept.edit (h : f.Kept shapes) {s : Store ρ} (context : σ)
    (hs : s.node = f.store.node)
    (hentry : ∀ i id, kind i = .interval → f.Holds i id → s.entry id = f.store.entry id) :
    Kept { f with store := s, context } shapes where
  shaped := h.shaped.congr hs rfl
  keeps i := (h.keeps i).congr fun hi _ hj => hentry i _ hi (h.holds_iff.mpr hj)

omit [DecidableEq ι] [Listener σ] in
/-- A new record is in no tree. -/
theorem Kept.push (h : f.Kept shapes) {r : ρ} (hr : Linked.node r = {}) :
    Kept { f with store := f.store.push r } shapes where
  shaped := h.shaped.push hr
  keeps i := (h.keeps i).congr fun _ _ hj =>
    congrArg _ (Store.fetch_push_of_lt r ((h.shaped.keeps i).lt_size hj))

omit [Listener σ] in
/-- What a permitted call leaves keeps the invariant. -/
theorem Kept.exists_of_outcome (h : f.Kept shapes) {f' : Grove kind ρ σ}
    {out : Except Rejection (Option Nat)} (hout : f.Outcome shapes i c out f') :
    ∃ shapes', f'.Kept shapes' := by
  obtain ⟨s', handles', x'⟩ := f'
  cases out with
  | ok answer =>
    obtain ⟨handle, shape, hs, rfl⟩ := hout
    exact ⟨_, h.settle hs x'⟩
  | error r =>
    obtain ⟨rfl, rfl⟩ := hout
    exact ⟨shapes, h.edit x' rfl fun _ _ _ _ => rfl⟩

/-- The run: the invariant holds in every reachable state. -/
theorem Reachable.exists_kept (h : f.Reachable) : ∃ shapes, f.Kept shapes := by
  induction h with
  | @start f hnew hempty =>
    refine ⟨fun _ => .leaf, Forest.shaped_empty hnew fun i => ?_, fun i => ?_⟩
    · show (kind i).tree (f.handles i) = _
      rw [hempty i]
      cases kind i <;> rfl
    · rw [hempty i]
      exact (kind i).keeps_empty f.store
  | @call f f' i c out hreach hc hcall ih =>
    obtain ⟨shapes, hkept⟩ := ih
    obtain ⟨out', f'', hcall', hout⟩ := hkept.returns_call hc
    rw [hcall] at hcall'
    cases hcall'
    exact hkept.exists_of_outcome hout
  | edit context _ hs hentry ih =>
    obtain ⟨shapes, hkept⟩ := ih
    exact ⟨shapes, hkept.edit context hs hentry⟩
  | push _ hr ih =>
    obtain ⟨shapes, hkept⟩ := ih
    exact ⟨shapes, hkept.push hr⟩

end Grove

end All

end RecordTree
