import RecordTree.Proofs.Interval.Twin
import RecordTree.Proofs.Watched.Basic

/-!
# `RecordTree.Proofs.Watched.Calls`: what the log of a call shows

`Request.Shown` says what a log shows of a request that was let through: the callbacks for the leaf
or for the node that was taken out, and then two or three rotations at most. A request that is
turned down leaves no log.

* `Request.returns_watched`: every request that suits a tree is shown, if the augmentation keeps its
  contracts.
* `InStep.exists_log`: the call that is watched runs through the same states as the call that is
  not, so what is known of the log of the one is known of the callbacks of the other.
* `Forest.Shaped.suits`, `Cached.suits`: the requests that a caller may make suit the tree.
-/

set_option autoImplicit false

namespace RecordTree

variable {ρ σ : Type} [Linked ρ]

section Calls

variable {P : Payloads ρ → Shape → Prop} {aug : Augmentation ρ σ}
  {Right : Nat → Payloads ρ → σ → Shape → Prop} {Was : Payloads ρ → σ → Shape → Prop}
  {s : Store ρ} {t : Tree} {x : σ} {id : RecordId}

namespace Tree

variable [LawfulLinked ρ] [Listener σ] {slot : Slot}

/-- A link calls for the leaf first, and then for two rotations at most. -/
theorem watched_linkWith (turns : aug.Turns Right) (grows : aug.Grows id Was (Right 0))
    (hP : ∀ k p x shape, Right k p x shape → P p shape) {C : Context}
    (h : t.Keeps s (C.fill .leaf)) {n : Node} (hn : s.node id = .ok n) (hslot : slot.Names C)
    (hwas : n.state ≠ .linked → Was s.payload x (C.fill .leaf)) :
    (t.linkWith aug.watched slot id).Returns s ([], x)
      (fun t' s' x' => n.state ≠ .linked ∧ ∃ k ≤ 2, ∃ shape,
        Settled s (C.fill .leaf).inorder (C.before ++ id :: C.after) t' s' shape ∧
          Watching Right P (Planted C id) k s'.payload x' shape)
      (fun r s' x' => n.state = .linked ∧ r = .stillLinked id n.parent ∧ s' = s ∧
        x' = Listener.hear r ([], x)) := by
  refine returns_linkWith_of_attach h.toHasShape hn hslot fun hstate => ?_
  have hout : id ∉ C.ids := fun hin => hstate (h.state_eq (by simp [hin]) hn)
  have hlt := Store.lt_of_node hn
  exact returns_attach_of_propagate (turns.watched hP) h hout hlt C.names_slot
    (grows.planted (h.toHasShape.planted hout hlt) (by simpa using hwas hstate))

/-- So does an insertion, at the position that its descent finds without a log. -/
theorem watched_insertWith (turns : aug.Turns Right) (grows : aug.Grows id Was (Right 0))
    (hP : ∀ k p x shape, Right k p x shape → P p shape) {shape : Shape}
    (compare : Comparator ρ σ) (h : t.Keeps s shape) {n : Node} (hn : s.node id = .ok n)
    (hwas : n.state ≠ .linked → ∀ x', Was s.payload x' shape) :
    (t.insertWith aug.watched id compare.beside).Returns s ([], x)
      (fun t' s' x' => n.state ≠ .linked ∧ ∃ (C : Context) (x₁ : σ), shape = C.fill .leaf ∧
        (t.descend s id compare) x = .ok (⟨C.slot, C.before.isEmpty⟩, x₁) ∧
        ∃ k ≤ 2, ∃ shape',
          Settled s shape.inorder (C.before ++ id :: C.after) t' s' shape' ∧
            Watching Right P (Planted C id) k s'.payload x' shape')
      (fun r s' x' => n.state = .linked ∧ r = .stillLinked id n.parent ∧ s' = s ∧ x'.1 = []) := by
  obtain ⟨C, x₁, rfl, hdesc, -⟩ :=
    returns_descend compare x h.toHasShape (Store.lt_of_node hn)
  simp only [insertWith, Guarded.returns_bind, Guarded.returns_update, Update.returns_query]
  refine ⟨_, _, descend_beside hdesc [],
    (watched_linkWith turns grows hP h hn C.names_slot fun hstate => hwas hstate x₁).mono ?_ ?_⟩
  · rintro t' s' x' ⟨hstate, hdone⟩
    exact ⟨hstate, C, x₁, rfl, hdesc, hdone⟩
  · rintro r s' x' ⟨hstate, hr, hs, rfl⟩
    exact ⟨hstate, hr, hs, rfl⟩

/-- A deletion calls for the node that is taken out first, and then for three rotations at most. -/
theorem watched_deleteWith (turns : aug.Turns Right) (shrinks : aug.Shrinks id Was (Right 0))
    (hP : ∀ k p x shape, Right k p x shape → P p shape) {shape : Shape} {l r : List RecordId}
    (h : t.Keeps s shape) (hlist : shape.inorder = l ++ id :: r) (hwas : Was s.payload x shape) :
    (t.deleteWith aug.watched id).Returns s ([], x)
      (fun t' s' x' => ∃ k ≤ 3, ∃ shape', Settled s shape.inorder (l ++ r) t' s' shape' ∧
        Watching Right P (TakenOut shape id) k s'.payload x' shape')
      (fun _ _ _ => False) :=
  returns_deleteWith (turns.watched hP) (shrinks.watched shape) h hlist ⟨hwas, rfl, rfl⟩

end Tree

end Calls

/-! ### Requests -/

namespace Request

/-- The guards turn the request down, or it is one that can be made of a tree of this shape. -/
inductive Suits [Listener σ] (s : Store ρ) (t : Tree) (x : σ) (shape : Shape) :
    Request ρ σ → Prop where
  | insert {id : RecordId} {compare : Comparator ρ σ} :
      id < s.size → Suits s t x shape (.insert id compare)
  | link {vacancy : Vacancy} {id : RecordId} {C : Context} :
      id < s.size → shape = C.fill .leaf → vacancy.slot.Names C →
      Suits s t x shape (.link vacancy id)
  | delete {id : RecordId} : id ∈ shape.inorder → Suits s t x shape (.delete id)
  | replace {old new : RecordId} :
      old ∈ shape.inorder → new < s.size → Suits s t x shape (.replace old new)
  | rejected {q : Request ρ σ} {r : Rejection} {s' : Store ρ} {x' : σ} :
      (q.onTree .none t).run s x = .ok ((.error r, s'), x') → Suits s t x shape q

/-- What the contracts ask for before the request: `WasNew` if a leaf is linked, and `Was` if a node
is taken out. -/
def Needs (WasNew : RecordId → Payloads ρ → σ → Shape → Prop)
    (Was : Payloads ρ → σ → Shape → Prop) (p : Payloads ρ) (x : σ) (shape : Shape) :
    Request ρ σ → Prop
  | insert id _ => ∀ x', WasNew id p x' shape
  | link _ id => WasNew id p x shape
  | delete _ => Was p x shape
  | replace .. => True

/-- The log shows what the request made of a tree of the shape `shape`, and `shape'` came of it. -/
inductive Shown (P : Payloads ρ → Shape → Prop) (s : Store ρ) (t : Tree) (x : σ) (shape : Shape) :
    Request ρ σ → List (Sighting ρ) → Shape → Prop where
  | insert {id : RecordId} {compare : Comparator ρ σ} {C : Context} {first : Bool} {x' : σ}
      {k : Nat} {log : List (Sighting ρ)} {shape' : Shape} :
      shape = C.fill .leaf → (t.descend s id compare) x = .ok (⟨C.slot, first⟩, x') → k ≤ 2 →
      shape'.inorder = C.before ++ id :: C.after → Shows P (Planted C id) k log shape' →
      Shown P s t x shape (.insert id compare) log shape'
  | link {vacancy : Vacancy} {id : RecordId} {C : Context} {k : Nat} {log : List (Sighting ρ)}
      {shape' : Shape} :
      shape = C.fill .leaf → vacancy.slot.Names C → k ≤ 2 →
      shape'.inorder = C.before ++ id :: C.after → Shows P (Planted C id) k log shape' →
      Shown P s t x shape (.link vacancy id) log shape'
  | delete {id : RecordId} {l r : List RecordId} {k : Nat} {log : List (Sighting ρ)}
      {shape' : Shape} :
      shape.inorder = l ++ id :: r → k ≤ 3 → shape'.inorder = l ++ r →
      Shows P (TakenOut shape id) k log shape' → Shown P s t x shape (.delete id) log shape'
  | replace {old new : RecordId} {l r : List RecordId} {shape' : Shape} :
      shape.inorder = l ++ old :: r → shape'.inorder = l ++ new :: r →
      Shown P s t x shape (.replace old new) [] shape'

variable [Listener σ]

/-- A request that is turned down is so with any callbacks, and leaves no log. -/
theorem watched_rejected {q : Request ρ σ} {s s' : Store ρ} {t : Tree} {x x' : σ} {r : Rejection}
    (h : (q.onTree .none t).run s x = .ok ((.error r, s'), x'))
    (aug : Augmentation ρ (Watch ρ σ)) :
    (q.watched.onTree aug t).run s ([], x) = .ok ((.error r, s'), ([], x')) := by
  have hR : Alignment.noting (· = ([] : List (Sighting ρ))) s x s ([], x) := ⟨rfl, rfl, rfl⟩
  obtain ⟨_, _, ⟨_, _⟩, hrun, rfl, ⟨rfl, rfl, rfl⟩, -⟩ := Lockstep.noting.request hears_noting
    (Augmentation.tracks_none Set.univ _) q.agrees_noting t s x s _ hR _ _ _ h
  -- What the guards decide does not depend on the callbacks.
  obtain ⟨-, rfl, y, hother⟩ := (q.watched.decides s).1 t inferInstance _ _ _ _ _ hrun
  rw [hother inferInstance] at hrun ⊢
  exact hrun

variable [LawfulLinked ρ] {P : Payloads ρ → Shape → Prop} {aug : Augmentation ρ σ}
  {Right : Nat → Payloads ρ → σ → Shape → Prop}
  {WasNew : RecordId → Payloads ρ → σ → Shape → Prop} {Was : Payloads ρ → σ → Shape → Prop}
  {s : Store ρ} {t : Tree} {x : σ} {shape : Shape} {q : Request ρ σ}

/-- A request that suits the tree returns, and the log shows it. -/
theorem returns_watched (turns : aug.Turns Right) (grows : ∀ id, aug.Grows id (WasNew id) (Right 0))
    (shrinks : ∀ id, aug.Shrinks id Was (Right 0))
    (hP : ∀ k p x shape, Right k p x shape → P p shape) (h : t.Keeps s shape)
    (hq : q.Suits s t x shape) (hwas : q.Needs WasNew Was s.payload x shape) :
    (q.watched.onTree aug.watched t).Returns s ([], x)
      (fun t' s' x' => ∃ shape', t'.Keeps s' shape' ∧ q.Shown P s t x shape x'.1 shape')
      (fun _ _ x' => x'.1 = []) := by
  cases hq with
  | @insert id compare hid =>
    obtain ⟨n, hn⟩ := Store.exists_node_of_lt hid
    refine (Tree.watched_insertWith turns (grows id) hP compare h hn fun _ => hwas).mono ?_ ?_
    · rintro t' s' x' ⟨-, C, x₁, hshape, hdesc, k, hk, shape', hs, -, hshows⟩
      exact ⟨shape', hs.keeps, .insert hshape hdesc hk hs.inorder hshows⟩
    · rintro r s' x' ⟨-, -, -, hlog⟩
      exact hlog
  | @link vacancy id C hid hshape hslot =>
    subst hshape
    obtain ⟨n, hn⟩ := Store.exists_node_of_lt hid
    refine (Tree.watched_linkWith turns (grows id) hP h hn hslot fun _ => hwas).mono ?_ ?_
    · rintro t' s' x' ⟨-, k, hk, shape', hs, -, hshows⟩
      exact ⟨shape', hs.keeps, .link rfl hslot hk hs.inorder hshows⟩
    · rintro r s' x' ⟨-, -, -, rfl⟩
      rfl
  | @delete id hid =>
    obtain ⟨l, r, hlist⟩ := List.append_of_mem hid
    refine (Tree.watched_deleteWith turns (shrinks id) hP h hlist hwas).mono ?_
      fun _ _ _ hf => hf.elim
    rintro t' s' x' ⟨k, hk, shape', hs, -, hshows⟩
    exact ⟨shape', hs.keeps, .delete hlist hk hs.inorder hshows⟩
  | @replace old new hold hnew =>
    obtain ⟨l, r, hlist⟩ := List.append_of_mem hold
    obtain ⟨n, hn⟩ := Store.exists_node_of_lt hnew
    by_cases hstate : n.state = .linked
    · obtain ⟨m, hm, -⟩ := h.spells.exists_linked hold
      refine (Tree.rejects_replace hm hn (.inr hstate)).mono (fun _ _ _ hf => hf.elim) ?_
      rintro r s' x' ⟨-, rfl⟩
      rfl
    · refine (Tree.returns_replace h hlist hn hstate).mono ?_ fun _ _ _ hf => hf.elim
      rintro t' s' x' ⟨shape', hs, -, rfl⟩
      exact ⟨shape', hs.keeps, .replace hlist hs.inorder⟩
  | rejected hrun => exact ⟨_, _, _, watched_rejected hrun _, rfl⟩

omit [Linked ρ] [Listener σ] [LawfulLinked ρ] in
/-- Where nothing is to be kept right, nothing is needed. -/
theorem needs_true {p : Payloads ρ} (q : Request ρ σ) :
    q.Needs (fun _ _ _ _ => True) (fun _ _ _ => True) p x shape := by
  cases q with
  | insert => exact fun _ => trivial
  | link | delete | replace => trivial

/-- So does one with any callbacks that spare nodes, if those that would fail are skipped. -/
theorem returns_watched_orSkip (haug : aug.Spares) (h : t.Keeps s shape)
    (hq : q.Suits s t x shape) :
    (q.watched.onTree aug.orSkip.watched t).Returns s ([], x)
      (fun t' s' x' => ∃ shape', t'.Keeps s' shape' ∧
        q.Shown (fun _ _ => True) s t x shape x'.1 shape')
      (fun _ _ x' => x'.1 = []) :=
  returns_watched haug.turns haug.grows haug.shrinks (fun _ _ _ _ _ => trivial) h hq q.needs_true

end Request

/-! ### Calls with and without a log -/

section Runs

variable {τ : Type}

/-- The requests are made by calls that are in step if their contexts are. -/
def InStep (on : ∀ {σ : Type} [Listener σ], Augmentation ρ σ → Request ρ σ → Guarded ρ σ τ) :
    Prop :=
  ∀ {σ σ₀ : Type} [Listener σ] [Listener σ₀] {R : Alignment ρ σ σ₀}, Lockstep Set.univ R →
    Hears R → ∀ {aug : Augmentation ρ σ} {aug₀ : Augmentation ρ σ₀}, aug.Tracks Set.univ R aug₀ →
    ∀ {q : Request ρ σ} {q₀ : Request ρ σ₀}, q.Agrees R q₀ →
    Guarded.Tracks R (on aug q) (on aug₀ q₀) fun _ => True

/-- Requests of one plain tree are in step if their contexts are. -/
theorem Tree.inStep (t : Tree) : InStep (ρ := ρ) fun aug q => q.onTree aug t :=
  fun L hears _ _ haug _ _ hq => (L.request hears haug hq t).mono fun _ _ => trivial

/-- So are requests of one cached tree. -/
theorem CachedTree.inStep (t : CachedTree) : InStep (ρ := ρ) fun aug q => q.onCached aug t :=
  fun L hears _ _ haug _ _ hq => (L.requestCached hears haug hq t).mono fun _ _ => trivial

variable [Listener σ]
  {on : ∀ {σ : Type} [Listener σ], Augmentation ρ σ → Request ρ σ → Guarded ρ σ τ}
  {aug aug' : Augmentation ρ σ} {q : Request ρ σ} {s : Store ρ} {x : σ}
  {Q : τ → Store ρ → Watch ρ σ → Prop} {R : Rejection → Store ρ → Watch ρ σ → Prop}

/-- What holds of the log where callbacks of `aug'` are watched holds of it where those of `aug` are
watched, if these do the same or fail. Such a log there is for each call that returns. -/
theorem InStep.exists_log (h : InStep (ρ := ρ) on) (haug : aug.Approximates aug')
    (hreturns : (on aug'.watched q.watched).Returns s ([], x) Q R) :
    (∃ out, (on aug' q).run s x = .ok out) ∧
    ∀ out s' x', (on aug q).run s x = .ok ((out, s'), x') → ∃ log,
      (on aug.watched q.watched).run s ([], x) = .ok ((out, s'), (log, x')) ∧
      match out with
      | .ok t => Q t s' (log, x')
      | .error r => R r s' (log, x') := by
  obtain ⟨out', s'', x'', hrun', hout⟩ := hreturns
  constructor
  · obtain ⟨_, _, _, hplain, -⟩ := h .noted hears_noted aug'.watched_tracks q.agrees_noted
      s ([], x) s x ⟨rfl, rfl⟩ _ _ _ hrun'
    exact ⟨_, hplain⟩
  · intro out s' x' hrun
    obtain ⟨_, _, ⟨log, _⟩, hwatched, rfl, ⟨rfl, -, rfl⟩, -⟩ := h .noting hears_noting
      aug.tracks_watched q.agrees_noting s x s ([], x) ⟨rfl, trivial, rfl⟩ _ _ _ hrun
    refine ⟨log, hwatched, ?_⟩
    -- Both watched calls return, so they come to the same end.
    obtain ⟨_, _, _, hsame, rfl, ⟨rfl, rfl⟩, -⟩ := h .same hears_same haug.watched.tracks
      q.watched.agrees_same s _ s _ ⟨rfl, rfl⟩ _ _ _ hwatched
    rw [hrun'] at hsame
    cases hsame
    cases out' <;> exact hout

end Runs

/-! ### Requests through handles -/

/-- But for its cache, a cached tree is changed as its tree is. -/
theorem Request.run_tree_onCached [Listener σ] {s : Store ρ} {t : CachedTree} {shape : Shape}
    (h : t.Keeps s shape) (aug : Augmentation ρ σ) (q : Request ρ σ) (x : σ) :
    (CachedTree.tree <$> q.onCached aug t).run s x = (q.onTree aug t.tree).run s x := by
  cases q with
  | insert id compare => rw [onCached, onTree, CachedTree.tree_insertWith]
  | link vacancy id => rw [onCached, onTree, CachedTree.tree_linkWith]
  | delete id =>
    refine CachedTree.run_tree_deleteWith (fun hleftmost => ?_) x
    rw [h.leftmost_eq] at hleftmost
    obtain ⟨l, r, hlist⟩ := List.append_of_mem (List.mem_of_head? hleftmost)
    exact ⟨_, h.keeps.next_eq hlist⟩
  | replace old new => simp [onCached, onTree, CachedTree.replace]

/-- A request of a cached tree ends as it does on the tree inside. -/
theorem Request.returns_onCached_of_tree [Listener σ] {s : Store ρ} {t : CachedTree} {shape : Shape}
    (h : t.Keeps s shape) {aug : Augmentation ρ σ} {q : Request ρ σ} {x : σ}
    {Q : Tree → Store ρ → σ → Prop} {R : Rejection → Store ρ → σ → Prop}
    (hreturns : (q.onTree aug t.tree).Returns s x Q R) :
    (q.onCached aug t).Returns s x (fun t' => Q t'.tree) R := by
  obtain ⟨out, s', x', hrun, hout⟩ := hreturns
  rw [← run_tree_onCached h, ← bind_pure_comp, Guarded.run_bind_pure] at hrun
  obtain ⟨⟨⟨out, _⟩, _⟩, hrun', heq⟩ := except_map_eq_ok.mp hrun
  cases heq
  refine ⟨out, _, _, hrun', ?_⟩
  cases out <;> exact hout

section Suits

variable [Listener σ] {q : Request ρ σ}

/-- A call that is permitted in a forest suits its tree. -/
theorem Forest.Shaped.suits {ι : Type} [DecidableEq ι] {f : Forest ι ρ σ} {shapes : ι → Shape}
    (h : f.Shaped shapes) {i : ι} (hq : f.Permits i q.call) :
    q.Suits f.store (f.trees i) f.context (shapes i) := by
  -- What the guards reject is rejected with no callbacks at all.
  have hrejected (hrejects : f.Rejects i q.call) :
      q.Suits f.store (f.trees i) f.context (shapes i) := by
    obtain ⟨r, f', hcall⟩ := hrejects
    obtain ⟨⟨⟨out, s⟩, x⟩, hrun, hout⟩ := except_bind_eq_ok.mp hcall
    cases out with
    | ok t => cases hout
    | error e =>
      have hrun' : (q.onTree .none (f.trees i)).run f.store f.context = .ok ((.error e, s), x) := by
        cases q <;> exact hrun
      exact .rejected hrun'
  cases q with
  | insert id compare => exact .insert hq
  | link vacancy id =>
    refine hq.elim (fun ⟨hid, hvacant⟩ => ?_) hrejected
    obtain ⟨C, hshape, hslot⟩ := h.exists_position hvacant
    exact .link hid hshape hslot
  | delete id => exact hq.elim (fun hholds => .delete (h.holds_iff.mp hholds)) hrejected
  | replace old new =>
    exact hq.elim (fun hfits => .replace (h.holds_iff.mp hfits.1) hfits.2) hrejected

/-- A call that is permitted on a cached tree suits the tree inside. -/
theorem Cached.suits {f : Cached ρ σ} {shape : Shape} (h : f.tree.Keeps f.store shape)
    (hq : f.Permits q.cachedCall) : q.Suits f.store f.tree.tree f.context shape := by
  rcases hq with ⟨-, hfits⟩ | ⟨r, f', hcall⟩
  · cases q with
    | insert id compare => exact .insert hfits
    | link vacancy id =>
      obtain ⟨C, hshape, hvacancy⟩ := exists_context_of_offers h hfits.1 hfits.2
      exact .link hfits.1 hshape (hvacancy ▸ C.names_slot)
    | delete id => exact .delete ((holds_iff h).mp hfits)
    | replace old new => exact .replace ((holds_iff h).mp hfits.1) hfits.2
  · obtain ⟨⟨⟨out, s⟩, x⟩, hrun, hout⟩ := except_bind_eq_ok.mp hcall
    cases out with
    | ok t => cases hout
    | error e =>
      have hrun' : (q.onCached .none f.tree).run f.store f.context = .ok ((.error e, s), x) := by
        cases q <;> exact hrun
      have htree := q.run_tree_onCached h .none f.context
      rw [← bind_pure_comp, Guarded.run_bind_pure, hrun'] at htree
      exact .rejected htree.symm

end Suits

section Shown

variable [LawfulLinked ρ] [Listener σ] {aug : Augmentation ρ σ} {q : Request ρ σ}

/-- With callbacks that are skipped where they would fail, all requests that a caller may make of a
reachable tree are shown. -/
theorem Forest.Reachable.shown {ι : Type} [DecidableEq ι] {f : Forest ι ρ σ} {i : ι}
    (h : f.Reachable) (hq : f.Permits i q.call) (haug : aug.Spares) :
    ∃ shape, (f.trees i).Keeps f.store shape ∧
      (q.watched.onTree aug.orSkip.watched (f.trees i)).Returns f.store ([], f.context)
        (fun t s x => ∃ shape', t.Keeps s shape' ∧
          q.Shown (fun _ _ => True) f.store (f.trees i) f.context shape x.1 shape')
        fun _ _ x => x.1 = [] := by
  obtain ⟨shapes, hshaped⟩ := h.exists_shaped
  have hkeeps := hshaped.keeps i
  exact ⟨shapes i, hkeeps, Request.returns_watched_orSkip haug hkeeps (hshaped.suits hq)⟩

/-- In a reachable state, a watched request of a cached tree returns, and its log shows what it made
of the tree. -/
theorem Cached.Reachable.shown {f : Cached ρ σ} (h : f.Reachable) (hq : f.Permits q.cachedCall)
    (haug : aug.Spares) :
    ∃ shape, f.tree.tree.Keeps f.store shape ∧
      (q.watched.onCached aug.orSkip.watched f.tree).Returns f.store ([], f.context)
        (fun t s x => ∃ shape', t.tree.Keeps s shape' ∧
          q.Shown (fun _ _ => True) f.store f.tree.tree f.context shape x.1 shape')
        fun _ _ x => x.1 = [] := by
  obtain ⟨shape, hkeeps⟩ := h.exists_keeps
  have hwatched := Request.returns_watched_orSkip haug hkeeps.keeps (Cached.suits hkeeps hq)
  exact ⟨shape, hkeeps.keeps, Request.returns_onCached_of_tree hkeeps hwatched⟩

end Shown

end RecordTree
