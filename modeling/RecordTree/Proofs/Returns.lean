import RecordTree.Tree.Basic

/-!
# `RecordTree.Proofs.Returns`: computations that return, and what they return

`u.Returns s c Q` says that the update `u`, run on the store `s` and the context `c`, ends
without a fault, and that `Q` holds of its result and of the store and context it leaves.
It is a weakest precondition: each way to build an update has an equivalence that takes
`Returns` from the whole to the parts (`returns_bind`, `returns_read`, ..), so that `simp`
runs straight-line code symbolically. `Returns.mono` puts the known outcome of a call in.

`Guarded.Returns` is the same for computations that a guard may turn down, with one condition
for each way to end. What comes before a guard's answer only reads (`Guarded.Silent`), so that a
call that is turned down leaves the store as it was (`Guarded.RejectsSilently`).

The second half says what the primitive changes do to the store. A change of links leaves
the `Store.payload` of every record as it was, and is seen by `Store.node` only where it
was made.
-/

set_option autoImplicit false

namespace RecordTree

variable {ρ σ α β : Type}

/-! ### Results -/

/-- A mapped result is a result that was mapped. -/
@[simp] theorem except_map_eq_ok {f : α → β} {x : Except Fault α} {b : β} :
    x.map f = .ok b ↔ ∃ a, x = .ok a ∧ f a = b := by
  cases x <;> simp [Except.map]

/-- Mapping a result by its functor is no different. -/
@[simp] theorem except_functor_map_eq_ok {f : α → β} {x : Except Fault α} {b : β} :
    f <$> x = .ok b ↔ ∃ a, x = .ok a ∧ f a = b := by
  cases x <;> simp [Functor.map, Except.map]

/-- Mapping a result maps its value. -/
@[simp] theorem except_functor_map_ok (f : α → β) (a : α) :
    f <$> (Except.ok a : Except Fault α) = .ok (f a) := rfl

/-- Two parts come through if the first one does, and the second one on what it gave. -/
@[simp] theorem except_bind_eq_ok {f : α → Except Fault β} {x : Except Fault α} {b : β} :
    x >>= f = .ok b ↔ ∃ a, x = .ok a ∧ f a = .ok b := by
  cases x <;> simp [bind, Except.bind]

/-- A pure value is the result. -/
@[simp] theorem except_pure_eq_ok {a b : α} : (pure a : Except Fault α) = .ok b ↔ a = b := by
  simp [pure, Except.pure]

/-! ### Updates -/

/-- `u` returns, and `Q` holds of its result and of the store and context it leaves. -/
def Update.Returns (u : Update ρ σ α) (s : Store ρ) (c : σ) (Q : α → Store ρ → σ → Prop) :
    Prop :=
  ∃ a s' c', u s c = .ok ((a, s'), c') ∧ Q a s' c'

namespace Update

variable {u : Update ρ σ α} {s : Store ρ} {c : σ} {Q R : α → Store ρ → σ → Prop}

/-- What holds after a run may be weakened. -/
theorem Returns.mono (h : u.Returns s c Q) (hQR : ∀ a s' c', Q a s' c' → R a s' c') :
    u.Returns s c R := by
  obtain ⟨a, s', c', hrun, hQ⟩ := h
  exact ⟨a, s', c', hrun, hQR a s' c' hQ⟩

/-- A run whose outcome is known. -/
theorem returns_of_run {a : α} {s' : Store ρ} {c' : σ} (hrun : u s c = .ok ((a, s'), c')) :
    u.Returns s c Q ↔ Q a s' c' := by
  constructor
  · rintro ⟨b, t, d, hrun', hQ⟩
    rw [hrun] at hrun'
    cases hrun'
    exact hQ
  · intro hQ
    exact ⟨a, s', c', hrun, hQ⟩

/-- Returning a value changes nothing. -/
@[simp] theorem returns_pure {a : α} : (pure a : Update ρ σ α).Returns s c Q ↔ Q a s c :=
  returns_of_run rfl

/-- A sequence of updates does what it does if the first one leads to where the second one does. -/
@[simp] theorem returns_bind {f : α → Update ρ σ β} {Q : β → Store ρ → σ → Prop} :
    (u >>= f).Returns s c Q ↔ u.Returns s c fun a s' c' => (f a).Returns s' c' Q := by
  constructor
  · rintro ⟨b, s₂, c₂, hrun, hQ⟩
    -- A run of the whole is a run of `u` and one of `f`, unless `u` faults.
    simp only [bind, StateT.bind] at hrun
    cases hu : u s c with
    | error fault => simp [hu, Except.bind] at hrun
    | ok out =>
      obtain ⟨⟨a, s₁⟩, c₁⟩ := out
      simp only [hu, Except.bind] at hrun
      exact ⟨a, s₁, c₁, hu, b, s₂, c₂, hrun, hQ⟩
  · rintro ⟨a, s₁, c₁, hu, b, s₂, c₂, hf, hQ⟩
    refine ⟨b, s₂, c₂, ?_, hQ⟩
    simp only [bind, StateT.bind, hu, Except.bind]
    exact hf

/-- Mapping the result leaves the rest of a run as it is. -/
@[simp] theorem returns_map {f : α → β} {Q : β → Store ρ → σ → Prop} :
    (f <$> u).Returns s c Q ↔ u.Returns s c fun a s' c' => Q (f a) s' c' := by
  rw [← bind_pure_comp, returns_bind]
  simp

/-- A branching update does what the branch that is taken does. -/
@[simp] theorem returns_ite {p : Prop} [Decidable p] {v : Update ρ σ α} :
    (if p then u else v).Returns s c Q ↔
      (p → u.Returns s c Q) ∧ (¬ p → v.Returns s c Q) := by
  by_cases h : p <;> simp [h]

/-- Reading returns what is there, and changes nothing. -/
@[simp] theorem returns_read {reading : Store ρ → Except Fault α} :
    (read reading).Returns s c Q ↔ ∃ a, reading s = .ok a ∧ Q a s c := by
  constructor
  · rintro ⟨a, s', c', hrun, hQ⟩
    obtain ⟨b, hb, heq⟩ := except_map_eq_ok.mp hrun
    cases heq
    exact ⟨a, hb, hQ⟩
  · rintro ⟨a, ha, hQ⟩
    exact ⟨a, s, c, except_map_eq_ok.mpr ⟨a, ha, rfl⟩, hQ⟩

/-- A change of a record returns if the store has that record. -/
theorem returns_modifyRecord {id : RecordId} {f : ρ → ρ} {Q : Unit → Store ρ → σ → Prop} :
    (modifyRecord id f).Returns s c Q ↔ id < s.size ∧ Q () (s.modify id f) c := by
  by_cases h : id < s.size
  · have hrun : modifyRecord id f s c = .ok (((), s.modify id f), c) :=
      congrArg (Except.map _) (Store.modifyAt_of_lt h f)
    rw [returns_of_run hrun, and_iff_right h]
  · have hrun : modifyRecord id f s c = .error (.outOfRange s.size id) :=
      congrArg (Except.map _) (Store.modifyAt_of_le (Nat.not_lt.mp h) f)
    simp [Returns, hrun, h]

/-- A query leaves the store alone, and may change the context. -/
@[simp] theorem returns_query {q : Store ρ → Query σ α} :
    (query q).Returns s c Q ↔ ∃ a c', q s c = .ok (a, c') ∧ Q a s c' := by
  constructor
  · rintro ⟨a, s', c', hrun, hQ⟩
    obtain ⟨⟨b, d⟩, hb, heq⟩ := except_map_eq_ok.mp hrun
    cases heq
    exact ⟨a, c', hb, hQ⟩
  · rintro ⟨a, c', ha, hQ⟩
    exact ⟨a, s, c', except_map_eq_ok.mpr ⟨(a, c'), ha, rfl⟩, hQ⟩

/-- Telling the caller changes the context only. -/
@[simp] theorem returns_tell {f : σ → σ} {Q : Unit → Store ρ → σ → Prop} :
    (tell f).Returns s c Q ↔ Q () s (f c) :=
  returns_of_run rfl

end Update

/-! ### Guarded updates -/

/-- `g` returns. `Q` holds of its result and what it leaves, or, if a guard turned it down, `R`
of the rejection. -/
def Guarded.Returns (g : Guarded ρ σ α) (s : Store ρ) (c : σ) (Q : α → Store ρ → σ → Prop)
    (R : Rejection → Store ρ → σ → Prop) : Prop :=
  Update.Returns g.run s c fun
    | .ok a => Q a
    | .error r => R r

namespace Guarded

variable {g : Guarded ρ σ α} {s : Store ρ} {c : σ} {Q Q' : α → Store ρ → σ → Prop}
  {R R' : Rejection → Store ρ → σ → Prop}

/-- What holds after a guarded run may be weakened on both ways to end. -/
theorem Returns.mono (h : g.Returns s c Q R) (hQ : ∀ a s' c', Q a s' c' → Q' a s' c')
    (hR : ∀ r s' c', R r s' c' → R' r s' c') : g.Returns s c Q' R' := by
  refine Update.Returns.mono h ?_
  intro outcome s' c' hout
  cases outcome with
  | ok a => exact hQ a s' c' hout
  | error r => exact hR r s' c' hout

/-- Returning a value is no rejection. -/
@[simp] theorem returns_pure {a : α} : (pure a : Guarded ρ σ α).Returns s c Q R ↔ Q a s c :=
  Update.returns_pure

/-- An update has but one way to end. -/
@[simp] theorem returns_update {u : Update ρ σ α} :
    (Guarded.update u).Returns s c Q R ↔ u.Returns s c Q := by
  rw [Returns, update, ExceptT.run_lift, Update.returns_map]

/-- A sequence of guarded computations ends with the first rejection. -/
@[simp] theorem returns_bind {f : α → Guarded ρ σ β} {Q : β → Store ρ → σ → Prop} :
    (g >>= f).Returns s c Q R ↔ g.Returns s c (fun a s' c' => (f a).Returns s' c' Q R) R := by
  rw [Returns, ExceptT.run_bind, Update.returns_bind, Returns]
  constructor
  · intro h
    refine h.mono ?_
    intro outcome s' c' hout
    cases outcome with
    | ok a => exact hout
    | error r =>
      have hleft := Update.returns_pure.mp hout
      exact hleft
  · intro h
    refine h.mono ?_
    intro outcome s' c' hout
    cases outcome with
    | ok a => exact hout
    | error r =>
      have hleft : R r s' c' := hout
      exact Update.returns_pure.mpr hleft

/-- A rejection leaves the store alone, and the caller hears of it. -/
@[simp] theorem returns_reject [Listener σ] {r : Rejection} :
    (reject r : Guarded ρ σ α).Returns s c Q R ↔ R r s (Listener.hear r c) := by
  rw [reject, returns_bind, returns_update, Update.returns_tell]
  exact Update.returns_pure

/-- `g` leaves the store alone, whether a guard turns it down or not. -/
def Silent (g : Guarded ρ σ α) : Prop :=
  ∀ s c out s' c', g.run s c = .ok ((out, s'), c') → s' = s

/-- If a guard turns `g` down, then the store is as it was. -/
def RejectsSilently (g : Guarded ρ σ α) : Prop :=
  ∀ s c r s' c', g.run s c = .ok ((.error r, s'), c') → s' = s

/-- Reading is silent. -/
theorem silent_read (reading : Store ρ → Except Fault α) :
    (Guarded.update (Update.read reading) : Guarded ρ σ α).Silent := by
  intro s c out s' c' hrun
  -- Spelled with `Returns`, the run can be taken apart by `simp`.
  have hreturns : Update.Returns
      (Except.ok <$> Update.read reading : Update ρ σ (Except Rejection α))
      s c fun _ t _ => t = s' := ⟨out, s', c', hrun, rfl⟩
  simp only [Update.returns_map, Update.returns_read] at hreturns
  obtain ⟨-, -, heq⟩ := hreturns
  exact heq.symm

/-- Queries are silent. -/
theorem silent_query (q : Store ρ → Query σ α) :
    (Guarded.update (Update.query q) : Guarded ρ σ α).Silent := by
  intro s c out s' c' hrun
  have hreturns : Update.Returns (Except.ok <$> Update.query q : Update ρ σ (Except Rejection α))
      s c fun _ t _ => t = s' := ⟨out, s', c', hrun, rfl⟩
  simp only [Update.returns_map, Update.returns_query] at hreturns
  obtain ⟨-, -, -, heq⟩ := hreturns
  exact heq.symm

/-- Returning a value is silent. -/
theorem silent_pure (a : α) : (pure a : Guarded ρ σ α).Silent := by
  rintro s c out s' c' ⟨⟩
  rfl

/-- Rejections are silent. -/
theorem silent_reject [Listener σ] (r : Rejection) : (reject r : Guarded ρ σ α).Silent := by
  rintro s c out s' c' ⟨⟩
  rfl

/-- Silent computations in sequence are silent. -/
theorem Silent.bind {f : α → Guarded ρ σ β} (hg : g.Silent) (hf : ∀ a, (f a).Silent) :
    (g >>= f).Silent := by
  intro s c out s' c' hrun
  have hreturns : Update.Returns (g >>= f).run s c fun _ t _ => t = s' := ⟨out, s', c', hrun, rfl⟩
  rw [ExceptT.run_bind, Update.returns_bind] at hreturns
  obtain ⟨outcome, s₁, c₁, hfirst, hrest⟩ := hreturns
  -- What `g` leaves is the store it found, so only the rest could have changed it.
  rw [← hg s c outcome s₁ c₁ hfirst]
  cases outcome with
  | ok a =>
    obtain ⟨out', s₂, c₂, hsecond, rfl⟩ := hrest
    exact hf a s₁ c₁ out' s₂ c₂ hsecond
  | error r => exact (Update.returns_pure.mp hrest).symm

/-- An update is never turned down, so it is not turned down after a change. -/
theorem rejectsSilently_update (u : Update ρ σ α) : (Guarded.update u).RejectsSilently := by
  intro s c r s' c' hrun
  have hreturns : Update.Returns (Except.ok <$> u : Update ρ σ (Except Rejection α)) s c
      fun out _ _ => out = .error r := ⟨.error r, s', c', hrun, rfl⟩
  rw [Update.returns_map] at hreturns
  obtain ⟨_, _, _, _, heq⟩ := hreturns
  cases heq

/-- When silent guards stand in front of a computation that rejects silently, the whole of it
rejects silently. -/
theorem Silent.bind_rejectsSilently {f : α → Guarded ρ σ β} (hg : g.Silent)
    (hf : ∀ a, (f a).RejectsSilently) : (g >>= f).RejectsSilently := by
  intro s c r s' c' hrun
  have hreturns : Update.Returns (g >>= f).run s c fun out t _ => out = .error r ∧ t = s' :=
    ⟨.error r, s', c', hrun, rfl, rfl⟩
  rw [ExceptT.run_bind, Update.returns_bind] at hreturns
  obtain ⟨outcome, s₁, c₁, hfirst, hrest⟩ := hreturns
  rw [← hg s c outcome s₁ c₁ hfirst]
  cases outcome with
  | ok a =>
    obtain ⟨-, s₂, c₂, hsecond, rfl, rfl⟩ := hrest
    exact hf a s₁ c₁ r s₂ c₂ hsecond
  | error e =>
    obtain ⟨-, rfl⟩ := Update.returns_pure.mp hrest
    rfl

/-- Mapping what is returned leaves rejections silent. -/
theorem RejectsSilently.bind_pure {f : α → β} (hg : g.RejectsSilently) :
    (g >>= fun a => pure (f a)).RejectsSilently := by
  intro s c r s' c' hrun
  have hreturns : Update.Returns (g >>= fun a => pure (f a)).run s c
      fun out t _ => out = .error r ∧ t = s' := ⟨.error r, s', c', hrun, rfl, rfl⟩
  rw [ExceptT.run_bind, Update.returns_bind] at hreturns
  obtain ⟨outcome, s₁, c₁, hfirst, hrest⟩ := hreturns
  cases outcome with
  | ok a =>
    obtain ⟨heq, -⟩ := Update.returns_pure.mp hrest
    cases heq
  | error e =>
    obtain ⟨-, rfl⟩ := Update.returns_pure.mp hrest
    exact hg s c e s₁ c₁ hfirst

end Guarded

/-! ### Changes of links -/

/-- What is fetched is what the store has at the id. -/
theorem Store.fetch_eq_ok {s : Store ρ} {id : RecordId} {r : ρ} :
    s.fetch id = .ok r ↔ ∃ h : id < s.size, s[id] = r := by
  by_cases h : id < s.size <;> simp [fetch, h]

/-- The nodes of a tree are fewer than the steps that a walk is granted. -/
theorem Store.lt_walkLimit {s : Store ρ} {n : Nat} (h : n ≤ s.size) : n < s.walkLimit :=
  Nat.lt_succ_of_le h

/-- The node under another parent. -/
def Node.withParent (n : Node) (parent : Option RecordId) : Node := { n with parent }

/-- The node in another colour. -/
def Node.withColor (n : Node) (color : Color) : Node := { n with color }

variable [Linked ρ]

namespace Store

/-- What the record `id` holds besides its node. -/
def payload (s : Store ρ) (id : RecordId) : Except Fault ρ :=
  (fun r => Linked.withNode r {}) <$> s.fetch id

/-- The store after `f` was applied to the node of record `id`. -/
def modifyNode (s : Store ρ) (id : RecordId) (f : Node → Node) : Store ρ :=
  s.modify id fun r => Linked.withNode r (f (Linked.node r))

/-- The store after the record `id`, if there is one, was put under `parent`. -/
def setParent (s : Store ρ) (id parent : Option RecordId) : Store ρ :=
  match id with
  | none => s
  | some id => s.modifyNode id (·.withParent parent)

/-- The store after the record `id`, if there is one, was coloured. -/
def paint? (s : Store ρ) (id : Option RecordId) (color : Color) : Store ρ :=
  match id with
  | none => s
  | some id => s.modifyNode id (·.withColor color)

/-- The store after `new` was put in the place of `old` under `parent`, if there is one. -/
def changeChild (s : Store ρ) (old : RecordId) (new parent : Option RecordId) : Store ρ :=
  match parent with
  | none => s
  | some parent => s.modifyNode parent (·.swapChild old new)

/-- A record with a node is a record of the store. -/
theorem lt_of_node {s : Store ρ} {id : RecordId} {n : Node} (h : s.node id = .ok n) :
    id < s.size := by
  obtain ⟨r, hr, -⟩ := except_functor_map_eq_ok.mp h
  exact (fetch_eq_ok.mp hr).1

/-- Each record of the store has a node. -/
theorem exists_node_of_lt {s : Store ρ} {id : RecordId} (h : id < s.size) :
    ∃ n, s.node id = .ok n :=
  ⟨_, node_of_lt h⟩

/-- What holds of the nodes of all records holds of each node that can be read. -/
theorem forall_node {s : Store ρ} {P : Node → Prop}
    (h : ∀ id : Fin s.size, P (Linked.node s[id])) (id : RecordId) (n : Node)
    (hn : s.node id = .ok n) : P n := by
  have hid := lt_of_node hn
  rw [node_of_lt hid] at hn
  exact Except.ok.inj hn ▸ h ⟨id, hid⟩

/-- Changing a node adds no record. -/
@[simp] theorem size_modifyNode (s : Store ρ) (id : RecordId) (f : Node → Node) :
    (s.modifyNode id f).size = s.size := by
  simp [modifyNode]

/-- Changing a parent adds no record. -/
@[simp] theorem size_setParent (s : Store ρ) (id parent : Option RecordId) :
    (s.setParent id parent).size = s.size := by
  cases id <;> simp [setParent]

/-- Colouring adds no record. -/
@[simp] theorem size_paint? (s : Store ρ) (id : Option RecordId) (color : Color) :
    (s.paint? id color).size = s.size := by
  cases id <;> simp [paint?]

/-- Exchanging a child adds no record. -/
@[simp] theorem size_changeChild (s : Store ρ) (old : RecordId) (new parent : Option RecordId) :
    (s.changeChild old new parent).size = s.size := by
  cases parent <;> simp [changeChild]

/-- Stores that agree on the payloads of all records have the same size. -/
theorem size_eq_of_payload {s t : Store ρ} (h : s.payload = t.payload) : s.size = t.size := by
  -- At the end of the shorter store only the longer one has a record.
  rcases Nat.lt_trichotomy s.size t.size with hlt | heq | hgt
  · have := congrFun h s.size
    simp [payload, fetch, hlt, Functor.map, Except.map] at this
  · exact heq
  · have := congrFun h t.size
    simp [payload, fetch, hgt, Functor.map, Except.map] at this

/-- Stores that agree on the nodes of all records have the same size. -/
theorem size_eq_of_node {s t : Store ρ} (h : s.node = t.node) : s.size = t.size := by
  rcases Nat.lt_trichotomy s.size t.size with hlt | heq | hgt
  · have := congrFun h s.size
    simp [node, fetch, hlt, Functor.map, Except.map] at this
  · exact heq
  · have := congrFun h t.size
    simp [node, fetch, hgt, Functor.map, Except.map] at this

omit [Linked ρ] in
/-- A change in place is seen at its own id only. -/
theorem fetch_modify (s : Store ρ) (id j : RecordId) (f : ρ → ρ) :
    Store.fetch (s.modify id f) j = if id = j then f <$> s.fetch j else s.fetch j := by
  by_cases hj : j < s.size
  · by_cases h : id = j
    · subst h
      simp [fetch, hj, Functor.map, Except.map, Array.getElem_modify]
    · simp [fetch, hj, Array.getElem_modify, h]
  · by_cases h : id = j <;> simp [fetch, hj, h, Functor.map, Except.map]

omit [Linked ρ] in
/-- What was there before is still there when a record was added. -/
theorem fetch_push_of_lt {s : Store ρ} {id : RecordId} (r : ρ) (h : id < s.size) :
    Store.fetch (s.push r) id = s.fetch id := by
  have hlt : id < Array.size (s.push r) := by
    rw [Array.size_push]
    exact Nat.lt_succ_of_lt h
  rw [fetch_of_lt hlt, fetch_of_lt h, Array.getElem_push_lt h]

/-- The nodes that were there before are still there when a record was added. -/
theorem node_push_of_lt {s : Store ρ} {id : RecordId} (r : ρ) (h : id < s.size) :
    Store.node (s.push r) id = s.node id :=
  congrArg _ (fetch_push_of_lt r h)

/-- A record that was added is the only new one. -/
theorem node_of_push {s : Store ρ} {r : ρ} {id : RecordId} {n : Node}
    (h : Store.node (s.push r) id = .ok n) :
    s.node id = .ok n ∨ id = s.size ∧ n = Linked.node r := by
  have hlt := lt_of_node h
  by_cases hid : id < s.size
  · exact .inl (node_push_of_lt r hid ▸ h)
  · obtain rfl : id = s.size := by
      rw [Array.size_push] at hlt
      exact Nat.le_antisymm (Nat.le_of_lt_succ hlt) (Nat.le_of_not_lt hid)
    rw [node_of_lt hlt, Array.getElem_push_eq] at h
    exact .inr ⟨rfl, (Except.ok.inj h).symm⟩

variable [LawfulLinked ρ]

/-- A change of a node is seen at its own id only. -/
theorem node_modifyNode (s : Store ρ) (id j : RecordId) (f : Node → Node) :
    (s.modifyNode id f).node j = if id = j then f <$> s.node j else s.node j := by
  rw [node, modifyNode, fetch_modify]
  split
  · rw [node]
    cases s.fetch j <;> simp [Functor.map, Except.map]
  · rfl

/-- A node that is overwritten. -/
theorem node_overwrite {s : Store ρ} {id : RecordId} (h : id < s.size) (n : Node) :
    (s.modifyNode id fun _ => n).node id = .ok n := by
  rw [node_modifyNode, if_pos rfl, node_of_lt h]
  rfl

/-- A new parent is seen at the record that was put under it. -/
theorem node_setParent (s : Store ρ) (id parent : Option RecordId) (j : RecordId) :
    (s.setParent id parent).node j =
      if id = some j then (·.withParent parent) <$> s.node j else s.node j := by
  cases id with
  | none => simp [setParent]
  | some id => simp [setParent, node_modifyNode]

/-- A colour is seen at the record that was coloured. -/
theorem node_paint? (s : Store ρ) (id : Option RecordId) (color : Color) (j : RecordId) :
    (s.paint? id color).node j =
      if id = some j then (·.withColor color) <$> s.node j else s.node j := by
  cases id with
  | none => simp [paint?]
  | some id => simp [paint?, node_modifyNode]

/-- An exchanged child is seen at its parent. -/
theorem node_changeChild (s : Store ρ) (old : RecordId) (new parent : Option RecordId)
    (j : RecordId) :
    (s.changeChild old new parent).node j =
      if parent = some j then (·.swapChild old new) <$> s.node j else s.node j := by
  cases parent with
  | none => simp [changeChild]
  | some parent => simp [changeChild, node_modifyNode]

/-- A change of a node leaves everything else in the records alone. -/
@[simp] theorem payload_modifyNode (s : Store ρ) (id : RecordId) (f : Node → Node) :
    (s.modifyNode id f).payload = s.payload := by
  funext j
  rw [payload, modifyNode, fetch_modify]
  split
  · rw [payload]
    cases s.fetch j <;> simp [Functor.map, Except.map]
  · rfl

/-- So does a new parent. -/
@[simp] theorem payload_setParent (s : Store ρ) (id parent : Option RecordId) :
    (s.setParent id parent).payload = s.payload := by
  cases id <;> simp [setParent]

/-- So does a colour. -/
@[simp] theorem payload_paint? (s : Store ρ) (id : Option RecordId) (color : Color) :
    (s.paint? id color).payload = s.payload := by
  cases id <;> simp [paint?]

/-- So does an exchanged child. -/
@[simp] theorem payload_changeChild (s : Store ρ) (old : RecordId)
    (new parent : Option RecordId) : (s.changeChild old new parent).payload = s.payload := by
  cases parent <;> simp [changeChild]

/-- Records of one payload differ in their nodes only. -/
theorem record_eq_of_payload {s s' : Store ρ} {id : RecordId} {r r' : ρ}
    (hr : s.fetch id = .ok r) (hr' : s'.fetch id = .ok r')
    (hpayload : s'.payload id = s.payload id) : r' = Linked.withNode r (Linked.node r') := by
  simp only [payload, hr, hr', Functor.map, Except.map, Except.ok.injEq] at hpayload
  have hrecord := congrArg (Linked.withNode · (Linked.node r')) hpayload
  simpa only [LawfulLinked.withNode_withNode, LawfulLinked.withNode_node] using hrecord

/-- A record is what its node and its payload make of it. -/
theorem fetch_congr {s s' : Store ρ} {id : RecordId} (hnode : s'.node id = s.node id)
    (hpayload : s'.payload id = s.payload id) : s'.fetch id = s.fetch id := by
  cases hr : s.fetch id with
  | error e => cases hr' : s'.fetch id <;> simp_all [payload, Functor.map, Except.map]
  | ok r =>
    cases hr' : s'.fetch id with
    | error e => simp_all [payload, Functor.map, Except.map]
    | ok r' =>
      have hrecord := record_eq_of_payload hr hr' hpayload
      simp only [node, hr, hr', Functor.map, Except.map, Except.ok.injEq] at hnode
      rw [hrecord, hnode, LawfulLinked.withNode_node]

end Store

namespace Update

variable {s : Store ρ} {c : σ}

/-- Reading a node returns if there is one. -/
@[simp] theorem returns_node {id : RecordId} {Q : Node → Store ρ → σ → Prop} :
    (node id).Returns s c Q ↔ ∃ n, s.node id = .ok n ∧ Q n s c :=
  returns_read

/-- Changing a node returns if the store has the record. -/
@[simp] theorem returns_modifyNode {id : RecordId} {f : Node → Node}
    {Q : Unit → Store ρ → σ → Prop} :
    (modifyNode id f).Returns s c Q ↔ id < s.size ∧ Q () (s.modifyNode id f) c :=
  returns_modifyRecord

/-- Colouring a node returns if the store has the record. -/
@[simp] theorem returns_paint {id : RecordId} {color : Color} {Q : Unit → Store ρ → σ → Prop} :
    (paint id color).Returns s c Q ↔ id < s.size ∧ Q () (s.paint? (some id) color) c :=
  returns_modifyNode

/-- Colouring a node that may be missing returns if the store has the record, or there is none. -/
@[simp] theorem returns_paint? {id : Option RecordId} {color : Color}
    {Q : Unit → Store ρ → σ → Prop} :
    (paint? id color).Returns s c Q ↔
      (∀ j, id = some j → j < s.size) ∧ Q () (s.paint? id color) c := by
  cases id with
  | none => simp [paint?, Store.paint?]
  | some id => simp [paint?]

/-- Putting a record that may be missing under another parent returns if the store has it, or there
is none. -/
@[simp] theorem returns_setParent {id parent : Option RecordId}
    {Q : Unit → Store ρ → σ → Prop} :
    (setParent id parent).Returns s c Q ↔
      (∀ j, id = some j → j < s.size) ∧ Q () (s.setParent id parent) c := by
  cases id with
  | none => simp [setParent, Store.setParent]
  | some id =>
    show (modifyNode id (·.withParent parent)).Returns s c Q ↔ _
    rw [returns_modifyNode]
    simp [Store.setParent]

end Update

/-- The handle after `new` was put in the place of `old` under `parent`. -/
def Tree.withChild (t : Tree) (new parent : Option RecordId) : Tree :=
  match parent with
  | none => ⟨new⟩
  | some _ => t

/-- Exchanging a child returns if the store has the parent. At the root it is the handle that
changes. -/
@[simp] theorem returns_changeChild {t : Tree} {s : Store ρ} {c : σ} {old : RecordId}
    {new parent : Option RecordId} {Q : Tree → Store ρ → σ → Prop} :
    (t.changeChild old new parent).Returns s c Q ↔
      (∀ j, parent = some j → j < s.size) ∧
        Q (t.withChild new parent) (s.changeChild old new parent) c := by
  cases parent with
  | none => simp [Tree.changeChild, Tree.withChild, Store.changeChild]
  | some parent => simp [Tree.changeChild, Tree.withChild, Store.changeChild]

end RecordTree
