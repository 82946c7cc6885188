import Mathlib.Order.WithBot
import RecordTree.Interval.Entry
import RecordTree.Proofs.Augmentation

/-!
# `RecordTree.Proofs.Interval.Entry`: stops, reaches, and a change of one reach

What an interval tree says of its records does not depend on their nodes, so it is stated of
their payloads. `Payloads.stopAt` and `Payloads.reachAt` read them as keys with a bottom
element, which stands for a record that is not there. Together with the largest stop of an
empty subtree being the bottom element too, this leaves no cases to tell apart.

`Store.setReach` changes one reach, and with it nothing else that is of interest:
`Payloads.Resummed` says that a run changed reaches only, and those of given records only.
-/

set_option autoImplicit false

namespace RecordTree

variable {ρ σ κ : Type} [Spanned ρ κ]

/-! ### Payloads -/

namespace Payloads

/-- The stop of the record `id`. -/
def stopAt (p : Payloads ρ) (id : RecordId) : WithBot κ :=
  match p id with
  | .ok r => ((Spanned.entry r).stop : κ)
  | .error _ => ⊥

/-- The reach of the record `id`. -/
def reachAt (p : Payloads ρ) (id : RecordId) : WithBot κ :=
  match p id with
  | .ok r => ((Spanned.entry r).reach : κ)
  | .error _ => ⊥

/-- The record `id` without its reach. -/
def span (p : Payloads ρ) (id : RecordId) : Except Fault ρ :=
  (fun r => Spanned.withEntry r { Spanned.entry r with reach := (Spanned.entry r).stop }) <$> p id

/-- The payloads with another reach for `id`. -/
def setReach (p : Payloads ρ) (id : RecordId) (reach : κ) : Payloads ρ := fun j =>
  if j = id then (fun r => Spanned.withEntry r { Spanned.entry r with reach }) <$> p j else p j

/-- The payloads `q` have other reaches than `p` at the records `l`, if anywhere. -/
structure Resummed (p q : Payloads ρ) (l : List RecordId) : Prop where
  span_eq : q.span = p.span
  frame : ∀ j, j ∉ l → q j = p j

variable {p q r : Payloads ρ} {id j : RecordId} {reach : κ} {l m : List RecordId}

/-- Payloads do not differ from themselves. -/
theorem Resummed.refl (p : Payloads ρ) (l : List RecordId) : p.Resummed p l :=
  ⟨rfl, fun _ _ => rfl⟩

/-- Changes of reaches at the same records add up to changes at these records. -/
theorem Resummed.trans (h : p.Resummed q l) (h' : q.Resummed r l) : p.Resummed r l :=
  ⟨h'.span_eq.trans h.span_eq, fun j hj => (h'.frame j hj).trans (h.frame j hj)⟩

/-- Reaches that have changed at some records have changed at more records. -/
theorem Resummed.mono (h : p.Resummed q l) (hsub : ∀ j ∈ l, j ∈ m) : p.Resummed q m :=
  ⟨h.span_eq, fun j hj => h.frame j fun hin => hj (hsub j hin)⟩

/-- At its own record, a reach that is set takes the place of the one before. -/
@[simp] theorem setReach_self : p.setReach id reach id =
    (fun r => Spanned.withEntry r { Spanned.entry r with reach }) <$> p id :=
  if_pos rfl

/-- The other payloads stay when a reach is set. -/
theorem setReach_of_ne (h : j ≠ id) : p.setReach id reach j = p j := if_neg h

/-- The other reaches stay when a reach is set. -/
theorem reachAt_setReach_of_ne (h : j ≠ id) : (p.setReach id reach).reachAt j = p.reachAt j := by
  unfold reachAt
  rw [setReach_of_ne h]

/-- A reach stays where none may have changed. -/
theorem Resummed.reachAt_eq (h : p.Resummed q l) (hj : j ∉ l) : q.reachAt j = p.reachAt j := by
  unfold reachAt
  rw [h.frame j hj]

variable [LawfulSpanned ρ]

/-- The stop is read off what there is besides the reach. -/
theorem stopAt_of_span (h : q.span id = p.span id) : q.stopAt id = p.stopAt id := by
  unfold span at h
  unfold stopAt
  cases hq : q id with
  | error e => cases hp : p id <;> simp_all [Functor.map, Except.map]
  | ok a =>
    cases hp : p id with
    | error e => simp_all [Functor.map, Except.map]
    | ok b =>
      simp only [hq, hp, Functor.map, Except.map, Except.ok.injEq] at h
      have hstop := congrArg (fun r => (Spanned.entry r).stop) h
      simp only [LawfulSpanned.entry_withEntry] at hstop
      exact congrArg _ hstop

/-- All stops stay when reaches change. -/
theorem Resummed.stopAt_eq (h : p.Resummed q l) : q.stopAt = p.stopAt :=
  funext fun j => stopAt_of_span (congrFun h.span_eq j)

/-- The reach that was set is the one that is read. -/
theorem reachAt_setReach_self {a : ρ} (h : p id = .ok a) :
    (p.setReach id reach).reachAt id = reach := by
  simp [reachAt, h, Functor.map, Except.map]

/-- Setting a reach changes reaches at its own record only. -/
theorem resummed_setReach (hid : id ∈ l) : p.Resummed (p.setReach id reach) l := by
  refine ⟨funext fun j => ?_, fun j hj => setReach_of_ne (ne_of_mem_of_not_mem hid hj).symm⟩
  by_cases h : j = id
  · subst h
    rw [span, span, setReach_self]
    cases p j <;> simp [Functor.map, Except.map]
  · rw [span, span, setReach_of_ne h]

/-- Setting a reach leaves all stops alone. -/
@[simp] theorem stopAt_setReach : (p.setReach id reach).stopAt = p.stopAt :=
  (resummed_setReach (List.mem_singleton_self id)).stopAt_eq

end Payloads

/-! ### Stores -/

namespace Store

variable {s : Store ρ} {id j : RecordId} {f g : Entry κ → Entry κ}

/-- The store after `f` was applied to the interval of record `id`. -/
def modifyEntry (s : Store ρ) (id : RecordId) (f : Entry κ → Entry κ) : Store ρ :=
  s.modify id fun r => Spanned.withEntry r (f (Spanned.entry r))

/-- The store with another reach for `id`. -/
def setReach (s : Store ρ) (id : RecordId) (reach : κ) : Store ρ :=
  s.modifyEntry id fun e => { e with reach }

/-- A change of an interval adds no record. -/
@[simp] theorem size_modifyEntry : (s.modifyEntry id f).size = s.size := by
  simp [modifyEntry]

/-- Setting a reach adds no record. -/
@[simp] theorem size_setReach (s : Store ρ) (id : RecordId) (reach : κ) :
    (s.setReach id reach).size = s.size :=
  size_modifyEntry

/-- The other records stay when an interval changes. -/
theorem fetch_modifyEntry_of_ne (h : j ≠ id) : (s.modifyEntry id f).fetch j = s.fetch j := by
  by_cases hj : j < s.size
  · simp [modifyEntry, fetch, hj, Array.getElem_modify, Ne.symm h]
  · simp [modifyEntry, fetch, hj]

/-- The changed interval is in its record. -/
theorem fetch_modifyEntry_self (s : Store ρ) (id : RecordId) (f : Entry κ → Entry κ) :
    (s.modifyEntry id f).fetch id =
      (fun r => Spanned.withEntry r (f (Spanned.entry r))) <$> s.fetch id := by
  by_cases hid : id < s.size
  · simp [modifyEntry, fetch, hid, Functor.map, Except.map, Array.getElem_modify]
  · simp [modifyEntry, fetch, hid, Functor.map, Except.map]

/-- The interval of a record in the store. -/
theorem exists_entry {n : Node} (h : s.node id = .ok n) : ∃ e, s.entry id = .ok e ∧ e.node = n := by
  obtain ⟨r, hr, hn⟩ := except_functor_map_eq_ok.mp h
  exact ⟨Spanned.entry r, except_functor_map_eq_ok.mpr ⟨r, hr, rfl⟩, hn⟩

/-- Two changes are one if they agree on the interval that they change. -/
theorem modifyEntry_congr {e : Entry κ} (he : s.entry id = .ok e) (h : f e = g e) :
    s.modifyEntry id f = s.modifyEntry id g := by
  obtain ⟨r, hr, rfl⟩ := except_functor_map_eq_ok.mp he
  obtain ⟨hlt, rfl⟩ := fetch_eq_ok.mp hr
  refine Array.ext (by simp [modifyEntry]) ?_
  intro j hj _
  by_cases heq : id = j
  · subst heq
    simp [modifyEntry, Array.getElem_modify, h]
  · simp [modifyEntry, Array.getElem_modify, heq]

variable [LawfulSpanned ρ]

/-- A change of an interval that is none of its node leaves all nodes alone. -/
theorem node_modifyEntry (h : ∀ e, (f e).node = e.node) : (s.modifyEntry id f).node = s.node := by
  funext j
  unfold node
  by_cases heq : j = id
  · subst heq
    rw [fetch_modifyEntry_self]
    cases s.fetch j <;> simp [Functor.map, Except.map, Linked.node, h]
  · rw [fetch_modifyEntry_of_ne heq]

/-- Setting a reach changes no node. -/
@[simp] theorem node_setReach (s : Store ρ) (id : RecordId) (reach : κ) :
    (s.setReach id reach).node = s.node :=
  node_modifyEntry fun _ => rfl

/-- On payloads, setting the reach of a record is setting the reach of its payload. -/
@[simp] theorem payload_setReach (s : Store ρ) (id : RecordId) (reach : κ) :
    (s.setReach id reach).payload = Payloads.setReach s.payload id reach := by
  funext j
  unfold payload setReach
  by_cases heq : j = id
  · subst heq
    rw [fetch_modifyEntry_self, Payloads.setReach_self]
    cases s.fetch j <;> simp [Functor.map, Except.map, Linked.withNode]
  · rw [fetch_modifyEntry_of_ne heq, Payloads.setReach_of_ne heq]

/-- Setting the reach of a record changes reaches at that record only. -/
theorem resummed_setReach {l : List RecordId} (s : Store ρ) (reach : κ) (hid : id ∈ l) :
    Payloads.Resummed s.payload (s.setReach id reach).payload l := by
  rw [payload_setReach]
  exact Payloads.resummed_setReach hid

omit [LawfulSpanned ρ] in
/-- The node of a record is the one in its interval. -/
theorem node_eq_entry (s : Store ρ) (id : RecordId) : s.node id = Entry.node <$> s.entry id := by
  unfold node entry
  cases s.fetch id <;> rfl

/-- A record with the same interval has the same stop and reach. -/
theorem stopAt_reachAt_congr {s' : Store ρ} (h : s'.entry id = s.entry id) :
    Payloads.stopAt s'.payload id = Payloads.stopAt s.payload id ∧
      Payloads.reachAt s'.payload id = Payloads.reachAt s.payload id := by
  unfold entry at h
  unfold Payloads.stopAt Payloads.reachAt payload
  cases hs : s.fetch id with
  | error e => cases hs' : s'.fetch id <;> simp_all [Functor.map, Except.map]
  | ok r =>
    cases hs' : s'.fetch id with
    | error e => simp_all [Functor.map, Except.map]
    | ok r' =>
      simp only [hs, hs', Functor.map, Except.map, Except.ok.injEq] at h
      simp [Functor.map, Except.map, Linked.withNode, h]

/-- An interval as its payload has it. -/
theorem payload_of_entry {e : Entry κ} (h : s.entry id = .ok e) :
    (∃ a, s.payload id = .ok a) ∧ Payloads.stopAt s.payload id = (e.stop : WithBot κ) ∧
      Payloads.reachAt s.payload id = (e.reach : WithBot κ) := by
  obtain ⟨r, hr, rfl⟩ := except_functor_map_eq_ok.mp h
  have hpayload : s.payload id = .ok (Linked.withNode r {}) := by
    simp only [payload, hr]
    rfl
  refine ⟨⟨_, hpayload⟩, ?_, ?_⟩
  · simp [Payloads.stopAt, hpayload, Linked.withNode]
  · simp [Payloads.reachAt, hpayload, Linked.withNode]

end Store

namespace Update

variable {s : Store ρ} {x : σ}

/-- Reading an interval returns if there is one. -/
@[simp] theorem returns_entry {id : RecordId} {Q : Entry κ → Store ρ → σ → Prop} :
    (entry id).Returns s x Q ↔ ∃ e, s.entry id = .ok e ∧ Q e s x :=
  returns_read

/-- Changing an interval returns if the store has the record. -/
@[simp] theorem returns_modifyEntry {id : RecordId} {f : Entry κ → Entry κ}
    {Q : Unit → Store ρ → σ → Prop} :
    (modifyEntry id f).Returns s x Q ↔ id < s.size ∧ Q () (s.modifyEntry id f) x :=
  returns_modifyRecord

/-- Setting a reach returns if the store has the record. -/
theorem returns_setReach {id : RecordId} {reach : κ} {Q : Unit → Store ρ → σ → Prop} :
    (modifyEntry id fun e => { e with reach }).Returns s x Q ↔
      id < s.size ∧ Q () (s.setReach id reach) x :=
  returns_modifyEntry

end Update

end RecordTree
