import RecordTree.Interval.Tree
import RecordTree.Proofs.Interval.Entry
import RecordTree.Proofs.Tree.Insert

/-!
# `RecordTree.Proofs.Guards`: what the guards turn down, and what is left of it

A guard goes by the state of the records that a call names, and by what the slot holds. It stands
behind a descent, behind the reset of a reach, or behind another guard, and in front of all that
changes a record. `Request.verdict` says which calls are turned down, and under which heading.

What a call that is turned down did besides is nothing, whichever store it ran on: `Obeys` says so
by comparing its runs. With any callbacks in place of its own, even with ones that fail, it comes
to the same end, so it made none of them. With any listener it leaves the context that this
listener makes of one and the same context by hearing the rejection, so that it was heard once, and
nothing before. A call that is let through ends the same with any listener, so that none heard
anything.

All of it holds under any `Limits` on the steps of the loops. On a store with a cycle there may be
no bound on the steps that a call takes and still returns, since a comparator may leave the cycle
whenever it likes.

* `Guarded.Decides`: the same for a computation on a given store, with one lemma for each thing
  that guarded calls are made of.
* `Tree.slotHolds_of_descendFrom`: a descent ends at a position that holds no node, so an insertion
  is turned down for the state of its node only.
* `IntervalTree.resetReach_run`: the reset in front of an insertion does not touch a linked record.
* `calls_obey_verdict`: all calls obey, through all kinds of handles.
-/

set_option autoImplicit false

namespace RecordTree

variable {ρ σ τ α β : Type}

/-! ### Calls through a handle -/

/-- The handle of a tree of any kind, the store of its records, and the caller's context. -/
structure Session (τ ρ σ : Type) where
  store : Store ρ
  handle : τ
  context : σ

/-- Makes a call through the handle. Returns what turned it down, if a guard did. The caller then
has the handle that it had. -/
def Session.make (f : Session τ ρ σ) (call : τ → Guarded ρ σ τ) :
    Except Fault (Option Rejection × Session τ ρ σ) := do
  let ((outcome, store), context) ← (call f.handle).run f.store f.context
  match outcome with
  | .ok handle => pure (none, ⟨store, handle, context⟩)
  | .error r => pure (some r, ⟨store, f.handle, context⟩)

/-- Whenever the call returns, it is turned down exactly under the heading that `verdict` gives for
the store and the handle. If it is let through, then no listener heard of it. If it is turned down,
then store and handle are as they were, no callback was made, and the rejection was heard once. -/
def Obeys (call : [Listener σ] → Augmentation ρ σ → τ → Guarded ρ σ τ)
    (verdict : Store ρ → τ → Option Kind) : Prop :=
  ∀ (listener : Listener σ) (aug : Augmentation ρ σ) (f f' : Session τ ρ σ)
    (outcome : Option Rejection),
    f.make (@call listener aug) = .ok (outcome, f') →
      outcome.map Rejection.kind = verdict f.store f.handle ∧
      match outcome with
      | none => ∀ other : Listener σ, f.make (@call other aug) = .ok (none, f')
      | some r => ∃ x, ∀ (other : Listener σ) (aug' : Augmentation ρ σ),
          f.make (@call other aug') = .ok (some r, { f with context := other.hear r x })

/-- A call that guards stand in front of. -/
inductive Request (ρ σ : Type) where
  | insert (id : RecordId) (compare : Comparator ρ σ)
  | link (vacancy : Vacancy) (id : RecordId)
  | delete (id : RecordId)
  | replace (old new : RecordId)

section Verdict

variable [Linked ρ]

/-- The record `id` is marked as part of a tree. -/
def Store.isLinked (s : Store ρ) (id : RecordId) : Bool :=
  match s.node id with
  | .ok n => n.state = .linked
  | .error _ => false

/-- The slot of the tree already holds the record `id`. -/
def Tree.slotHolds (t : Tree) (s : Store ρ) (slot : Slot) (id : RecordId) : Bool :=
  match slot.parent with
  | none => t.root = some id
  | some parent =>
    match s.node parent with
    | .ok p => p.child slot.side = some id
    | .error _ => false

namespace Request

/-- The heading under which the guards turn the request down, on the store as it is. -/
def verdict (s : Store ρ) (t : Tree) : Request ρ σ → Option Kind
  | insert id _ => if s.isLinked id then some .doubleInsert else none
  | link vacancy id =>
    if t.slotHolds s vacancy.slot id || s.isLinked id then some .doubleInsert else none
  | delete id => if s.isLinked id then none else some .doubleDelete
  | replace old new =>
    if s.isLinked old then if s.isLinked new then some .doubleInsert else none
    else some .doubleDelete

variable [Listener σ]

/-- Makes the request of a tree, with the callbacks `aug`. A replacement makes none. -/
def onTree (aug : Augmentation ρ σ) (t : Tree) (q : Request ρ σ) (limits : Limits ρ := .ample) :
    Guarded ρ σ Tree :=
  match q with
  | insert id compare => t.insertWith aug id compare limits
  | link vacancy id => t.linkWith aug vacancy.slot id limits
  | delete id => t.deleteWith aug id limits
  | replace old new => t.replace old new

/-- Makes the request of a cached tree, with the callbacks `aug`. -/
def onCached (aug : Augmentation ρ σ) (t : CachedTree) (q : Request ρ σ)
    (limits : Limits ρ := .ample) : Guarded ρ σ CachedTree :=
  match q with
  | insert id compare => t.insertWith aug id compare limits
  | link vacancy id => t.linkWith aug vacancy id limits
  | delete id => t.deleteWith aug id limits
  | replace old new => t.replace old new

end Request

end Verdict

namespace IntervalTree

variable {κ : Type} [Spanned ρ κ] [LT κ] [DecidableLT κ] [DecidableEq κ] [Listener σ]

/-- An insertion with the callbacks `aug`, which are `reachSummary` in `IntervalTree.insert`. -/
def insertWith (aug : Augmentation ρ σ) (t : IntervalTree) (id : RecordId)
    (limits : Limits ρ := .ample) : Guarded ρ σ IntervalTree := do
  Guarded.update (resetReach id)
  let cached ← t.cached.insertWith aug id (.of compareStart) limits
  pure ⟨cached⟩

/-- A deletion with the callbacks `aug`, which are `reachSummary` in `IntervalTree.delete`. -/
def deleteWith (aug : Augmentation ρ σ) (t : IntervalTree) (id : RecordId)
    (limits : Limits ρ := .ample) : Guarded ρ σ IntervalTree := do
  let cached ← t.cached.deleteWith aug id limits
  pure ⟨cached⟩

end IntervalTree

/-! ### Decisions on a given store -/

/-- As `Obeys` has it for a call through a handle, for the runs of `g` on the store `s`. -/
def Guarded.Decides (g : [Listener σ] → Augmentation ρ σ → Guarded ρ σ α) (s : Store ρ)
    (verdict : Option Kind) : Prop :=
  ∀ (listener : Listener σ) (aug : Augmentation ρ σ) (x : σ) (out : Except Rejection α)
    (s' : Store ρ) (x' : σ),
    (@g listener aug).run s x = .ok ((out, s'), x') →
      match out with
      | .ok a => verdict = none ∧
          ∀ other : Listener σ, (@g other aug).run s x = .ok ((.ok a, s'), x')
      | .error r => verdict = some r.kind ∧ s' = s ∧
          ∃ y, ∀ (other : Listener σ) (aug' : Augmentation ρ σ),
            (@g other aug').run s x = .ok ((.error r, s), other.hear r y)

namespace Guarded

/-! ### Runs of what guarded calls are made of -/

/-- What comes behind an update runs on what the update left. -/
theorem run_update_bind (u : Update ρ σ β) (f : β → Guarded ρ σ α) (s : Store ρ) (x : σ) :
    (Guarded.update u >>= f).run s x = (u s x >>= fun out => (f out.1.1).run out.1.2 out.2) := by
  rw [Guarded.update, ExceptT.run_bind, ExceptT.run_lift, bind_map_left]
  rfl

/-- Behind the guards an update runs as it does alone, and nothing turns it down. -/
theorem run_update (u : Update ρ σ α) (s : Store ρ) (x : σ) :
    (Guarded.update u).run s x = (u s x).map fun out => ((.ok out.1.1, out.1.2), out.2) := by
  rw [Guarded.update, ExceptT.run_lift]
  rfl

/-- When what a call returns is mapped, it runs as before and is turned down as before. -/
theorem run_bind_pure (g : Guarded ρ σ α) (f : α → β) (s : Store ρ) (x : σ) :
    (g >>= fun a => pure (f a)).run s x =
      (g.run s x).map fun out => ((out.1.1.map f, out.1.2), out.2) := by
  rw [bind_pure_comp, ExceptT.run_map]
  rfl

variable {s : Store ρ} {verdict : Option Kind}

/-- An update is never turned down. -/
theorem decides_update (u : Augmentation ρ σ → Update ρ σ α) (s : Store ρ) :
    Decides (fun aug => Guarded.update (u aug)) s none := by
  intro listener aug x out s' x' hrun
  have hrun' := hrun
  rw [run_update] at hrun'
  obtain ⟨_, -, heq⟩ := except_map_eq_ok.mp hrun'
  cases heq
  exact ⟨rfl, fun _ => hrun⟩

/-- A rejection is turned down under its own heading, whatever comes after it. -/
theorem decides_reject_bind (r : Rejection)
    (f : [Listener σ] → Augmentation ρ σ → β → Guarded ρ σ α) (s : Store ρ) :
    Decides (fun aug => reject r >>= f aug) s (some r.kind) := by
  intro listener aug x out s' x' hrun
  cases hrun
  exact ⟨rfl, rfl, x, fun _ _ => rfl⟩

/-- An update in front of what is decided goes with it, unless it changes a store on which the call
is turned down. -/
theorem Decides.after {u : Update ρ σ β}
    {f : [Listener σ] → Augmentation ρ σ → β → Guarded ρ σ α}
    (h : ∀ x b s' x', u s x = .ok ((b, s'), x') →
      (s' = s ∨ verdict = none) ∧ Decides (fun aug => f aug b) s' verdict) :
    Decides (fun aug => Guarded.update u >>= f aug) s verdict := by
  intro listener aug x out s' x' hrun
  rw [run_update_bind] at hrun
  obtain ⟨⟨⟨b, s₁⟩, x₁⟩, hu, hrest⟩ := except_bind_eq_ok.mp hrun
  obtain ⟨hs, hdecides⟩ := h x b s₁ x₁ hu
  have hout := hdecides listener aug x₁ out s' x' hrest
  cases out with
  | ok a =>
    refine ⟨hout.1, fun other => ?_⟩
    rw [run_update_bind, hu]
    exact hout.2 other
  | error r =>
    obtain ⟨hverdict, rfl, y, hother⟩ := hout
    -- A store that the update changed is none on which the call is turned down.
    obtain rfl := hs.resolve_right fun hnone => by simp [hverdict] at hnone
    refine ⟨hverdict, rfl, y, fun other aug' => ?_⟩
    rw [run_update_bind, hu]
    exact hother other aug'

/-- A reading in front of what is decided. -/
theorem Decides.after_read {reading : Store ρ → Except Fault β}
    {f : [Listener σ] → Augmentation ρ σ → β → Guarded ρ σ α}
    (h : ∀ b, reading s = .ok b → Decides (fun aug => f aug b) s verdict) :
    Decides (fun aug => Guarded.update (Update.read reading) >>= f aug) s verdict := by
  refine Decides.after fun x b s' x' hrun => ?_
  obtain ⟨_, hb, heq⟩ := except_map_eq_ok.mp hrun
  cases heq
  exact ⟨.inl rfl, h b hb⟩

/-- Mapping what a call returns leaves its verdict alone. -/
theorem Decides.bind_pure {g : [Listener σ] → Augmentation ρ σ → Guarded ρ σ α}
    (h : Decides g s verdict) (f : α → β) :
    Decides (fun aug => g aug >>= fun a => pure (f a)) s verdict := by
  intro listener aug x out s' x' hrun
  rw [run_bind_pure] at hrun
  obtain ⟨⟨⟨outcome, s₁⟩, x₁⟩, hfirst, heq⟩ := except_map_eq_ok.mp hrun
  cases heq
  have hout := h listener aug x outcome s₁ x₁ hfirst
  cases outcome with
  | ok a =>
    refine ⟨hout.1, fun other => ?_⟩
    rw [run_bind_pure, hout.2 other]
    rfl
  | error r =>
    obtain ⟨hverdict, rfl, y, hother⟩ := hout
    refine ⟨hverdict, rfl, y, fun other aug' => ?_⟩
    rw [run_bind_pure, hother other aug']
    rfl

end Guarded

/-! ### The guards -/

section Guards

variable [Linked ρ] {s : Store ρ} {verdict : Option Kind}

open Guarded (Decides decides_update decides_reject_bind)

/-- A record is marked as part of a tree by the state of its node. -/
theorem Store.isLinked_of_node {id : RecordId} {n : Node} (h : s.node id = .ok n) :
    s.isLinked id = decide (n.state = .linked) := by
  simp [isLinked, h]

/-- Behind the guards of a link, a record that stands in the slot or is linked is a double
insertion. Everything else is decided by what follows. -/
theorem decides_checkLink {g : [Listener σ] → Augmentation ρ σ → Guarded ρ σ α}
    (h : Decides g s verdict) (parent occupant : Option RecordId) (id : RecordId) :
    Decides (fun aug => checkLink parent occupant id >>= fun _ => g aug) s
      (if occupant = some id ∨ s.isLinked id then some .doubleInsert else verdict) := by
  unfold checkLink
  by_cases hoccupant : occupant = some id
  · simp only [hoccupant, if_true, true_or]
    exact decides_reject_bind _ _ s
  · simp only [hoccupant, if_false, false_or, bind_assoc]
    refine Decides.after_read fun n hn => ?_
    rw [Store.isLinked_of_node hn]
    cases n.state with
    | linked => exact decides_reject_bind _ _ s
    | detached => simpa using h
    | removed => simpa using h

/-- Behind the guard of a deletion, a record that is not linked is a double deletion. Everything
else is decided by what follows. -/
theorem decides_checkDelete {g : [Listener σ] → Augmentation ρ σ → Guarded ρ σ α}
    (h : Decides g s verdict) (id : RecordId) :
    Decides (fun aug => checkDelete id >>= fun _ => g aug) s
      (if s.isLinked id then verdict else some .doubleDelete) := by
  simp only [checkDelete, bind_assoc]
  refine Decides.after_read fun n hn => ?_
  rw [Store.isLinked_of_node hn]
  cases n.state with
  | linked => simpa using h
  | detached => exact decides_reject_bind _ _ s
  | removed => exact decides_reject_bind _ _ s

end Guards

/-! ### Calls on trees -/

section Calls

variable [Linked ρ] {s : Store ρ} {limits : Limits ρ}

open Guarded (Decides decides_update)

namespace Tree


/-- Asking for the occupant of a slot only reads it. -/
theorem occupant_run {t : Tree} {slot : Slot} {x x' : σ} {occupant : Option RecordId}
    {s' : Store ρ} (hrun : t.occupant slot s x = .ok ((occupant, s'), x')) :
    s' = s ∧ ∀ id, t.slotHolds s slot id = decide (occupant = some id) := by
  have hreturns : (t.occupant slot).Returns s x fun a t' _ => a = occupant ∧ t' = s' :=
    ⟨occupant, s', x', hrun, rfl, rfl⟩
  unfold Tree.occupant at hreturns
  unfold slotHolds
  cases hparent : slot.parent with
  | none =>
    simp only [hparent, Update.returns_pure] at hreturns
    obtain ⟨rfl, rfl⟩ := hreturns
    exact ⟨rfl, fun _ => rfl⟩
  | some parent =>
    simp only [hparent, Update.returns_bind, Update.returns_node, Update.returns_pure] at hreturns
    obtain ⟨p, hp, rfl, rfl⟩ := hreturns
    exact ⟨rfl, fun _ => by simp only [hp]⟩

/-- A link is turned down as a double insertion exactly if the slot holds the record or the record
is linked. -/
theorem decides_linkWith (t : Tree) (slot : Slot) (id : RecordId) (s : Store ρ) :
    Decides (σ := σ) (fun aug => t.linkWith aug slot id limits) s
      (if t.slotHolds s slot id ∨ s.isLinked id then some .doubleInsert else none) := by
  refine Decides.after fun x occupant s' x' hrun => ?_
  obtain ⟨rfl, hholds⟩ := occupant_run hrun
  simp only [hholds, decide_eq_true_eq]
  exact ⟨by simp, decides_checkLink (decides_update _ s') slot.parent occupant id⟩

/-- A step of a descent fetches both records that it compares. -/
theorem exists_fetch_of_descendFrom {id below : RecordId} {compare : Comparator ρ σ} {steps : Nat}
    {here : Vacancy} {x : σ} {out : Vacancy × σ}
    (hrun : descendFrom s id compare (steps + 1) (some below) here x = .ok out) :
    ∃ new old, s.fetch id = .ok new ∧ s.fetch below = .ok old := by
  unfold descendFrom at hrun
  cases hnew : s.fetch id with
  | error fault => simp [Query.read, hnew, bind, StateT.bind, Except.map, Except.bind] at hrun
  | ok new =>
    cases hold : s.fetch below with
    | error fault =>
      simp [Query.read, hnew, hold, bind, StateT.bind, Except.map, Except.bind] at hrun
    | ok old => exact ⟨new, old, rfl, rfl⟩

/-- A descent from a position that the slot holds ends at an empty one. -/
theorem slotHolds_of_descendFrom {t : Tree} {id : RecordId} {compare : Comparator ρ σ}
    {steps : Nat} {position : Option RecordId} {here vacancy : Vacancy} {x x' : σ}
    (hrun : descendFrom s id compare steps position here x = .ok (vacancy, x'))
    (hhere : ∀ j, t.slotHolds s here.slot j = decide (position = some j)) (j : RecordId) :
    t.slotHolds s vacancy.slot j = false := by
  -- The invariant is `hhere`: what stands at the slot reached so far is the position to go on from.
  induction steps generalizing position here x with
  | zero =>
    cases position with
    | none =>
      cases hrun
      simp [hhere]
    | some below => cases hrun
  | succ steps ih =>
    cases position with
    | none =>
      cases hrun
      simp [hhere]
    | some below =>
      obtain ⟨new, old, hnew, hold⟩ := exists_fetch_of_descendFrom hrun
      have hnode : s.node below = .ok (Linked.node old) :=
        except_functor_map_eq_ok.mpr ⟨old, hold, rfl⟩
      rw [descendFrom_some steps here hnew hold rfl] at hrun
      refine ih hrun fun j => ?_
      simp only [slotHolds, hnode]

/-- What links at the slot that a descent found. The slot does not hold the node. -/
theorem decides_descend (t : Tree) (id : RecordId) (compare : Comparator ρ σ)
    {link : [Listener σ] → Augmentation ρ σ → Vacancy → Guarded ρ σ α}
    (h : ∀ vacancy, Decides (fun aug => link aug vacancy) s
      (if t.slotHolds s vacancy.slot id ∨ s.isLinked id then some .doubleInsert else none)) :
    Decides
      (fun aug => Guarded.update (Update.query (t.descend · id compare limits)) >>= link aug) s
      (if s.isLinked id then some .doubleInsert else none) := by
  refine Decides.after fun x vacancy s' x' hrun => ?_
  obtain ⟨⟨_, _⟩, hdescend, heq⟩ := except_map_eq_ok.mp hrun
  cases heq
  have hvacant := slotHolds_of_descendFrom hdescend fun _ => rfl
  exact ⟨.inl rfl, by simpa [hvacant] using h vacancy⟩

/-- A deletion is turned down as a double deletion exactly if the record is not linked. -/
theorem decides_deleteWith (t : Tree) (id : RecordId) (s : Store ρ) :
    Decides (σ := σ) (fun aug => t.deleteWith aug id limits) s
      (if s.isLinked id then none else some .doubleDelete) :=
  decides_checkDelete (decides_update _ s) id

/-- A replacement is turned down as a double deletion if the old record is not linked, and else as a
double insertion if the new one is. -/
theorem decides_replace (t : Tree) (old new : RecordId) (s : Store ρ) :
    Decides (σ := σ) (fun _ => t.replace old new) s
      (if s.isLinked old then if s.isLinked new then some .doubleInsert else none
        else some .doubleDelete) := by
  refine decides_checkDelete (Decides.after_read fun n _ => ?_) old
  have hput := decides_update (fun _ : Augmentation ρ σ => t.substitute old new) s
  simpa using decides_checkLink hput n.parent none new

end Tree

namespace CachedTree

/-- Links into a cached tree are decided like those into the tree inside. -/
theorem decides_linkWith (t : CachedTree) (vacancy : Vacancy) (id : RecordId) (s : Store ρ) :
    Decides (σ := σ) (fun aug => t.linkWith aug vacancy id limits) s
      (if t.tree.slotHolds s vacancy.slot id ∨ s.isLinked id then some .doubleInsert else none) :=
  (t.tree.decides_linkWith vacancy.slot id s).bind_pure _

/-- An insertion into a cached tree is decided by the state of the record alone, since a descent
ends at an empty slot. -/
theorem decides_insertWith (t : CachedTree) (id : RecordId) (compare : Comparator ρ σ)
    (s : Store ρ) :
    Decides (fun aug => t.insertWith aug id compare limits) s
      (if s.isLinked id then some .doubleInsert else none) :=
  t.tree.decides_descend id compare fun vacancy => t.decides_linkWith vacancy id s

/-- Deletions from a cached tree are decided like those from the tree inside, although the cache
looks for the next node first. -/
theorem decides_deleteWith (t : CachedTree) (id : RecordId) (s : Store ρ) :
    Decides (σ := σ) (fun aug => t.deleteWith aug id limits) s
      (if s.isLinked id then none else some .doubleDelete) := by
  have hdelete : Decides (σ := σ) (fun aug => t.tree.deleteWith aug id limits) s
      (if s.isLinked id then none else some .doubleDelete) := t.tree.decides_deleteWith id s
  unfold CachedTree.deleteWith
  by_cases hleftmost : t.leftmost = some id
  · simp only [hleftmost, if_true]
    exact Decides.after_read fun next _ => hdelete.bind_pure _
  · simp only [hleftmost, if_false]
    exact hdelete.bind_pure _

end CachedTree

/-- A request is decided alike through the handle of a tree and through that of a cached one. -/
theorem Request.decides (q : Request ρ σ) (s : Store ρ) (limits : Limits ρ := .ample) :
    (∀ t : Tree, Decides (fun aug => q.onTree aug t limits) s (q.verdict s t)) ∧
      ∀ t : CachedTree, Decides (fun aug => q.onCached aug t limits) s (q.verdict s t.tree) := by
  cases q with
  | insert id compare =>
    refine ⟨fun t => ?_, fun t => t.decides_insertWith id compare s⟩
    exact t.decides_descend id compare fun vacancy => t.decides_linkWith vacancy.slot id s
  | link vacancy id =>
    simp only [verdict, Bool.or_eq_true]
    exact ⟨fun t => t.decides_linkWith vacancy.slot id s, fun t => t.decides_linkWith vacancy id s⟩
  | delete id => exact ⟨fun t => t.decides_deleteWith id s, fun t => t.decides_deleteWith id s⟩
  | replace old new =>
    exact ⟨fun t => t.decides_replace old new s,
      fun t => (t.tree.decides_replace old new s).bind_pure _⟩

end Calls

/-! ### Calls on interval trees -/

namespace IntervalTree

variable {κ : Type} [Spanned ρ κ] [LawfulSpanned ρ] [LT κ] [DecidableLT κ] [DecidableEq κ]
  {limits : Limits ρ}

open Guarded (Decides)

omit [LT κ] [DecidableLT κ] [DecidableEq κ] in
/-- The reset of a reach leaves all nodes as they are, and a store in which the record is linked
altogether. -/
theorem resetReach_run {s s' : Store ρ} {id : RecordId} {x x' : σ} {u : Unit}
    (hrun : resetReach id s x = .ok ((u, s'), x')) :
    s'.isLinked id = s.isLinked id ∧ (s' = s ∨ s.isLinked id = false) := by
  have hreturns : (resetReach id).Returns s x fun _ t _ => t = s' := ⟨u, s', x', hrun, rfl⟩
  simp only [resetReach, Update.returns_bind, Update.returns_entry] at hreturns
  obtain ⟨e, he, hreset⟩ := hreturns
  have hnode : s.node id = .ok e.node := by
    rw [Store.node_eq_entry, he]
    rfl
  rw [Store.isLinked_of_node hnode]
  by_cases hstate : e.node.state = .linked
  · simp only [hstate, Update.returns_pure] at hreset
    subst hreset
    exact ⟨by rw [Store.isLinked_of_node hnode, hstate], .inl rfl⟩
  · have hs' : s.modifyEntry id (fun e : Entry κ => { e with reach := e.stop }) = s' := by
      cases h : e.node.state with
      | linked => exact absurd h hstate
      | detached => exact (by simpa [h] using hreset : id < s.size ∧ _).2
      | removed => exact (by simpa [h] using hreset : id < s.size ∧ _).2
    have hnodes : s'.node = s.node := hs' ▸ Store.node_modifyEntry fun _ => rfl
    exact ⟨Store.isLinked_of_node (by rw [hnodes, hnode]), .inr (by simp [hstate])⟩

/-- An insertion into an interval tree is decided by the state of the record. The reach that is
reset before does not change it. -/
theorem decides_insertWith (t : IntervalTree) (id : RecordId) (s : Store ρ) :
    Decides (σ := σ) (fun aug => t.insertWith aug id limits) s
      (if s.isLinked id then some .doubleInsert else none) := by
  refine Decides.after fun x _ s' x' hrun => ?_
  obtain ⟨hlinked, hs⟩ := resetReach_run hrun
  rw [← hlinked] at hs ⊢
  refine ⟨hs.imp_right fun h => by simp [h], ?_⟩
  exact (t.cached.decides_insertWith id (.of compareStart) s').bind_pure _

omit [LawfulSpanned ρ] [LT κ] [DecidableLT κ] [DecidableEq κ] in
/-- Deletions from an interval tree are decided like those from the cached tree in it. -/
theorem decides_deleteWith (t : IntervalTree) (id : RecordId) (s : Store ρ) :
    Decides (σ := σ) (fun aug => t.deleteWith aug id limits) s
      (if s.isLinked id then none else some .doubleDelete) :=
  (t.cached.decides_deleteWith id s).bind_pure _

end IntervalTree

/-! ### All calls -/

/-- Calls that are decided on every store obey as calls through a handle. -/
theorem obeys_of_decides {call : [Listener σ] → Augmentation ρ σ → τ → Guarded ρ σ τ}
    {verdict : Store ρ → τ → Option Kind}
    (h : ∀ s t, Guarded.Decides (fun aug => call aug t) s (verdict s t)) :
    Obeys call verdict := by
  intro listener aug f f' outcome hmake
  obtain ⟨⟨⟨out, s'⟩, x'⟩, hrun, hout⟩ := except_bind_eq_ok.mp hmake
  have hdecides := h f.store f.handle listener aug f.context out s' x' hrun
  cases out with
  | ok handle =>
    obtain ⟨hverdict, hother⟩ := hdecides
    cases hout
    refine ⟨hverdict.symm, fun other => ?_⟩
    simp only [Session.make, hother other]
    rfl
  | error r =>
    obtain ⟨hverdict, rfl, y, hother⟩ := hdecides
    cases hout
    refine ⟨hverdict.symm, y, fun other aug' => ?_⟩
    simp only [Session.make, hother other aug']
    rfl

/-- All calls of the three kinds of handles obey their guards, on any store and through any handle,
whatever the limits on the steps of their loops are. Calls without callbacks are those with
`Augmentation.none`, and the calls of interval trees are those with `reachSummary`. -/
theorem calls_obey_verdict {ι κ : Type} [Linked ρ] [Spanned ι κ] [LawfulSpanned ι] [LT κ]
    [DecidableLT κ] [DecidableEq κ] :
    (∀ (limits : Limits ρ) (q : Request ρ σ),
      Obeys (fun aug t => q.onTree aug t limits) q.verdict ∧
      Obeys (fun aug t => q.onCached aug t limits) fun s t => q.verdict s t.tree) ∧
    (∀ (limits : Limits ι) (id : RecordId),
      Obeys (σ := σ) (fun aug t => IntervalTree.insertWith aug t id limits)
        (fun s _ => if s.isLinked id then some .doubleInsert else none) ∧
      Obeys (σ := σ) (fun aug t => IntervalTree.deleteWith aug t id limits)
        (fun s _ => if s.isLinked id then none else some .doubleDelete)) ∧
    ∀ [Listener σ] (limits : Limits ι) (t : IntervalTree) (id : RecordId),
      t.insert id limits =
        (t.insertWith (reachSummary limits) id limits : Guarded ι σ IntervalTree) ∧
      t.delete id limits =
        (t.deleteWith (reachSummary limits) id limits : Guarded ι σ IntervalTree) := by
  refine ⟨fun limits q => ⟨?_, ?_⟩, fun limits id => ⟨?_, ?_⟩, fun limits t id => ⟨rfl, rfl⟩⟩
  · exact obeys_of_decides fun s t => (q.decides s limits).1 t
  · exact obeys_of_decides fun s t => (q.decides s limits).2 t
  · exact obeys_of_decides fun s t => t.decides_insertWith id s
  · exact obeys_of_decides fun s t => t.decides_deleteWith id s

/-- A caller that keeps a list of the rejections. -/
abbrev Listener.collecting : Listener (List Rejection) := ⟨fun r heard => heard ++ [r]⟩

/-- A caller that keeps a list of the rejections beside a count of its own. -/
abbrev Listener.counting : Listener (Nat × List Rejection) :=
  ⟨fun r (asked, heard) => (asked, heard ++ [r])⟩

/-- A comparator that counts its questions, and answers that the record is smaller until it was
asked three times. -/
def Comparator.tiring : Comparator ρ (Nat × List Rejection) :=
  fun _ _ (asked, heard) => (if asked < 3 then .lt else .gt, (asked + 1, heard))

/-- A linked interval that stands below one record and above another, neither of which exists. -/
def Session.dangling : Session IntervalTree (Entry Nat) (List Rejection) where
  store := #[{ Entry.of 2 5 with node := { parent := some 7, left := some 8, state := .linked } }]
  handle := ⟨⟨⟨some 0⟩, some 9⟩⟩
  context := []

/-- Two linked records. The first one is the root, and its own left child. -/
def Session.cyclic : Session Tree Node (Nat × List Rejection) where
  store := #[{ left := some 0, state := .linked }, { state := .linked }]
  handle := ⟨some 0⟩
  context := (0, [])

/-- A record that is linked is not inserted again, and the caller hears of it once, also if it is
linked below a record that does not exist, and if the descent in front of the guard goes round a
cycle before it ends. -/
theorem calls_obey_verdict_broken :
    (let insert (aug : Augmentation (Entry Nat) (List Rejection)) :=
      Session.dangling.make fun t =>
        @IntervalTree.insertWith _ _ _ _ _ _ _ .collecting aug t 0 .ample
    insert reachSummary = .ok (some (.stillLinked 0 (some 7)),
      { Session.dangling with context := [.stillLinked 0 (some 7)] }) ∧
    ∀ aug, insert aug = insert reachSummary) ∧
    let insert (aug : Augmentation Node (Nat × List Rejection)) (limits : Limits Node) :=
      Session.cyclic.make fun t => @Request.onTree _ _ _ .counting aug t (.insert 1 .tiring) limits
    let limits : Limits Node := ⟨fun _ => 10, fun _ => 10⟩
    insert .none limits = .ok (some (.stillLinked 1 none),
      { Session.cyclic with context := (4, [.stillLinked 1 none]) }) ∧
    ∀ aug, insert aug limits = insert .none limits := by
  constructor
  · -- The records above and below are missing, and the guard does not look at them.
    intro insert
    have hrun : insert reachSummary = .ok (some (.stillLinked 0 (some 7)),
        { Session.dangling with context := [.stillLinked 0 (some 7)] }) := rfl
    have hobeys := ((calls_obey_verdict (ρ := Node) (ι := Entry Nat) (κ := Nat)).2.1 .ample 0).1
      .collecting reachSummary .dangling _ _ hrun
    obtain ⟨x, hother⟩ := hobeys.2
    exact ⟨hrun, fun aug => (hother .collecting aug).trans (hother .collecting reachSummary).symm⟩
  · -- The descent has gone round the cycle three times when the comparator lets it leave.
    intro insert limits
    have hrun : insert .none limits = .ok (some (.stillLinked 1 none),
        { Session.cyclic with context := (4, [.stillLinked 1 none]) }) := rfl
    have hobeys := ((calls_obey_verdict (ι := Entry Nat) (κ := Nat)).1 limits
      (.insert 1 .tiring)).1 .counting .none .cyclic _ _ hrun
    obtain ⟨x, hother⟩ := hobeys.2
    exact ⟨hrun, fun aug => (hother .counting aug).trans (hother .counting .none).symm⟩

end RecordTree
