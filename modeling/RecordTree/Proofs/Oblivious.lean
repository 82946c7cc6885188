import RecordTree.Proofs.Callbacks
import RecordTree.Proofs.Guards

/-!
# `RecordTree.Proofs.Oblivious`: summaries do not influence the tree

A `View` says what an onlooker sees of records and contexts, nodes at least. Callbacks are hidden
from it if they change nothing that it shows (`Augmentation.HiddenFrom`), and a comparator goes by
it if it reads nothing else (`View.Suffices`). Then a call with such callbacks and the call without
any are in step (`View.lockstep`), from states that look alike to states that look alike, and end
the same (`Oblivious`).

What is seen of the context can be anything that the callbacks leave alone, also a log that a
comparator keeps of what it was asked (`View.logged`). So the questions are the same as well.
-/

set_option autoImplicit false

namespace RecordTree

variable {ρ σ α β γ : Type}

/-- A context with notes in front of it, which rejections are not put into. -/
instance [Listener σ] : Listener (γ × σ) := ⟨fun r x => (x.1, Listener.hear r x.2)⟩

/-! ### Requests in step -/

section Requests

variable {σ₀ : Type}

/-- The requests are the same but for their comparators, which agree. -/
inductive Request.Agrees (R : Alignment ρ σ σ₀) : Request ρ σ → Request ρ σ₀ → Prop where
  | insert {id : RecordId} {compare : Comparator ρ σ} {compare₀ : Comparator ρ σ₀} :
      Comparator.Agrees Set.univ R compare compare₀ →
      Agrees R (.insert id compare) (.insert id compare₀)
  | link {vacancy : Vacancy} {id : RecordId} : Agrees R (.link vacancy id) (.link vacancy id)
  | delete {id : RecordId} : Agrees R (.delete id) (.delete id)
  | replace {old new : RecordId} : Agrees R (.replace old new) (.replace old new)

namespace Lockstep

variable [Linked ρ] [Listener σ] [Listener σ₀] {R : Alignment ρ σ σ₀} (L : Lockstep Set.univ R)
  (hears : Hears R) {aug : Augmentation ρ σ} {aug₀ : Augmentation ρ σ₀}
  (haug : aug.Tracks Set.univ R aug₀) {q : Request ρ σ} {q₀ : Request ρ σ₀} (hq : q.Agrees R q₀)
include L hears haug hq

/-- Requests that agree go the same way through a tree. -/
theorem request (t : Tree) :
    Guarded.Tracks R (q.onTree aug t) (q₀.onTree aug₀ t) (·.Inside Set.univ) := by
  have ht : t.Inside Set.univ := inside_univ
  cases hq with
  | insert hcompare => exact L.insertWith hears haug hcompare ht trivial
  | link => exact L.linkWith hears haug ht inside_univ trivial
  | delete => exact L.deleteWith hears haug ht trivial
  | replace => exact L.replace hears ht trivial trivial

/-- Requests that agree go the same way through a cached tree. -/
theorem requestCached (t : CachedTree) :
    Guarded.Tracks R (q.onCached aug t) (q₀.onCached aug₀ t) (·.Inside Set.univ) := by
  have ht := t.inside_univ
  cases hq with
  | insert hcompare => exact L.insertCached hears haug hcompare ht trivial
  | link => exact L.linkCached hears haug ht inside_univ trivial
  | delete => exact L.deleteCached hears haug ht trivial
  | replace => exact L.replaceCached hears ht trivial trivial

end Lockstep

end Requests

/-! ### Views -/

/-- What is seen of records, and of contexts. Nodes are seen, and changes of nodes as well. -/
structure View (ρ σ α β : Type) [Linked ρ] [Listener σ] where
  record : ρ → α
  context : σ → β
  node_eq {r r₀ : ρ} : record r₀ = record r → Linked.node r₀ = Linked.node r
  withNode_eq {r r₀ : ρ} (n : Node) :
    record r₀ = record r → record (Linked.withNode r₀ n) = record (Linked.withNode r n)
  hear_eq {x x₀ : σ} (r : Rejection) :
    context x₀ = context x → context (Listener.hear r x₀) = context (Listener.hear r x)

variable [Linked ρ] [Listener σ]

namespace View

variable (V : View ρ σ α β)

/-- What is seen of a state. -/
def seen (s : Store ρ) (x : σ) : Array α × β := (s.map V.record, V.context x)

/-- The comparator reads nothing that is not seen, and what is seen of the context afterwards
depends on nothing else either. -/
def Suffices (compare : Comparator ρ σ) : Prop := ∀ {a b a₀ b₀ : ρ} {x x₀ : σ},
  V.record a₀ = V.record a → V.record b₀ = V.record b → V.context x₀ = V.context x →
    (compare a₀ b₀ x₀).1 = (compare a b x).1 ∧
      V.context (compare a₀ b₀ x₀).2 = V.context (compare a b x).2

/-- The comparator, which also writes down what it sees of the two records that it is asked about,
and its answer. -/
def logged (compare : Comparator ρ σ) : Comparator ρ (List (α × α × Ordering) × σ) :=
  fun a b x => ((compare a b x.2).1,
    x.1 ++ [(V.record a, V.record b, (compare a b x.2).1)], (compare a b x.2).2)

/-- The view that shows such a log too. -/
def withLog : View ρ (List (α × α × Ordering) × σ) α (List (α × α × Ordering) × β) where
  record := V.record
  context x := (x.1, V.context x.2)
  node_eq := V.node_eq
  withNode_eq := V.withNode_eq
  hear_eq r h := by
    obtain ⟨hlog, hx⟩ := Prod.mk.inj h
    exact Prod.ext hlog (V.hear_eq r hx)

variable {V}

/-- A comparator that goes by what is seen still does when it keeps a log of that. -/
theorem Suffices.logged {compare : Comparator ρ σ} (h : V.Suffices compare) :
    V.withLog.Suffices (V.logged compare) := by
  intro a b a₀ b₀ x x₀ ha hb hx
  obtain ⟨hlog, hx⟩ := Prod.mk.inj hx
  obtain ⟨hanswer, hafter⟩ := h ha hb hx
  refine ⟨hanswer, Prod.ext ?_ hafter⟩
  show x₀.1 ++ [(V.record a₀, V.record b₀, _)] = x.1 ++ [(V.record a, V.record b, _)]
  rw [hlog, show V.record a₀ = V.record a from ha, show V.record b₀ = V.record b from hb, hanswer]

variable {s s₀ : Store ρ} {x x₀ : σ} {id : RecordId}

/-- States that look alike have the same number of records. -/
theorem size_eq_of_seen (h : V.seen s₀ x₀ = V.seen s x) : s₀.size = s.size := by
  simpa [seen] using congrArg (fun p => p.1.size) h

/-- Records of states that look alike look alike. -/
theorem record_eq_of_seen (h : V.seen s₀ x₀ = V.seen s x) {r r₀ : ρ} (hr : s.fetch id = .ok r)
    (hr₀ : s₀.fetch id = .ok r₀) : V.record r₀ = V.record r := by
  obtain ⟨hid, rfl⟩ := Store.fetch_eq_ok.mp hr
  obtain ⟨hid₀, rfl⟩ := Store.fetch_eq_ok.mp hr₀
  have h := congrArg (fun p => p.1[id]?) h
  simpa [seen, hid, hid₀] using h

/-- States that look alike have the same nodes. -/
theorem node_eq_of_seen (h : V.seen s₀ x₀ = V.seen s x) : s₀.node = s.node := by
  funext id
  have hsize := size_eq_of_seen h
  by_cases hid : id < s.size
  · have hid₀ : id < s₀.size := hsize ▸ hid
    rw [Store.node_of_lt hid, Store.node_of_lt hid₀]
    exact congrArg _ (V.node_eq (record_eq_of_seen h (Store.fetch_of_lt hid)
      (Store.fetch_of_lt hid₀)))
  · simp [Store.node, Store.fetch, hid, hsize]

/-- What is seen after a change of a record goes by what was seen before, if it does for the
record. -/
theorem seen_modify {f : ρ → ρ} (hf : ∀ r r₀, V.record r₀ = V.record r →
    V.record (f r₀) = V.record (f r)) (h : V.seen s₀ x₀ = V.seen s x) (id : RecordId) :
    V.seen (s₀.modify id f) x₀ = V.seen (s.modify id f) x := by
  refine Prod.ext (Array.ext ?_ ?_) (Prod.mk.inj h).2
  · simp [seen, size_eq_of_seen h]
  · intro j hj₀ hj
    simp only [seen, Array.size_map, Array.size_modify] at hj hj₀
    have hrecord := record_eq_of_seen h (Store.fetch_of_lt hj) (Store.fetch_of_lt hj₀)
    by_cases heq : id = j
    · simpa [seen, Array.getElem_modify, heq] using hf _ _ hrecord
    · simpa [seen, Array.getElem_modify, heq] using hrecord

variable (V)

/-- Two states match that look alike. -/
def alignment : Alignment ρ σ σ := fun s x s₀ x₀ => V.seen s₀ x₀ = V.seen s x

/-- States that look alike stay so when a node is changed on both sides. -/
theorem lockstep : Lockstep Set.univ V.alignment where
  size_eq := size_eq_of_seen
  node_eq h _ := congrFun (node_eq_of_seen h) _
  inside _ _ _ := Node.inside_univ
  change {s s₀ x x₀ id f} h _ _ := by
    refine seen_modify (fun r r₀ hr => ?_) h id
    rw [V.node_eq hr]
    exact V.withNode_eq _ hr

/-- States that look alike stay so when both hear of a rejection. -/
theorem hears : Hears V.alignment := by
  intro r s x s₀ x₀ h
  obtain ⟨hs, hx⟩ := Prod.mk.inj h
  exact Prod.ext hs (V.hear_eq r hx)

variable {V}

/-- A comparator that goes by what is seen agrees with itself on states that look alike. -/
theorem Suffices.agrees {compare : Comparator ρ σ} (h : V.Suffices compare) :
    Comparator.Agrees Set.univ V.alignment compare compare := by
  intro s s₀ x x₀ i j a b a₀ b₀ hseen _ _ ha hb ha₀ hb₀
  obtain ⟨hs, hx⟩ := Prod.mk.inj hseen
  obtain ⟨hanswer, hafter⟩ :=
    h (record_eq_of_seen hseen ha ha₀) (record_eq_of_seen hseen hb hb₀) hx
  exact ⟨hanswer, Prod.ext hs hafter⟩

end View

/-! ### Hidden callbacks -/

namespace Augmentation

/-- The callbacks change nothing that is seen. -/
abbrev HiddenFrom (V : View ρ σ α β) (aug : Augmentation ρ σ) : Prop := aug.Leaves V.seen

end Augmentation

section Hidden

variable {V : View ρ σ α β}

/-- A callback that is hidden can be left out on the other side. -/
theorem Update.Leaves.tracks_pure {u : Update ρ σ Unit} (h : u.Leaves V.seen) :
    Tracks V.alignment u (pure ()) fun _ => True := by
  intro s x s₀ x₀ hseen a s' x' hrun
  exact returns_pure.mpr ⟨rfl, hseen.trans (h s x a s' x' hrun).symm, trivial⟩

/-- A call without callbacks follows one with hidden callbacks. -/
theorem Augmentation.Leaves.tracks_none {aug : Augmentation ρ σ} (h : aug.HiddenFrom V) :
    aug.Tracks Set.univ V.alignment .none where
  propagate _ _ := (h.propagate _ _).tracks_pure
  copy _ _ := (h.copy _ _).tracks_pure
  rotate _ _ := (h.rotate _ _).tracks_pure

/-- Callbacks that are hidden spare nodes, since nodes are seen. -/
theorem Augmentation.Leaves.spares_of_seen {aug : Augmentation ρ σ} (h : aug.HiddenFrom V) :
    aug.Spares where
  propagate _ _ := fun s x a s' x' hrun => View.node_eq_of_seen (h.propagate _ _ s x a s' x' hrun)
  copy _ _ := fun s x a s' x' hrun => View.node_eq_of_seen (h.copy _ _ s x a s' x' hrun)
  rotate _ _ := fun s x a s' x' hrun => View.node_eq_of_seen (h.rotate _ _ s x a s' x' hrun)

end Hidden

/-! ### Calls through a handle -/

variable {τ : Type}

/-- Two sessions have the same handle, and look alike. -/
structure View.Same (V : View ρ σ α β) (f g : Session τ ρ σ) : Prop where
  handle_eq : g.handle = f.handle
  seen_eq : V.seen g.store g.context = V.seen f.store f.context

/-- Where the call returns with callbacks that are hidden, it returns without any from each state
that looks alike. It gives the same handle or rejection, and leaves a state that looks alike, in
which all nodes are the same. -/
def Oblivious (V : View ρ σ α β) (call : Augmentation ρ σ → τ → Guarded ρ σ τ) : Prop :=
  ∀ aug, aug.HiddenFrom V → ∀ f g : Session τ ρ σ, V.Same f g →
    ∀ out f', f.make (call aug) = .ok (out, f') →
      ∃ g', g.make (call .none) = .ok (out, g') ∧ V.Same f' g' ∧ g'.store.node = f'.store.node

/-- A session in step with another one. -/
theorem Session.make_of_tracks {V : View ρ σ α β} {call call' : τ → Guarded ρ σ τ} {P : τ → Prop}
    (h : ∀ t, Guarded.Tracks V.alignment (call t) (call' t) P) {f g : Session τ ρ σ}
    (hsame : V.Same f g) {out : Option Rejection} {f' : Session τ ρ σ}
    (hmake : f.make call = .ok (out, f')) :
    ∃ g', g.make call' = .ok (out, g') ∧ V.Same f' g' ∧ g'.store.node = f'.store.node := by
  obtain ⟨⟨⟨outcome, s⟩, x⟩, hrun, hout⟩ := except_bind_eq_ok.mp hmake
  obtain ⟨outcome₀, s₀, x₀, hrun₀, heq, hseen, -⟩ :=
    h f.handle f.store f.context g.store g.context hsame.seen_eq outcome s x hrun
  subst heq
  rw [← hsame.handle_eq] at hrun₀
  cases outcome₀ with
  | ok handle =>
    cases hout
    exact ⟨⟨s₀, handle, x₀⟩, except_bind_eq_ok.mpr ⟨_, hrun₀, rfl⟩, ⟨rfl, hseen⟩,
      View.node_eq_of_seen hseen⟩
  | error r =>
    cases hout
    exact ⟨⟨s₀, g.handle, x₀⟩, except_bind_eq_ok.mpr ⟨_, hrun₀, rfl⟩, ⟨hsame.handle_eq, hseen⟩,
      View.node_eq_of_seen hseen⟩

/-- Calls that can follow each other, whichever callbacks they make, are oblivious of these. -/
theorem oblivious_of_tracks {V : View ρ σ α β} {call : Augmentation ρ σ → τ → Guarded ρ σ τ}
    {P : τ → Prop}
    (h : ∀ aug aug' : Augmentation ρ σ, aug.Tracks Set.univ V.alignment aug' →
      ∀ t, Guarded.Tracks V.alignment (call aug t) (call aug' t) P) : Oblivious V call := by
  intro aug hhidden f g hsame out f' hmake
  exact Session.make_of_tracks (h aug .none hhidden.tracks_none) hsame hmake

/-- The comparator that the request makes use of, if any, goes by what is seen. -/
def Request.GoesBy (V : View ρ σ α β) : Request ρ σ → Prop
  | .insert _ compare => V.Suffices compare
  | .link .. | .delete _ | .replace .. => True

/-- A request that goes by what is seen agrees with itself on states that look alike. -/
theorem Request.GoesBy.agrees {V : View ρ σ α β} {q : Request ρ σ} (h : q.GoesBy V) :
    q.Agrees V.alignment q := by
  cases q with
  | insert id compare => exact .insert (View.Suffices.agrees h)
  | link vacancy id => exact .link
  | delete id => exact .delete
  | replace old new => exact .replace

/-- Requests of plain and cached trees that go by what is seen do not depend on hidden callbacks. -/
theorem Request.oblivious {V : View ρ σ α β} {q : Request ρ σ} (h : q.GoesBy V) :
    Oblivious V (q.onTree ·) ∧ Oblivious V (q.onCached ·) :=
  ⟨oblivious_of_tracks fun _ _ haug t => V.lockstep.request V.hears haug h.agrees t,
    oblivious_of_tracks fun _ _ haug t => V.lockstep.requestCached V.hears haug h.agrees t⟩

end RecordTree
