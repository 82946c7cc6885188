import Mathlib.Data.Set.Basic
import RecordTree.Guard
import RecordTree.Proofs.Returns
import RecordTree.Walk.Cursor

/-!
# `RecordTree.Proofs.Lockstep.Basic`: two runs in step

Two runs of the same code are compared step by step. `Alignment` says when the state of the one
matches the state of the other, and `Update.Tracks` that a run of `v` can follow every run of `u`:
from matching states, where `u` returns, `v` returns the same, and their states match again.

The code follows links, so an alignment has to know which records it can get to. `Lockstep F R`
says of an alignment `R` that matching states have the same nodes at the ids `F`, whose links lead
to `F` again, and that they still match when such a node is changed on both sides. This is
enough for all tree code that starts from ids in `F`: reading a node gives links into `F`
(`Lockstep.node`), and a change of a node that keeps its links in `F` goes through
(`Lockstep.modifyNode`). So every lemma here and in `RecordTree.Proofs.Lockstep.Tree` carries along
that what a computation returns is within `F`.
-/

set_option autoImplicit false

namespace RecordTree

variable {ρ σ σ₀ α β : Type}

/-! ### Following a run -/

/-- Which states of two runs match. The contexts of the two runs may be of different types. -/
abbrev Alignment (ρ σ σ₀ : Type) := Store ρ → σ → Store ρ → σ₀ → Prop

/-- States that match still do when both contexts hear of a rejection. -/
def Hears [Listener σ] [Listener σ₀] (R : Alignment ρ σ σ₀) : Prop :=
  ∀ r s x s₀ x₀, R s x s₀ x₀ → R s (Listener.hear r x) s₀ (Listener.hear r x₀)

/-- From states that match, where `u` returns, `v` returns the same. Then `P` holds of it, and the
states match. -/
def Update.Tracks (R : Alignment ρ σ σ₀) (u : Update ρ σ α) (v : Update ρ σ₀ α) (P : α → Prop) :
    Prop :=
  ∀ s x s₀ x₀, R s x s₀ x₀ → ∀ a s' x', u s x = .ok ((a, s'), x') →
    v.Returns s₀ x₀ fun b s₀' x₀' => b = a ∧ R s' x' s₀' x₀' ∧ P a

/-- From states that match, where the guards let `g` through or turn it down, they do the same to
`g'`. -/
def Guarded.Tracks (R : Alignment ρ σ σ₀) (g : Guarded ρ σ α) (g' : Guarded ρ σ₀ α)
    (P : α → Prop) : Prop :=
  Update.Tracks R g.run g'.run fun
    | .ok a => P a
    | .error _ => True

section Tracks

variable {R : Alignment ρ σ σ₀} {P P' : α → Prop} {Q : β → Prop}

namespace Update

/-- A run that follows another one still does when less is asked of what it returns. -/
theorem Tracks.mono {u : Update ρ σ α} {v : Update ρ σ₀ α} (h : Tracks R u v P)
    (hP : ∀ a, P a → P' a) : Tracks R u v P' := by
  intro s x s₀ x₀ hR a s' x' hrun
  refine (h s x s₀ x₀ hR a s' x' hrun).mono ?_
  rintro b s₀' x₀' ⟨hb, hR', ha⟩
  exact ⟨hb, hR', hP a ha⟩

/-- Two runs that return the same value are in step. -/
theorem tracks_pure {a : α} (ha : P a) : Tracks R (pure a : Update ρ σ α) (pure a) P := by
  rintro s x s₀ x₀ hR b s' x' ⟨⟩
  exact returns_pure.mpr ⟨rfl, hR, ha⟩

/-- A run that fails is followed by any run. -/
theorem tracks_throw {fault : Fault} {v : Update ρ σ₀ α} : Tracks R (throw fault) v P := by
  rintro s x s₀ x₀ hR a s' x' ⟨⟩

/-- Runs stay in step through two parts if they do so through each. -/
theorem Tracks.bind {u : Update ρ σ α} {v : Update ρ σ₀ α} {f : α → Update ρ σ β}
    {g : α → Update ρ σ₀ β} (h : Tracks R u v P) (hfg : ∀ a, P a → Tracks R (f a) (g a) Q) :
    Tracks R (u >>= f) (v >>= g) Q := by
  intro s x s₀ x₀ hR b s₂ x₂ hrun
  obtain ⟨⟨⟨a, s₁⟩, x₁⟩, hfirst, hrest⟩ := except_bind_eq_ok.mp hrun
  rw [returns_bind]
  refine (h s x s₀ x₀ hR a s₁ x₁ hfirst).mono ?_
  rintro a₀ s₀' x₀' ⟨rfl, hR', ha⟩
  exact hfg a₀ ha s₁ x₁ s₀' x₀' hR' b s₂ x₂ hrest

/-- Runs that branch on the same condition are in step if they are so on both branches. -/
theorem tracks_ite {p : Prop} [Decidable p] {u v : Update ρ σ α} {u' v' : Update ρ σ₀ α}
    (hu : p → Tracks R u u' P) (hv : ¬ p → Tracks R v v' P) :
    Tracks R (if p then u else v) (if p then u' else v') P := by
  by_cases h : p
  · simpa only [if_pos h] using hu h
  · simpa only [if_neg h] using hv h

end Update

namespace Guarded

/-- Two runs that return the same value are in step, with the guards in front as well. -/
theorem tracks_pure {a : α} (ha : P a) : Tracks R (pure a : Guarded ρ σ α) (pure a) P :=
  Update.tracks_pure ha

/-- Two rejections are in step where the contexts hear alike. -/
theorem tracks_reject [Listener σ] [Listener σ₀] {r : Rejection} (hears : Hears R) :
    Tracks R (reject r : Guarded ρ σ α) (reject r) P := by
  rintro s x s₀ x₀ hR out s' x' ⟨⟩
  exact ⟨_, _, _, rfl, rfl, hears r s x s₀ x₀ hR, trivial⟩

/-- Updates that are in step are so behind the guards. -/
theorem tracks_update {u : Update ρ σ α} {v : Update ρ σ₀ α} (h : Update.Tracks R u v P) :
    Tracks R (Guarded.update u) (Guarded.update v) P := by
  unfold Tracks
  rw [Guarded.update, Guarded.update, ExceptT.run_lift, ExceptT.run_lift, ← bind_pure_comp,
    ← bind_pure_comp]
  exact h.bind fun a ha => Update.tracks_pure ha

/-- A guarded run that follows another one still does when less is asked of what it returns. -/
theorem Tracks.mono {g : Guarded ρ σ α} {g' : Guarded ρ σ₀ α} (h : Tracks R g g' P)
    (hP : ∀ a, P a → P' a) : Tracks R g g' P' :=
  Update.Tracks.mono h fun
    | .ok a => hP a
    | .error _ => id

/-- Guarded runs stay in step through two parts if they do so through each. A rejection in the first
part ends both. -/
theorem Tracks.bind {g : Guarded ρ σ α} {g' : Guarded ρ σ₀ α} {f : α → Guarded ρ σ β}
    {f' : α → Guarded ρ σ₀ β} (h : Tracks R g g' P) (hf : ∀ a, P a → Tracks R (f a) (f' a) Q) :
    Tracks R (g >>= f) (g' >>= f') Q := by
  unfold Tracks
  rw [ExceptT.run_bind, ExceptT.run_bind]
  refine Update.Tracks.bind h fun out hout => ?_
  cases out with
  | ok a => exact hf a hout
  | error r => exact Update.tracks_pure trivial

end Guarded

end Tracks

/-! ### Readings -/

/-- Where the reading `r` succeeds, `r₀` reads the same, and `P` holds of it. -/
def Rereads (r r₀ : Except Fault α) (P : α → Prop) : Prop := ∀ a, r = .ok a → r₀ = .ok a ∧ P a

section Rereads

variable {r r₀ : Except Fault α} {P P' : α → Prop} {Q : β → Prop}

/-- A value is read again as the same value. -/
theorem rereads_ok {a : α} (ha : P a) : Rereads (.ok a) (.ok a) P := by
  rintro b ⟨⟩
  exact ⟨rfl, ha⟩

/-- A reading that fails asks nothing of the other one. -/
theorem rereads_error {fault : Fault} : Rereads (.error fault) r₀ P := nofun

/-- A reading that is read again still is when less is asked of the value. -/
theorem Rereads.mono (h : Rereads r r₀ P) (hP : ∀ a, P a → P' a) : Rereads r r₀ P' :=
  fun a ha => (h a ha).imp_right (hP a)

/-- Two readings in sequence are read again if each one is. -/
theorem Rereads.bind {f f₀ : α → Except Fault β} (h : Rereads r r₀ P)
    (hf : ∀ a, P a → Rereads (f a) (f₀ a) Q) : Rereads (r >>= f) (r₀ >>= f₀) Q := by
  intro b hb
  obtain ⟨a, ha, hb⟩ := except_bind_eq_ok.mp hb
  obtain ⟨ha₀, hP⟩ := h a ha
  obtain ⟨hb₀, hQ⟩ := hf a hP b hb
  exact ⟨except_bind_eq_ok.mpr ⟨a, ha₀, hb₀⟩, hQ⟩

/-- A mapped reading is read again if the reading is. -/
theorem Rereads.map {f : α → β} (h : Rereads r r₀ fun a => Q (f a)) :
    Rereads (f <$> r) (f <$> r₀) Q := by
  intro b hb
  obtain ⟨a, ha, rfl⟩ := except_functor_map_eq_ok.mp hb
  obtain ⟨ha₀, hQ⟩ := h a ha
  exact ⟨except_functor_map_eq_ok.mpr ⟨a, ha₀, rfl⟩, hQ⟩

end Rereads

/-- Reading is in step where the readings of matching states are the same. -/
theorem Update.tracks_read {R : Alignment ρ σ σ₀} {reading reading₀ : Store ρ → Except Fault α}
    {P : α → Prop}
    (h : ∀ s x s₀ x₀, R s x s₀ x₀ → Rereads (reading s) (reading₀ s₀) P) :
    Tracks R (read reading) (read reading₀) P := by
  intro s x s₀ x₀ hR a s' x' hrun
  obtain ⟨b, hb, heq⟩ := except_map_eq_ok.mp hrun
  cases heq
  obtain ⟨hb₀, hP⟩ := h s x s₀ x₀ hR a hb
  exact returns_read.mpr ⟨a, hb₀, rfl, hR, hP⟩

/-! ### Links that stay inside -/

/-- The id, if there is one, is one of `F`. -/
def Inside (F : Set RecordId) (id : Option RecordId) : Prop := ∀ j ∈ id, j ∈ F

/-- All links of the node lead to `F`. -/
structure Node.Inside (F : Set RecordId) (n : Node) : Prop where
  parent : RecordTree.Inside F n.parent
  left : RecordTree.Inside F n.left
  right : RecordTree.Inside F n.right

section Inside

variable {F : Set RecordId} {id : Option RecordId} {j : RecordId} {n : Node}

/-- A missing id is not outside of `F`. -/
@[simp] theorem inside_none : Inside F none := nofun

/-- An id is inside of `F` if it is one of `F`. -/
@[simp] theorem inside_some : Inside F (some j) ↔ j ∈ F := by simp [Inside]

/-- Every id is one of all records. -/
@[simp] theorem inside_univ : Inside Set.univ id := fun _ _ => trivial

/-- The first of two ids that is not missing is inside if both are. -/
theorem Inside.or {a b : Option RecordId} (ha : Inside F a) (hb : Inside F b) :
    Inside F (a.or b) := by
  cases a with
  | none => exact hb
  | some j => exact ha

namespace Node.Inside

/-- The children of a node inside are inside. -/
theorem child (h : n.Inside F) (side : Side) : RecordTree.Inside F (n.child side) := by
  cases side with
  | left => exact h.left
  | right => exact h.right

/-- A node stays inside when its new child is inside. -/
theorem setChild (h : n.Inside F) (side : Side) (hid : RecordTree.Inside F id) :
    (n.setChild side id).Inside F := by
  cases side with
  | left => exact ⟨h.parent, hid, h.right⟩
  | right => exact ⟨h.parent, h.left, hid⟩

/-- A node stays inside under a parent that is inside. -/
theorem withParent (h : n.Inside F) (hid : RecordTree.Inside F id) : (n.withParent id).Inside F :=
  ⟨hid, h.left, h.right⟩

/-- Colours are not links. -/
theorem withColor (h : n.Inside F) (color : Color) : (n.withColor color).Inside F :=
  ⟨h.parent, h.left, h.right⟩

/-- What is inside of a set is inside of a larger one. -/
theorem mono {G : Set RecordId} (h : n.Inside F) (hsub : F ⊆ G) : n.Inside G :=
  ⟨fun j hj => hsub (h.parent j hj), fun j hj => hsub (h.left j hj),
    fun j hj => hsub (h.right j hj)⟩

end Node.Inside

/-- Every node has its links among all records. -/
theorem Node.inside_univ : n.Inside Set.univ :=
  ⟨RecordTree.inside_univ, RecordTree.inside_univ, RecordTree.inside_univ⟩

/-- A node that was taken out has no links. -/
theorem Node.inside_removed : Node.removed.Inside F := ⟨inside_none, inside_none, inside_none⟩

end Inside

/-! ### Alignments that tree code keeps -/

/-- Matching states have the same nodes at the ids `F`, with links to `F`, and they match after a
change of such a node on both sides that leaves its links there. -/
structure Lockstep [Linked ρ] (F : Set RecordId) (R : Alignment ρ σ σ₀) : Prop where
  size_eq {s s₀ : Store ρ} {x : σ} {x₀ : σ₀} : R s x s₀ x₀ → s₀.size = s.size
  node_eq {s s₀ : Store ρ} {x : σ} {x₀ : σ₀} {id : RecordId} :
    R s x s₀ x₀ → id ∈ F → s₀.node id = s.node id
  inside {s s₀ : Store ρ} {x : σ} {x₀ : σ₀} {id : RecordId} {n : Node} :
    R s x s₀ x₀ → id ∈ F → s.node id = .ok n → n.Inside F
  change {s s₀ : Store ρ} {x : σ} {x₀ : σ₀} {id : RecordId} {f : Node → Node} :
    R s x s₀ x₀ → id ∈ F → (∀ n, n.Inside F → (f n).Inside F) →
      R (s.modifyNode id f) x (s₀.modifyNode id f) x₀

namespace Lockstep

variable [Linked ρ] {F : Set RecordId} {R : Alignment ρ σ σ₀} (L : Lockstep F R)
include L

section Steps

variable {id : RecordId}

/-- Matching states have the same node at an id of `F`. -/
theorem rereads_node {s s₀ : Store ρ} {x : σ} {x₀ : σ₀} (hR : R s x s₀ x₀) (hid : id ∈ F) :
    Rereads (s.node id) (s₀.node id) (·.Inside F) := by
  intro n hn
  exact ⟨(L.node_eq hR hid).trans hn, L.inside hR hid hn⟩

/-- Reading the node of an id of `F` gives the same on both sides, with links to `F`. -/
theorem node (hid : id ∈ F) :
    Update.Tracks R (Update.node id) (Update.node id) (·.Inside F) :=
  Update.tracks_read fun _ _ _ _ hR => L.rereads_node hR hid

/-- The steps granted to a loop depend on the number of records only. -/
theorem limit (f : Nat → Nat) :
    Update.Tracks R (Update.read fun s => pure (f s.size)) (Update.read fun s => pure (f s.size))
      fun _ => True := by
  refine Update.tracks_read fun _ _ _ _ hR => ?_
  rw [L.size_eq hR]
  exact rereads_ok trivial

/-- Changing a node of `F` keeps the runs in step if its links stay inside. -/
theorem modifyNode (hid : id ∈ F) {f : Node → Node} (hf : ∀ n, n.Inside F → (f n).Inside F) :
    Update.Tracks R (Update.modifyNode id f) (Update.modifyNode id f) fun _ => True := by
  intro s x s₀ x₀ hR a s' x' hrun
  -- The change went through because the record is there, and then it is there on both sides.
  have hreturns : (Update.modifyNode id f).Returns s x fun _ t y => t = s' ∧ y = x' :=
    ⟨a, s', x', hrun, rfl, rfl⟩
  obtain ⟨hlt, rfl, rfl⟩ := Update.returns_modifyNode.mp hreturns
  exact Update.returns_modifyNode.mpr ⟨L.size_eq hR ▸ hlt, rfl, L.change hR hid hf, trivial⟩

/-- So does colouring it. -/
theorem paint (hid : id ∈ F) (color : Color) :
    Update.Tracks R (Update.paint id color) (Update.paint id color) fun _ => True :=
  L.modifyNode hid fun _ hn => hn.withColor color

/-- So does colouring a node that may be missing. -/
theorem paint? {id : Option RecordId} (hid : Inside F id) (color : Color) :
    Update.Tracks R (Update.paint? id color) (Update.paint? id color) fun _ => True := by
  cases id with
  | none => exact Update.tracks_pure trivial
  | some id => exact L.paint (inside_some.mp hid) color

/-- So does putting a node under another parent that is inside. -/
theorem setParent {id parent : Option RecordId} (hid : Inside F id) (hparent : Inside F parent) :
    Update.Tracks R (Update.setParent id parent) (Update.setParent id parent) fun _ => True := by
  cases id with
  | none => exact Update.tracks_pure trivial
  | some id => exact L.modifyNode (inside_some.mp hid) fun _ hn => hn.withParent hparent

/-- The colours above or below a node of `F` are the same on both sides. -/
theorem colorOf {id : Option RecordId} (hid : Inside F id) :
    Update.Tracks R (Update.colorOf id) (Update.colorOf id) fun _ => True := by
  cases id with
  | none => exact Update.tracks_pure trivial
  | some id => exact (L.node (inside_some.mp hid)).bind fun _ _ => Update.tracks_pure trivial

end Steps

/-! ### Walks -/

section Walks

variable {s s₀ : Store ρ} {x : σ} {x₀ : σ₀} (hR : R s x s₀ x₀) {id : RecordId}
include hR

/-- The way down one side from an id of `F` is the same on both sides, and ends at an id of `F`. -/
theorem extremeFrom (side : Side) (steps : Nat) (hid : id ∈ F) :
    Rereads (s.extremeFrom side steps id) (s₀.extremeFrom side steps id) (· ∈ F) := by
  induction steps generalizing id with
  | zero => exact rereads_error
  | succ steps ih =>
    refine (L.rereads_node hR hid).bind fun n hn => ?_
    have hchild := hn.child side
    cases h : n.child side with
    | none => exact rereads_ok hid
    | some child => exact ih (inside_some.mp (h ▸ hchild))

/-- The first or last node of a tree inside of `F` is the same on both sides. -/
theorem extreme (side : Side) {root : Option RecordId} (hroot : Inside F root) :
    Rereads (s.extreme side root) (s₀.extreme side root) (Inside F) := by
  cases root with
  | none => exact rereads_ok inside_none
  | some root =>
    simp only [Store.extreme, Store.walkLimit, L.size_eq hR]
    exact ((L.extremeFrom hR side _ (inside_some.mp hroot)).mono fun _ => inside_some.mpr).map

/-- The climb to the next node goes the same way on both sides. -/
theorem climbFrom (side : Side) (steps : Nat) (hid : id ∈ F) :
    Rereads (s.climbFrom side steps id) (s₀.climbFrom side steps id) (Inside F) := by
  induction steps generalizing id with
  | zero => exact rereads_error
  | succ steps ih =>
    refine (L.rereads_node hR hid).bind fun n hn => ?_
    have hparent := hn.parent
    cases h : n.parent with
    | none => exact rereads_ok inside_none
    | some parent =>
      rw [h, inside_some] at hparent
      refine (L.rereads_node hR hparent).bind fun p _ => ?_
      split_ifs
      · exact ih hparent
      · exact rereads_ok (inside_some.mpr hparent)

/-- The next node of an id of `F` is the same on both sides. -/
theorem next (hid : id ∈ F) : Rereads (s.next id) (s₀.next id) (Inside F) := by
  refine (L.rereads_node hR hid).bind fun n hn => ?_
  have hchild := hn.child .right
  cases h : n.child .right with
  | none =>
    simp only [Store.climb, Store.walkLimit, L.size_eq hR]
    exact L.climbFrom hR .right _ hid
  | some child => exact L.extreme hR .left (h ▸ hchild)

/-- The way down to a leaf is the same on both sides. -/
theorem leafFrom (steps : Nat) (hid : id ∈ F) :
    Rereads (s.leafFrom steps id) (s₀.leafFrom steps id) (· ∈ F) := by
  induction steps generalizing id with
  | zero => exact rereads_error
  | succ steps ih =>
    refine (L.rereads_node hR hid).bind fun n hn => ?_
    have hchild := hn.left.or hn.right
    cases h : n.left.or n.right with
    | none =>
      dsimp only
      exact rereads_ok hid
    | some child =>
      dsimp only
      exact ih (inside_some.mp (h ▸ hchild))

/-- The first node in post-order is the same on both sides. -/
theorem postFirst {root : Option RecordId} (hroot : Inside F root) :
    Rereads (s.postFirst root) (s₀.postFirst root) (Inside F) := by
  cases root with
  | none => exact rereads_ok inside_none
  | some root =>
    simp only [Store.postFirst, Store.walkLimit, L.size_eq hR]
    exact ((L.leafFrom hR _ (inside_some.mp hroot)).mono fun _ => inside_some.mpr).map

/-- The next node in post-order is the same on both sides. -/
theorem postNext (hid : id ∈ F) : Rereads (s.postNext id) (s₀.postNext id) (Inside F) := by
  refine (L.rereads_node hR hid).bind fun n hn => ?_
  have hparent := hn.parent
  cases h : n.parent with
  | none => exact rereads_ok inside_none
  | some parent =>
    rw [h, inside_some] at hparent
    refine (L.rereads_node hR hparent).bind fun p hp => ?_
    have hright := hp.right
    cases hpright : p.right with
    | none =>
      dsimp only
      exact rereads_ok (inside_some.mpr hparent)
    | some right =>
      dsimp only
      split_ifs
      · exact L.postFirst hR (hpright ▸ hright)
      · exact rereads_ok (inside_some.mpr hparent)

end Walks

end Lockstep

end RecordTree
