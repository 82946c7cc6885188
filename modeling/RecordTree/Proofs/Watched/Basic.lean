import RecordTree.Proofs.Callbacks
import RecordTree.Proofs.Oblivious

/-!
# `RecordTree.Proofs.Watched.Basic`: a log of the callbacks of a call

`Augmentation.watched` keeps a log of the callbacks in the caller's context, each with the records
as they were when it was made and when it returned (`Sighting`). Nothing else comes of it: a call
that is watched ends as the same call does without a log (`Augmentation.watched_tracks`,
`Augmentation.tracks_watched`).

The log starts with the callbacks that go with a linked leaf or with a node that was taken out, and
goes on with those of the rotations. `Watching` says so for a repair under way, in the form in which
the repairs keep it: it is a contract of the watched augmentation if `Right` is one of the
augmentation that is watched (`Augmentation.Turns.watched`). It follows the structure that the log
shows from one rotation to the next (`Turned`), without colours, which change in between.
-/

set_option autoImplicit false

namespace RecordTree

variable {ρ σ γ α : Type}

/-! ### Watching callbacks -/

/-- A callback, without what the records were at that time. -/
inductive Notice where
  | propagate (node stop : Option RecordId)
  | copy (old new : RecordId)
  | rotate (old new : RecordId)
deriving DecidableEq

/-- A callback, with the records when it was made and those when it returned. -/
structure Sighting (ρ : Type) where
  notice : Notice
  before : Store ρ
  after : Store ρ

/-- The context of a caller that keeps a log of callbacks. -/
abbrev Watch (ρ σ : Type) := List (Sighting ρ) × σ

/-- Runs a callback, and puts it into the log. -/
def Update.watched (notice : Notice) (u : Update ρ σ Unit) : Update ρ (Watch ρ σ) Unit :=
  fun s x => (u s x.2).map fun out => (((), out.1.2), (x.1 ++ [⟨notice, s, out.1.2⟩], out.2))

/-- The callbacks of `aug`, with a log of them. -/
def Augmentation.watched (aug : Augmentation ρ σ) : Augmentation ρ (Watch ρ σ) where
  propagate node stop := (aug.propagate node stop).watched (.propagate node stop)
  copy old new := (aug.copy old new).watched (.copy old new)
  rotate old new := (aug.rotate old new).watched (.rotate old new)

/-- The comparator in a context with notes in front of it, which it leaves alone. -/
def Comparator.beside (compare : Comparator ρ σ) : Comparator ρ (γ × σ) :=
  fun a b x => ((compare a b x.2).1, (x.1, (compare a b x.2).2))

/-- The update in a context with notes in front of it, which it leaves alone. -/
def Update.beside (u : Update ρ σ α) : Update ρ (γ × σ) α :=
  fun s x => (u s x.2).map fun out => (out.1, (x.1, out.2))

/-- The callbacks in a context with notes in front of it, which they leave alone. -/
def Augmentation.beside (aug : Augmentation ρ σ) : Augmentation ρ (γ × σ) where
  propagate node stop := (aug.propagate node stop).beside
  copy old new := (aug.copy old new).beside
  rotate old new := (aug.rotate old new).beside

/-- The request of a caller that keeps a log. -/
def Request.watched : Request ρ σ → Request ρ (Watch ρ σ)
  | insert id compare => .insert id compare.beside
  | link vacancy id => .link vacancy id
  | delete id => .delete id
  | replace old new => .replace old new

/-- A watched callback returns where it does by itself, with a note of the records before and
after. -/
theorem Update.returns_watched {notice : Notice} {u : Update ρ σ Unit} {s : Store ρ}
    {x : Watch ρ σ} {Q : Unit → Store ρ → Watch ρ σ → Prop} :
    (u.watched notice).Returns s x Q ↔
      u.Returns s x.2 fun _ s' x' => Q () s' (x.1 ++ [⟨notice, s, s'⟩], x') := by
  constructor
  · rintro ⟨_, s', x', hrun, hQ⟩
    obtain ⟨⟨⟨a, t⟩, y⟩, hu, heq⟩ := except_map_eq_ok.mp hrun
    cases heq
    exact ⟨a, t, y, hu, hQ⟩
  · rintro ⟨a, t, y, hu, hQ⟩
    exact ⟨(), t, _, except_map_eq_ok.mpr ⟨_, hu, rfl⟩, hQ⟩

/-! ### Watched runs and others -/

namespace Alignment

/-- Two runs match while they are in the same state, but for notes in front of the first one's
context. -/
def noted : Alignment ρ (γ × σ) σ := fun s x s₀ x₀ => s₀ = s ∧ x₀ = x.2

/-- Two runs match while they are in the same state, but for notes in front of the second one's
context, of which `G` holds. -/
def noting (G : γ → Prop) : Alignment ρ σ (γ × σ) := fun s x s₀ x₀ => s₀ = s ∧ G x₀.1 ∧ x₀.2 = x

end Alignment

open RecordTree.Alignment (noted noting)

section Runs

variable {G : γ → Prop}

/-- Notes in front of the context hear nothing of rejections, on the first side. -/
theorem hears_noted [Listener σ] : Hears (noted : Alignment ρ (γ × σ) σ) := by
  rintro r s x s₀ x₀ ⟨hs, rfl⟩
  exact ⟨hs, rfl⟩

/-- Notes in front of the context hear nothing of rejections, on the second side. -/
theorem hears_noting [Listener σ] : Hears (noting G : Alignment ρ σ (γ × σ)) := by
  rintro r s x s₀ x₀ ⟨hs, hg, rfl⟩
  exact ⟨hs, hg, rfl⟩

/-- With notes in front of the first context, a comparator asks and answers as before. -/
theorem Comparator.agrees_noted (compare : Comparator ρ σ) :
    Comparator.Agrees Set.univ (noted : Alignment ρ (γ × σ) σ) compare.beside compare := by
  rintro s _ x _ i j a b a₀ b₀ ⟨rfl, rfl⟩ - - ha hb ha₀ hb₀
  cases ha.symm.trans ha₀
  cases hb.symm.trans hb₀
  exact ⟨rfl, rfl, rfl⟩

/-- With notes in front of the second context, a comparator asks and answers as before. -/
theorem Comparator.agrees_noting (compare : Comparator ρ σ) :
    Comparator.Agrees Set.univ (noting G : Alignment ρ σ (γ × σ)) compare compare.beside := by
  rintro s _ _ x i j a b a₀ b₀ ⟨rfl, hg, rfl⟩ - - ha hb ha₀ hb₀
  cases ha.symm.trans ha₀
  cases hb.symm.trans hb₀
  exact ⟨rfl, rfl, hg, rfl⟩

/-- A watched request is the same but for the notes. -/
theorem Request.agrees_noted (q : Request ρ σ) :
    Request.Agrees (noted : Alignment ρ (Watch ρ σ) σ) q.watched q := by
  cases q with
  | insert id compare => exact .insert compare.agrees_noted
  | link vacancy id => exact .link
  | delete id => exact .delete
  | replace old new => exact .replace

/-- Every request is the same as itself. -/
theorem Request.agrees_same (q : Request ρ σ) : q.Agrees .same q := by
  cases q with
  | insert id compare => exact .insert compare.agrees_same
  | link vacancy id => exact .link
  | delete id => exact .delete
  | replace old new => exact .replace

/-- A request is the same as the watched one. -/
theorem Request.agrees_noting {G : List (Sighting ρ) → Prop} (q : Request ρ σ) :
    q.Agrees (noting G) q.watched := by
  cases q with
  | insert id compare => exact .insert compare.agrees_noting
  | link vacancy id => exact .link
  | delete id => exact .delete
  | replace old new => exact .replace

/-- A watched callback does what it does unwatched. -/
theorem Update.watched_tracks (notice : Notice) (u : Update ρ σ Unit) :
    Tracks noted (u.watched notice) u fun _ => True := by
  rintro s x _ _ ⟨rfl, rfl⟩ a s' x' hrun
  obtain ⟨⟨⟨b, t⟩, y⟩, hu, heq⟩ := except_map_eq_ok.mp hrun
  cases heq
  exact ⟨b, t, y, hu, rfl, ⟨rfl, rfl⟩, trivial⟩

/-- An unwatched callback is followed by the watched one, which makes a note. -/
theorem Update.tracks_watched (notice : Notice) (u : Update ρ σ Unit) :
    Tracks (noting fun _ => True) u (u.watched notice) fun _ => True := by
  rintro s _ _ x ⟨rfl, -, rfl⟩ a s' x' hrun
  exact ⟨a, s', _, except_map_eq_ok.mpr ⟨_, hrun, rfl⟩, rfl, ⟨rfl, trivial, rfl⟩, trivial⟩

/-- Watched callbacks follow the ones that they watch. -/
theorem Augmentation.watched_tracks (aug : Augmentation ρ σ) :
    aug.watched.Tracks Set.univ noted aug where
  propagate _ _ := Update.watched_tracks _ _
  copy _ _ := Update.watched_tracks _ _
  rotate _ _ := Update.watched_tracks _ _

/-- Callbacks are followed by the watched ones. -/
theorem Augmentation.tracks_watched (aug : Augmentation ρ σ) :
    aug.Tracks Set.univ (noting fun _ => True) aug.watched where
  propagate _ _ := Update.tracks_watched _ _
  copy _ _ := Update.tracks_watched _ _
  rotate _ _ := Update.tracks_watched _ _

/-- An update is followed by itself beside the notes, which stay as they are. -/
theorem Update.tracks_beside (u : Update ρ σ Unit) :
    Tracks (noting G) u u.beside fun _ => True := by
  rintro s _ _ x ⟨rfl, hg, rfl⟩ a s' x' hrun
  exact ⟨a, s', (x.1, x'), except_map_eq_ok.mpr ⟨_, hrun, rfl⟩, rfl, ⟨rfl, hg, rfl⟩, trivial⟩

/-- Callbacks are followed by themselves beside the notes. -/
theorem Augmentation.tracks_beside (aug : Augmentation ρ σ) :
    aug.Tracks Set.univ (noting G) aug.beside where
  propagate _ _ := Update.tracks_beside _
  copy _ _ := Update.tracks_beside _
  rotate _ _ := Update.tracks_beside _

/-- Callbacks that do the same as others do the same when both are watched. -/
theorem Augmentation.Approximates.watched {aug aug' : Augmentation ρ σ}
    (h : aug.Approximates aug') : aug.watched.Approximates aug'.watched := by
  have hwatched {u v : Update ρ σ Unit} (huv : u.Approximates v) (notice : Notice) :
      (u.watched notice).Approximates (v.watched notice) := by
    intro s x r hrun
    obtain ⟨out, hu, heq⟩ := except_map_eq_ok.mp hrun
    exact except_map_eq_ok.mpr ⟨out, huv s x.2 out hu, heq⟩
  exact ⟨fun node stop => hwatched (h.propagate node stop) _,
    fun old new => hwatched (h.copy old new) _, fun old new => hwatched (h.rotate old new) _⟩

variable [Linked ρ]

/-- Two runs of which the first one keeps notes are in step on all records. -/
theorem Lockstep.noted : Lockstep Set.univ (noted : Alignment ρ (γ × σ) σ) where
  size_eq h := by rw [h.1]
  node_eq h _ := by rw [h.1]
  inside _ _ _ := Node.inside_univ
  change h _ _ := ⟨by rw [h.1], h.2⟩

/-- Two runs of which the second one keeps notes are in step on all records. -/
theorem Lockstep.noting : Lockstep Set.univ (noting G : Alignment ρ σ (γ × σ)) where
  size_eq h := by rw [h.1]
  node_eq h _ := by rw [h.1]
  inside _ _ _ := Node.inside_univ
  change h _ _ := ⟨by rw [h.1], h.2⟩

/-- A descent leaves notes alone. -/
theorem Tree.descend_beside {t : Tree} {s : Store ρ} {id : RecordId} {compare : Comparator ρ σ}
    {x x' : σ} {vacancy : Vacancy} (h : (t.descend s id compare) x = .ok (vacancy, x')) (g : γ) :
    (t.descend s id compare.beside) (g, x) = .ok (vacancy, (g, x')) := by
  have hR : Alignment.noting (· = g) s x s (g, x) := ⟨rfl, rfl, rfl⟩
  obtain ⟨⟨_, _⟩, hrun, ⟨-, rfl, rfl⟩, -⟩ := Lockstep.noting.descendFrom
    compare.agrees_noting trivial hR inside_univ inside_univ h
  exact hrun

end Runs

/-! ### What a log shows of rotations -/

section Turned

variable [Linked ρ]

/-- The log shows a rotation after a callback that left the structure `before` in `s`. `new` stood
below `old` there, up to colours. Now it stands where `old` stood, with `old` below it, and what was
between them changed sides. That is `after`, the structure in the records at the callback, and `P`
holds of it when the callback returns. -/
structure Turn (P : Payloads ρ → Shape → Prop) (s : Store ρ) (before : Shape) (w : Sighting ρ)
    (after : Shape) : Prop where
  hasShape : Tree.HasShape ⟨after.root?⟩ w.before after
  turned : ∃ (C : Context) (side : Side) (c d : Color) (a b e : Shape) (old new : RecordId),
    w.notice = .rotate old new ∧
    before.plain = (C.fill (.join side c a old (.join side d b new e))).plain ∧
    after = C.fill (.join side d (.join side c a old b) new e)
  spared : w.after.node = w.before.node
  right : P w.after.payload after

/-- The log shows rotations one after another, from `first` in `s` to a structure in the records
that the last of them left. -/
inductive Turned (P : Payloads ρ → Shape → Prop) (s : Store ρ) (first : Shape) :
    List (Sighting ρ) → Store ρ → Shape → Prop where
  | start : Tree.HasShape ⟨first.root?⟩ s first → Turned P s first [] s first
  | turn {log : List (Sighting ρ)} {s' : Store ρ} {before after : Shape} {w : Sighting ρ} :
      Turned P s first log s' before → Turn P s' before w after →
      Turned P s first (log ++ [w]) w.after after

variable {P : Payloads ρ → Shape → Prop} {s s' : Store ρ} {first last : Shape}
  {log : List (Sighting ρ)}

/-- The handle of a tree is the root of its shape. -/
theorem Tree.HasShape.of_root {t : Tree} {s : Store ρ} {shape : Shape} (h : t.HasShape s shape) :
    Tree.HasShape ⟨shape.root?⟩ s shape := by
  obtain ⟨root⟩ := t
  rw [← h.root_eq]
  exact h

namespace Turned

/-- After the last rotation in the log, the records are a tree again. -/
theorem hasShape (h : Turned P s first log s' last) : Tree.HasShape ⟨last.root?⟩ s' last := by
  cases h with
  | start hshape => exact hshape
  | turn _ hturn => exact hturn.hasShape.congr fun j _ => congrFun hturn.spared j

end Turned

/-! ### What a log shows of a call -/

/-- The log shows the callbacks that `First` tells of, which left a structure in some records, and
from there on `k` rotations. The last one left `shape`, up to colours. -/
def Shows (P : Payloads ρ → Shape → Prop)
    (First : List (Sighting ρ) → Store ρ → Shape → Prop) (k : Nat) (log : List (Sighting ρ))
    (shape : Shape) : Prop :=
  ∃ (start rotations : List (Sighting ρ)) (s s' : Store ρ) (first last : Shape),
    log = start ++ rotations ∧ rotations.length = k ∧ First start s first ∧
      Turned P s first rotations s' last ∧ last.plain = shape.plain

/-- What a watched augmentation keeps right: what it would keep right without a log, and the log. -/
def Watching (Right : Nat → Payloads ρ → σ → Shape → Prop) (P : Payloads ρ → Shape → Prop)
    (First : List (Sighting ρ) → Store ρ → Shape → Prop) (k : Nat) (p : Payloads ρ)
    (x : Watch ρ σ) (shape : Shape) : Prop :=
  Right k p x.2 shape ∧ Shows P First k x.1 shape

/-- The log shows that `id` was linked at the position of `C`. -/
inductive Planted (C : Context) (id : RecordId) :
    List (Sighting ρ) → Store ρ → Shape → Prop where
  | intro {s s' : Store ρ} : Planted C id [⟨.propagate C.parent none, s, s'⟩] s'
      (C.fill (.node .red .leaf id .leaf))

/-- The log shows that `id` was taken out of `whole`, in one of the ways of
`Augmentation.Shrinks`. -/
inductive TakenOut (whole : Shape) (id : RecordId) :
    List (Sighting ρ) → Store ρ → Shape → Prop where
  /-- The only child took its place. -/
  | child {C : Context} {side : Side} {c : Color} {a : Shape} {s s' : Store ρ} :
      whole = C.fill (.join side c a id .leaf) →
      TakenOut whole id [⟨.propagate C.parent none, s, s'⟩] s' (C.fill a)
  /-- The right child took its place. -/
  | next {C : Context} {c d : Color} {l r : Shape} {succ : RecordId} {s s₁ s₂ s' : Store ρ} :
      l ≠ .leaf → whole = C.fill (.node c l id (.node d .leaf succ r)) →
      TakenOut whole id [⟨.copy id succ, s, s₁⟩, ⟨.propagate (some succ) none, s₂, s'⟩] s'
        (C.fill (.node c l succ r))
  /-- A node further down took its place. -/
  | deep {C spine : Context} {c d : Color} {l r : Shape} {succ above : RecordId}
      {s s₁ s₂ s₃ s' : Store ρ} :
      l ≠ .leaf → spine.parent = some above → spine.before = [] →
      whole = C.fill (.node c l id (spine.fill (.node d .leaf succ r))) →
      TakenOut whole id [⟨.copy id succ, s, s₁⟩,
        ⟨.propagate (some above) (some succ), s₁, s₂⟩,
        ⟨.propagate (some succ) none, s₃, s'⟩] s' (C.fill (.node c l succ (spine.fill r)))

section Watching

variable {aug : Augmentation ρ σ} {Right : Nat → Payloads ρ → σ → Shape → Prop}
  {Was : Payloads ρ → σ → Shape → Prop}
  {First : List (Sighting ρ) → Store ρ → Shape → Prop} {t : Tree} {x : σ} {id : RecordId}

/-- Before the first rotation the log has what goes with the change of the tree. -/
theorem Shows.start {shape : Shape} (h : t.HasShape s shape) (hnode : s'.node = s.node)
    (hfirst : First log s' shape) : Shows P First 0 log shape := by
  have hshape := h.of_root.congr fun j _ => congrFun hnode j
  exact ⟨log, [], s', s', shape, shape, by simp, rfl, hfirst, .start hshape, rfl⟩

namespace Augmentation

/-- With a log, an augmentation keeps right what it would without, and logs each rotation with the
trees before and after it. -/
theorem Turns.watched (turns : aug.Turns Right)
    (hP : ∀ k p x shape, Right k p x shape → P p shape) :
    aug.watched.Turns (Watching Right P First) where
  recolor := by
    rintro k p x old new hplain ⟨hright, start, rotations, s, s', first, last, hlog, hlength,
      hfirst, hturned, hlast⟩
    exact ⟨turns.recolor hplain hright, start, rotations, s, s', first, last, hlog, hlength, hfirst,
      hturned, hlast.trans hplain⟩
  rotate := by
    rintro k s x t C side c d a b e id up h ⟨hright, start, rotations, s₀, s₁, first, last, hlog,
      hlength, hfirst, hturned, hlast⟩
    refine Update.returns_watched.mpr ((turns.rotate h hright).mono ?_)
    rintro _ s' x' ⟨hnode, hright'⟩
    -- The log goes on from the structure that it showed last, which had other colours.
    have hturn : Turn P s₁ last ⟨.rotate id up, s, s'⟩ _ :=
      ⟨h.of_root, ⟨C, side, c, d, a, b, e, id, up, rfl, hlast, rfl⟩, hnode, hP _ _ _ _ hright'⟩
    refine ⟨hnode, hright', start, rotations ++ [_], s₀, s', first, _, ?_, ?_, hfirst,
      hturned.turn hturn, rfl⟩
    · rw [hlog, List.append_assoc]
    · rw [List.length_append, hlength, List.length_singleton]

/-- With a log, linking a leaf keeps right what it would without, and logs that the leaf was
planted. -/
theorem Grows.planted (grows : aug.Grows id Was (Right 0)) {C : Context}
    (h : t.HasShape s (C.fill (.node .red .leaf id .leaf)))
    (hwas : Was s.payload x (C.fill .leaf)) :
    (aug.watched.propagate C.parent Option.none).Returns s ([], x) fun _ s' x' =>
      s'.node = s.node ∧ Watching Right P (Planted C id) 0 s'.payload x'
        (C.fill (.node .red .leaf id .leaf)) := by
  refine Update.returns_watched.mpr ((grows.propagate h hwas).mono ?_)
  rintro _ s' x' ⟨hnode, hright⟩
  exact ⟨hnode, hright, .start h hnode .intro⟩

/-- With a log, taking out a node keeps right what it would without, and logs how that was done. -/
theorem Shrinks.watched (shrinks : aug.Shrinks id Was (Right 0)) (whole : Shape) :
    aug.watched.Shrinks id (fun p x shape => Was p x.2 shape ∧ x.1 = [] ∧ shape = whole)
      (Watching Right P (TakenOut whole id) 0) where
  child := by
    rintro s ⟨_, x⟩ t C side c a h ⟨hwas, rfl, hwhole⟩
    refine Update.returns_watched.mpr ((shrinks.child h hwas).mono ?_)
    rintro _ s' x' ⟨hnode, hright⟩
    exact ⟨hnode, hright, .start h hnode (.child hwhole.symm)⟩
  next := by
    rintro s ⟨_, x⟩ t C c d l r succ hl h ⟨hwas, rfl, hwhole⟩
    refine Update.returns_watched.mpr ((shrinks.next hl h hwas).mono ?_)
    rintro _ s₁ x₁ ⟨hnode₁, hrest⟩
    refine ⟨hnode₁, fun t₂ s₂ hp h₂ => ?_⟩
    refine Update.returns_watched.mpr ((hrest t₂ s₂ hp h₂).mono ?_)
    rintro _ s₃ x₃ ⟨hnode₃, hright⟩
    exact ⟨hnode₃, hright, .start h₂ hnode₃ (.next hl hwhole.symm)⟩
  deep := by
    rintro s ⟨_, x⟩ C spine c d l r succ above hl habove hbefore hid hsucc hnodup hspells
      ⟨hwas, rfl, hwhole⟩
    refine Update.returns_watched.mpr
      ((shrinks.deep hl habove hbefore hid hsucc hnodup hspells hwas).mono ?_)
    rintro _ s₁ x₁ ⟨hnode₁, hrest⟩
    -- The second callback follows at once, the third one after the node was seated.
    refine ⟨hnode₁, Update.returns_watched.mpr (hrest.mono ?_)⟩
    rintro _ s₂ x₂ ⟨hnode₂, hlast⟩
    refine ⟨hnode₂, fun t₃ s₃ hp h₃ => ?_⟩
    refine Update.returns_watched.mpr ((hlast t₃ s₃ hp h₃).mono ?_)
    rintro _ s₄ x₄ ⟨hnode₄, hright⟩
    exact ⟨hnode₄, hright, .start h₃ hnode₄ (.deep hl habove hbefore hwhole.symm)⟩

end Augmentation

end Watching

end Turned

end RecordTree
