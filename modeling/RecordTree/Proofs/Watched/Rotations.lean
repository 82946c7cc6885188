import RecordTree.Proofs.Walk.SharedChild
import RecordTree.Proofs.Watched.Protocol

/-!
# `RecordTree.Proofs.Watched.Rotations`: what the callback of a rotation finds

While a repair is under way colours are wrong, and a node that is being deleted still has its old
links. All the same, a callback for a rotation finds a tree when it climbs from the two nodes
(`Found`), with the nodes that the tree has after the call. If the summaries were right before the
call, they are right whenever such a callback returns.

* `Turn.found`: the step. What a log shows of a rotation is what its callback found.
* `Shows.findsTree`: the run. So it is for each rotation in the log of a call.
* `rotations_find_tree`: all calls in reachable states.
-/

set_option autoImplicit false

namespace RecordTree

variable {ρ σ τ : Type}

/-! ### Shapes without colours -/

/-- What is a join without its colours is a join with them. -/
theorem Shape.exists_join_of_plain {t a b : Shape} {side : Side} {id : RecordId}
    (h : t.plain = .join side .black a id b) :
    ∃ c a' b', t = .join side c a' id b' ∧ a'.plain = a ∧ b'.plain = b := by
  cases t with
  | leaf => cases side <;> cases h
  | node c l top r =>
    cases side with
    | left =>
      cases h
      exact ⟨c, l, r, rfl, rfl, rfl⟩
    | right =>
      cases h
      exact ⟨c, r, l, rfl, rfl, rfl⟩

/-- A shape has the positions that it has without its colours. -/
theorem Context.exists_fill_of_plain {t u : Shape} {C : Context} (h : t.plain = (C.fill u).plain) :
    ∃ (C' : Context) (u' : Shape), t = C'.fill u' ∧ u'.plain = u.plain ∧ C'.parent = C.parent ∧
      C'.side = C.side := by
  induction C generalizing u with
  | top => exact ⟨.top, t, rfl, h, rfl, rfl⟩
  | under side c id sibling above ih =>
    obtain ⟨above', v, rfl, hv, -, -⟩ := ih h
    rw [Shape.plain_join] at hv
    obtain ⟨c', u', sibling', rfl, hu, -⟩ := Shape.exists_join_of_plain hv
    exact ⟨.under side c' id sibling' above', u', rfl, hu, rfl, rfl⟩

/-- The root does not depend on colours. -/
theorem Shape.root?_plain (t : Shape) : t.plain.root? = t.root? := by
  cases t <;> rfl

section Rotations

variable [Linked ρ]

/-- The node above a position has the top of the tree in it as its child. -/
theorem Tree.HasShape.child_above {t : Tree} {s : Store ρ} {C : Context} {u : Shape} {p : RecordId}
    (h : t.HasShape s (C.fill u)) (hp : C.parent = some p) :
    ∃ n, s.node p = .ok n ∧ n.child C.side = u.root? := by
  cases C with
  | top => cases hp
  | under side c id sibling above =>
    cases hp
    exact ⟨_, h.node_top (C := above), Node.child_placed⟩

/-! ### What is found -/

/-- `new` stands in `s'` where `old` stood in `s`: at the top of the tree, or at the same side of
the same node. -/
def TakesPlace (s s' : Store ρ) (top old new : RecordId) : Prop :=
  ∃ m n, s.node old = .ok m ∧ s'.node new = .ok n ∧ n.parent = m.parent ∧
    (m.parent = none ∧ new = top ∨ ∃ up side p q, m.parent = some up ∧ s.node up = .ok p ∧
      s'.node up = .ok q ∧ p.child side = some old ∧ q.child side = some new)

/-- At the callback `w` of a rotation of `old` and `new`, which comes after the callback `u`, the
records around them are a tree with the nodes `list`. -/
structure Found (list : List RecordId) (u w : Sighting ρ) (old new top : RecordId) (shape : Shape) :
    Prop where
  /-- Every child link of the tree is matched by a parent link, and no record stands there twice. -/
  hasShape : Tree.HasShape ⟨some top⟩ w.before shape
  inorder : shape.inorder = list
  /-- Climbing from any of its nodes leads to the top, and from `old` by way of `new`. -/
  climbs : ∀ j ∈ list, ∃ rest, w.before.Lineage (some j) (top :: rest)
  below : ∃ n, w.before.node old = .ok n ∧ n.parent = some new
  mem : old ∈ list ∧ new ∈ list
  place : TakesPlace u.after w.before top old new
  /-- The callback leaves the tree as it found it. -/
  spared : w.after.node = w.before.node

variable {P : Payloads ρ → Shape → Prop} {s s' : Store ρ} {first last before after : Shape}
  {log pre post : List (Sighting ρ)} {w : Sighting ρ} {list : List RecordId}

/-- A rotation keeps the order of the nodes. -/
theorem Turn.inorder_eq (h : Turn P s before w after) : after.inorder = before.inorder := by
  obtain ⟨C, side, c, d, a, b, e, old, new, -, hbefore, rfl⟩ := h.turned
  rw [Context.inorder_rotate, ← Shape.inorder_plain before, hbefore, Shape.inorder_plain]

/-- The step: what the log shows of a rotation is what its callback found. -/
theorem Turn.found {u : Sighting ρ} (hshape : Tree.HasShape ⟨before.root?⟩ u.after before)
    (h : Turn P u.after before w after) (hlist : before.inorder = list) {old new : RecordId}
    (hw : w.notice = .rotate old new) : ∃ top, Found list u w old new top after := by
  have hinorder := h.inorder_eq
  obtain ⟨C, side, c, d, a, b, e, old', new', hnotice, hbefore, hafter⟩ := h.turned
  rw [hw] at hnotice
  cases hnotice
  -- Both structures have the position of `C`, and above it they are the same.
  obtain ⟨C', v, rfl, hv, hparent, hside⟩ := Context.exists_fill_of_plain hbefore
  rw [Shape.plain_join] at hv
  obtain ⟨c', a', v', rfl, -, -⟩ := Shape.exists_join_of_plain hv
  have hnew := h.hasShape
  rw [hafter] at hnew
  have hmem : old ∈ after.inorder ∧ new ∈ after.inorder := by
    rw [hafter]
    simp
  have hne : after ≠ .leaf := by
    rintro rfl
    cases hmem.1
  obtain ⟨top, htop⟩ := Option.ne_none_iff_exists'.mp (Shape.root?_ne_none hne)
  have hrep := h.hasShape.represents
  refine ⟨top, ?_, hinorder.trans hlist, fun j hj => ?_, ?_, ?_, ?_, h.spared⟩
  · rw [← htop]
    exact h.hasShape
  · rw [← hlist, ← hinorder] at hj
    obtain ⟨top', rest, htop', hline⟩ := hrep.exists_lineage .top hj
    rw [show after.root? = some top' from htop'] at htop
    cases htop
    exact ⟨rest, hline⟩
  · have hold := Tree.HasShape.node_top (C := .under side d new e C) hnew
    exact ⟨_, hold, Node.parent_placed⟩
  · rwa [← hlist, ← hinorder]
  · refine ⟨_, _, hshape.node_top, hnew.node_top, ?_, ?_⟩
    · rw [Node.parent_placed, Node.parent_placed, hparent]
    · rw [Node.parent_placed, hparent]
      cases hC : C.parent with
      | none =>
        refine .inl ⟨rfl, ?_⟩
        obtain rfl : C = .top := by
          cases C with
          | top => rfl
          | under => cases hC
        rw [hafter, Context.fill, Shape.root?_join] at htop
        exact Option.some.inj htop
      | some up =>
        obtain ⟨p, hp, hpchild⟩ := hshape.child_above (hparent.trans hC)
        obtain ⟨q, hq, hqchild⟩ := hnew.child_above hC
        rw [hside, Shape.root?_join] at hpchild
        rw [Shape.root?_join] at hqchild
        exact .inr ⟨up, C.side, p, q, rfl, hp, hq, hpchild, hqchild⟩

namespace Turned

/-- So do rotations one after another. -/
theorem inorder_eq (h : Turned P s first log s' last) : last.inorder = first.inorder := by
  induction h with
  | start => rfl
  | turn _ hturn ih => exact hturn.inorder_eq.trans ih

/-- The last rotation in a log comes after the others. -/
theorem of_concat (h : Turned P s first (log ++ [w]) s' last) :
    ∃ s₁ before, Turned P s first log s₁ before ∧ Turn P s₁ before w last ∧ s' = w.after := by
  generalize hlog : log ++ [w] = log' at h
  cases h with
  | start => simp at hlog
  | turn hlog' hturn =>
    obtain ⟨rfl, hw⟩ := List.append_inj' hlog rfl
    cases hw
    exact ⟨_, _, hlog', hturn, rfl⟩

/-- What the log shows of a rotation goes on from what it showed before. The last one leaves what
the log ends with. -/
theorem split (h : Turned P s first (pre ++ w :: post) s' last) :
    ∃ s₁ before after, Turned P s first pre s₁ before ∧ Turn P s₁ before w after ∧
      (post = [] → after = last) := by
  induction post using List.reverseRecOn generalizing s' last with
  | nil =>
    obtain ⟨s₁, before, hpre, hturn, -⟩ := h.of_concat
    exact ⟨s₁, before, last, hpre, hturn, fun _ => rfl⟩
  | append_singleton post v ih =>
    rw [← List.cons_append, ← List.append_assoc] at h
    obtain ⟨_, _, hlog, -, -⟩ := h.of_concat
    obtain ⟨s₁, before, after, hpre, hturn, -⟩ := ih hlog
    exact ⟨s₁, before, after, hpre, hturn, by simp⟩

/-- Between rotations the records are those that the last callback left. -/
theorem store_eq (h : Turned P s first log s' last) :
    log = [] ∧ s' = s ∨ ∃ u, log.getLast? = some u ∧ s' = u.after := by
  cases h with
  | start => exact .inl ⟨rfl, rfl⟩
  | @turn log _ _ _ w _ _ => exact .inr ⟨w, by simp, rfl⟩

end Turned

/-! ### Rotations of a call -/

/-- The callbacks that come first are no rotations, and the last of them leaves the records from
which the rotations start. -/
def Opens (First : List (Sighting ρ) → Store ρ → Shape → Prop) : Prop :=
  ∀ log s shape, First log s shape → (∃ u, log.getLast? = some u ∧ s = u.after) ∧
    ∀ w ∈ log, ∀ old new, w.notice ≠ .rotate old new

omit [Linked ρ] in
/-- Linking a leaf opens the log with a callback that is no rotation. -/
theorem opens_planted (C : Context) (id : RecordId) : Opens (Planted (ρ := ρ) C id) := by
  rintro _ _ _ ⟨⟩
  exact ⟨⟨_, rfl, rfl⟩, by simp⟩

omit [Linked ρ] in
/-- Taking a node out opens it so as well, in each of its ways. -/
theorem opens_takenOut (whole : Shape) (id : RecordId) : Opens (TakenOut (ρ := ρ) whole id) := by
  rintro _ _ _ (_ | _ | _)
  · exact ⟨⟨_, rfl, rfl⟩, by simp⟩
  · exact ⟨⟨_, rfl, rfl⟩, by simp⟩
  · exact ⟨⟨_, rfl, rfl⟩, by simp⟩

/-- At each rotation in the log, the callback finds a tree with the nodes `list`. The last one finds
it with the top `root`. -/
def FindsTree (root : Option RecordId) (list : List RecordId) (log : List (Sighting ρ)) : Prop :=
  ∀ pre w post old new, log = pre ++ w :: post → w.notice = .rotate old new →
    ∃ u top shape, pre.getLast? = some u ∧ Found list u w old new top shape ∧
      (post = [] → root = some top)

variable {First : List (Sighting ρ) → Store ρ → Shape → Prop} {k : Nat} {shape : Shape}

/-- The log of a call shows each rotation after the callback that comes before it. -/
theorem Shows.exists_turn (h : Shows P First k log shape) (hopens : Opens First)
    (hlog : log = pre ++ w :: post) {old new : RecordId} (hw : w.notice = .rotate old new) :
    ∃ u before after, pre.getLast? = some u ∧ Tree.HasShape ⟨before.root?⟩ u.after before ∧
      Turn P u.after before w after ∧ after.inorder = shape.inorder ∧
      (post = [] → after.root? = shape.root?) := by
  obtain ⟨start, rotations, s, s', first, last, hsplit, -, hfirst, hturned, hlast⟩ := h
  obtain ⟨⟨u, hu, rfl⟩, hnot⟩ := hopens _ _ _ hfirst
  -- The callback is none of the first ones, so the log splits behind these.
  obtain ⟨pre', rfl, rfl⟩ : ∃ pre', pre = start ++ pre' ∧ rotations = pre' ++ w :: post := by
    rw [hsplit] at hlog
    rcases List.append_eq_append_iff.mp hlog with ⟨pre', hpre, hrot⟩ | ⟨rest, hstart, hrest⟩
    · exact ⟨pre', hpre, hrot⟩
    · cases rest with
      | nil => exact ⟨[], by simpa using hstart.symm, by simpa using hrest.symm⟩
      | cons v rest =>
        obtain ⟨rfl, -⟩ := List.cons_eq_cons.mp hrest
        exact absurd hw (hnot w (by simp [hstart]) old new)
  obtain ⟨s₁, before, after, hpre, hturn, hpost⟩ := hturned.split
  have hinorder : after.inorder = shape.inorder := by
    rw [hturn.inorder_eq, hpre.inorder_eq, ← hturned.inorder_eq, ← Shape.inorder_plain last, hlast,
      Shape.inorder_plain]
  have hroot : post = [] → after.root? = shape.root? := fun hnil => by
    rw [hpost hnil, ← Shape.root?_plain last, hlast, Shape.root?_plain]
  rcases hpre.store_eq with ⟨rfl, rfl⟩ | ⟨v, hv, rfl⟩
  · exact ⟨u, before, after, by simpa using hu, hpre.hasShape, hturn, hinorder, hroot⟩
  · exact ⟨v, before, after, by simp [hv], hpre.hasShape, hturn, hinorder, hroot⟩

/-- The run: each callback of a rotation finds the tree that the call leaves, up to rotations. -/
theorem Shows.findsTree (h : Shows P First k log shape) (hopens : Opens First) :
    FindsTree shape.root? shape.inorder log := by
  intro pre w post old new hlog hw
  obtain ⟨u, before, after, hu, hshape, hturn, hinorder, hroot⟩ := h.exists_turn hopens hlog hw
  obtain ⟨top, hfound⟩ := hturn.found hshape (hturn.inorder_eq.symm.trans hinorder) hw
  refine ⟨u, top, after, hu, hfound, fun hnil => ?_⟩
  rw [← hroot hnil]
  exact hfound.hasShape.root_eq.symm

/-- Where a request that is let through takes the nodes of its tree. -/
def Request.Moves : Request ρ σ → List RecordId → List RecordId → Prop
  | insert id _, old, new | link _ id, old, new => ∃ l r, old = l ++ r ∧ new = l ++ id :: r
  | delete id, old, new => ∃ l r, old = l ++ id :: r ∧ new = l ++ r
  | replace out id, old, new => ∃ l r, old = l ++ out :: r ∧ new = l ++ id :: r

namespace Request.Shown

variable {t : Tree} {x : σ} {q : Request ρ σ} {shape' : Shape}

/-- What the log of a request shows takes the nodes where the request takes them. -/
theorem moves (h : q.Shown P s t x shape log shape') : q.Moves shape.inorder shape'.inorder := by
  cases h with
  | @insert id compare C first x' k log shape' hshape _ _ hinorder =>
    refine ⟨C.before, C.after, ?_, hinorder⟩
    rw [hshape, Context.inorder_fill_leaf, Context.ids]
  | @link vacancy id C k log shape' hshape _ _ hinorder =>
    refine ⟨C.before, C.after, ?_, hinorder⟩
    rw [hshape, Context.inorder_fill_leaf, Context.ids]
  | delete hold _ hnew => exact ⟨_, _, hold, hnew⟩
  | replace hold hnew => exact ⟨_, _, hold, hnew⟩

/-- What a log shows of a request begins with other callbacks than rotations, if it has any. -/
theorem exists_shows (h : q.Shown P s t x shape log shape') :
    log = [] ∨ ∃ First k, Opens First ∧ Shows P First k log shape' := by
  cases h with
  | insert _ _ _ _ hshows => exact .inr ⟨_, _, opens_planted _ _, hshows⟩
  | link _ _ _ _ hshows => exact .inr ⟨_, _, opens_planted _ _, hshows⟩
  | delete _ _ _ hshows => exact .inr ⟨_, _, opens_takenOut _ _, hshows⟩
  | replace => exact .inl rfl

/-- At each rotation that the log of a request shows, the callback finds a tree with the nodes of
the end. -/
theorem findsTree (h : q.Shown P s t x shape log shape') :
    FindsTree shape'.root? shape'.inorder log := by
  rcases h.exists_shows with rfl | ⟨First, k, hopens, hshows⟩
  · intro pre w post old new hlog
    simp at hlog
  · exact hshows.findsTree hopens

/-- Right after each rotation, `P` holds of the tree. -/
theorem right_of_rotate (h : q.Shown P s t x shape log shape') {w : Sighting ρ} (hw : w ∈ log)
    {old new : RecordId} (hnotice : w.notice = .rotate old new) :
    ∃ after, Tree.HasShape ⟨after.root?⟩ w.after after ∧ after.inorder = shape'.inorder ∧
      P w.after.payload after := by
  rcases h.exists_shows with rfl | ⟨First, k, hopens, hshows⟩
  · cases hw
  · obtain ⟨pre, post, hlog⟩ := List.append_of_mem hw
    obtain ⟨u, before, after, -, -, hturn, hinorder, -⟩ := hshows.exists_turn hopens hlog hnotice
    exact ⟨after, hturn.hasShape.congr fun j _ => congrFun hturn.spared j, hinorder, hturn.right⟩

end Request.Shown

end Rotations

/-! ### All calls -/

section FindsTrees

variable [Linked ρ] [Listener σ]

/-- With the callbacks `aug`, the request returns if callbacks that would fail are skipped. Whenever
it is let through and returns, each of its rotations has a callback that finds a tree with the nodes
that the tree has after the call. -/
def FindsTrees (on : ∀ {σ : Type} [Listener σ], Augmentation ρ σ → Request ρ σ → Guarded ρ σ τ)
    (tree : τ → Tree) (s : Store ρ) (t : Tree) (x : σ) (aug : Augmentation ρ σ)
    (q : Request ρ σ) : Prop :=
  (∃ out, (on aug.orSkip q).run s x = .ok out) ∧
  ∀ t' s' x', (on aug q).run s x = .ok ((.ok t', s'), x') → ∃ log old new,
    (on aug.watched q.watched).run s ([], x) = .ok ((.ok t', s'), (log, x')) ∧
    t.walk s .ascending = .ok old ∧ (tree t').walk s' .ascending = .ok new ∧ q.Moves old new ∧
    FindsTree (tree t').root new log

/-- Each rotation of a request finds a tree if its watched runs show what came of the tree. -/
theorem FindsTrees.of_shown
    {on : ∀ {σ : Type} [Listener σ], Augmentation ρ σ → Request ρ σ → Guarded ρ σ τ}
    {tree : τ → Tree} {s : Store ρ} {t : Tree} {x : σ} {aug : Augmentation ρ σ} {q : Request ρ σ}
    {shape : Shape} (hon : InStep (ρ := ρ) on) (h : t.Keeps s shape)
    (hshown : (on aug.orSkip.watched q.watched).Returns s ([], x)
      (fun t' s' x' => ∃ shape', (tree t').Keeps s' shape' ∧
        q.Shown (fun _ _ => True) s t x shape x'.1 shape')
      fun _ _ x' => x'.1 = []) : FindsTrees on tree s t x aug q := by
  obtain ⟨hreturns, hlogs⟩ := hon.exists_log aug.approximates_orSkip hshown
  refine ⟨hreturns, fun t' s' x' hrun => ?_⟩
  obtain ⟨log, hwatched, shape', hkeeps', hshown⟩ := hlogs _ s' x' hrun
  refine ⟨log, shape.inorder, shape'.inorder, hwatched, h.walk_ascending, hkeeps'.walk_ascending,
    hshown.moves, ?_⟩
  rw [hkeeps'.root_eq]
  exact hshown.findsTree

end FindsTrees

section KeepsReaches

variable {κ : Type} [Spanned ρ κ] [LinearOrder κ] [Listener σ]

/-- The record that the request links, if it links one, has its own stop as its reach. -/
def Request.Fresh (s : Store ρ) : Request ρ σ → Prop
  | insert id _ | link _ id => ∀ e : Entry κ, s.entry id = .ok e → e.reach = e.stop
  | delete _ | replace .. => True

/-- With the callbacks of an interval tree, the request returns. Whenever it is let through and
returns, all nodes that the tree has after the call have exact reaches right after each rotation. -/
def KeepsReaches (on : ∀ {σ : Type} [Listener σ], Augmentation ρ σ → Request ρ σ → Guarded ρ σ τ)
    (tree : τ → Tree) (s : Store ρ) (x : σ) (q : Request ρ σ) : Prop :=
  (∃ out, (on reachSummary q).run s x = .ok out) ∧
  ∀ t' s' x', (on reachSummary q).run s x = .ok ((.ok t', s'), x') → ∃ log new,
    (on reachSummary.watched q.watched).run s ([], x) = .ok ((.ok t', s'), (log, x')) ∧
    (tree t').walk s' .ascending = .ok new ∧
    ∀ w ∈ log, ∀ old up, w.notice = .rotate old up → ∀ j ∈ new, w.after.ReachExact j

variable [LawfulSpanned ρ] {s : Store ρ} {t : Tree} {x : σ} {q : Request ρ σ} {shape : Shape}

omit [Listener σ] in
/-- What the contracts of `reachSummary` ask for. -/
theorem Request.Fresh.needs (h : q.Fresh s) (hexact : Exact s.payload shape) :
    ∃ ids, q.Needs
      (fun id p _ shape => Summed s.payload ids p shape ∧
        Payloads.reachAt p id = Payloads.stopAt p id ∧ id ∈ ids)
      (fun p _ shape => Summed s.payload ids p shape) s.payload x shape := by
  have hreach {id : RecordId} (hid : ∀ e, s.entry id = .ok e → e.reach = e.stop) :
      Payloads.reachAt s.payload id = Payloads.stopAt s.payload id := by
    cases he : s.entry id with
    | ok e =>
      obtain ⟨-, hstop, hreach⟩ := Store.payload_of_entry he
      rw [hstop, hreach, hid e he]
    | error fault =>
      -- A record that does not exist has no reach and no stop.
      cases hfetch : s.fetch id with
      | ok r => simp [Store.entry, hfetch, Functor.map, Except.map] at he
      | error fault => simp [Payloads.reachAt, Payloads.stopAt, Store.payload, hfetch, Functor.map,
          Except.map]
  cases q with
  | insert id compare =>
    refine ⟨id :: shape.inorder, fun x' => ⟨⟨hexact, .refl _ _, ?_⟩, hreach h, by simp⟩⟩
    exact fun j hj => .tail id hj
  | link vacancy id =>
    refine ⟨id :: shape.inorder, ⟨hexact, .refl _ _, ?_⟩, hreach h, by simp⟩
    exact fun j hj => .tail id hj
  | delete id => exact ⟨shape.inorder, hexact, .refl _ _, fun j hj => hj⟩
  | replace old new => exact ⟨[], trivial⟩

/-- A watched request of an interval tree with exact reaches returns, and each rotation in its log
leaves exact reaches. -/
theorem Request.returns_watched_reachSummary (h : t.Keeps s shape) (hq : q.Suits s t x shape)
    (hexact : ∀ j ∈ shape.inorder, s.ReachExact j) (hfresh : q.Fresh s) :
    (q.watched.onTree reachSummary.watched t).Returns s ([], x)
      (fun t' s' x' => ∃ shape', t'.Keeps s' shape' ∧ q.Shown Exact s t x shape x'.1 shape')
      (fun _ _ x' => x'.1 = []) := by
  obtain ⟨ids, hneeds⟩ := hfresh.needs (x := x) (h.spells.exact_iff.mpr hexact)
  exact returns_watched reachSummary_turns (fun _ => reachSummary_grows)
    (fun _ => reachSummary_shrinks) (fun _ _ _ _ hsummed => hsummed.exact) h hq hneeds

/-- A request keeps reaches if its watched runs show exact ones. -/
theorem KeepsReaches.of_shown
    {on : ∀ {σ : Type} [Listener σ], Augmentation ρ σ → Request ρ σ → Guarded ρ σ τ}
    {tree : τ → Tree} (hon : InStep (ρ := ρ) on)
    (hshown : (on reachSummary.watched q.watched).Returns s ([], x)
      (fun t' s' x' => ∃ shape', (tree t').Keeps s' shape' ∧
        q.Shown Exact s t x shape x'.1 shape')
      fun _ _ x' => x'.1 = []) : KeepsReaches on tree s x q := by
  obtain ⟨hreturns, hlogs⟩ := hon.exists_log (.refl _) hshown
  refine ⟨hreturns, fun t' s' x' hrun => ?_⟩
  obtain ⟨log, hwatched, shape', hkeeps', hshown⟩ := hlogs _ s' x' hrun
  refine ⟨log, shape'.inorder, hwatched, hkeeps'.walk_ascending, fun w hw old up hnotice => ?_⟩
  obtain ⟨after, hafter, hinorder, hexact⟩ := hshown.right_of_rotate hw hnotice
  rw [← hinorder]
  exact hafter.spells.exact_iff.mp hexact

end KeepsReaches

/-- In every reachable state, and with any callbacks that spare nodes, the callback of each rotation
of an insertion, a link or a deletion finds a tree that has the nodes of the tree after the call. If
reaches were exact before the call, and a new record has its own stop as its reach, then they are
exact right after each callback of `reachSummary` for a rotation. -/
theorem rotations_find_tree {ι κ : Type} [Linked ρ] [LawfulLinked ρ] [Listener σ] [Spanned ι κ]
    [LawfulSpanned ι] [LinearOrder κ] :
    (∀ {τ : Type} [DecidableEq τ] (f : Forest τ ρ σ) (i : τ) (q : Request ρ σ)
      (aug : Augmentation ρ σ), f.Reachable → f.Permits i q.call → aug.Spares →
      FindsTrees (fun aug q => q.onTree aug (f.trees i)) id f.store (f.trees i) f.context aug q) ∧
    (∀ (f : Cached ρ σ) (q : Request ρ σ) (aug : Augmentation ρ σ), f.Reachable →
      f.Permits q.cachedCall → aug.Spares →
      FindsTrees (fun aug q => q.onCached aug f.tree) CachedTree.tree f.store f.tree.tree f.context
        aug q) ∧
    (∀ {τ : Type} [DecidableEq τ] (f : Forest τ ι σ) (i : τ) (q : Request ι σ), f.Reachable →
      f.Permits i q.call → (∀ id, f.Holds i id → f.store.ReachExact id) → q.Fresh f.store →
      KeepsReaches (fun aug q => q.onTree aug (f.trees i)) id f.store f.context q) ∧
    (∀ (f : Cached ι σ) (q : Request ι σ), f.Reachable → f.Permits q.cachedCall →
      (∀ id, f.Holds id → f.store.ReachExact id) → q.Fresh f.store →
      KeepsReaches (fun aug q => q.onCached aug f.tree) CachedTree.tree f.store f.context q) ∧
    ∀ f : Intervals ι σ, f.Reachable →
      f.toCached.Reachable ∧ ∀ id, f.toCached.Holds id → f.store.ReachExact id := by
  refine ⟨fun f i q aug h hq haug => ?_, fun f q aug h hq haug => ?_,
    fun f i q h hq hexact hfresh => ?_, fun f q h hq hexact hfresh => ?_,
    fun f h => ⟨h.toCached, fun id hid => ?_⟩⟩
  · obtain ⟨shape, hkeeps, hshown⟩ := h.shown hq haug
    exact .of_shown (f.trees i).inStep hkeeps hshown
  · obtain ⟨shape, hkeeps, hshown⟩ := h.shown hq haug
    exact .of_shown f.tree.inStep hkeeps hshown
  · obtain ⟨shapes, hshaped⟩ := h.exists_shaped
    exact .of_shown (f.trees i).inStep (Request.returns_watched_reachSummary (hshaped.keeps i)
      (hshaped.suits hq) (fun j hj => hexact j (hshaped.holds_iff.mpr hj)) hfresh)
  · obtain ⟨shape, hkeeps⟩ := h.exists_keeps
    have hwatched := Request.returns_watched_reachSummary hkeeps.keeps (Cached.suits hkeeps hq)
      (fun j hj => hexact j ((Cached.holds_iff hkeeps).mpr hj)) hfresh
    exact .of_shown f.tree.inStep (Request.returns_onCached_of_tree hkeeps hwatched)
  · obtain ⟨shape, hkeeps⟩ := h.exists_keeps
    exact hkeeps.reach_eq hid

namespace Intervals

/-- The tree of `sample`, with a third record in the store. -/
def sampleThird : Intervals (Entry Nat) Unit := { sample with store := sample.store.push (.of 4 9) }

/-- A record that is added to `sample` leaves the state reachable. -/
theorem reachable_sampleThird : sampleThird.Reachable := by
  refine reachable_sample.edit (s := sampleThird.store) () (fun id hid => ?_)
    fun id n hn hstate => ?_
  · obtain ⟨shape, hkeeps⟩ := reachable_sample.exists_keeps
    have hlt : id < 2 := hkeeps.cached.keeps.lt_size (hkeeps.holds_iff.mp hid)
    match id with
    | 0 | 1 => rfl
  · match id with
    | 0 => exact .here rfl
    | 1 => exact .child .right rfl (.here rfl)
    | 2 =>
      cases hn
      cases hstate
    | k + 3 => simp [sampleThird, sample, Store.node, Store.fetch] at hn

/-- The insertion of the third record makes one rotation. Its callback finds all three records in a
tree, and leaves their reaches exact. -/
theorem rotations_sampleThird :
    ∃ out log, (Request.onCached reachSummary.watched sampleThird.tree.cached
        (Request.insert 2 (.of compareStart) : Request (Entry Nat) Unit).watched).run
          sampleThird.store ([], ()) = .ok (out, (log, ())) ∧
      ∃ u w shape, log = [u, w] ∧ w.notice = .rotate 0 1 ∧ Found [0, 1, 2] u w 0 1 1 shape ∧
        ∀ j ∈ [0, 1, 2], w.after.ReachExact j := by
  obtain ⟨-, htree, -, hreach, hintervals⟩ := rotations_find_tree (ρ := Entry Nat) (σ := Unit)
    (ι := Entry Nat) (κ := Nat)
  obtain ⟨hreachable, hexact⟩ := hintervals sampleThird reachable_sampleThird
  have hpermits : sampleThird.toCached.Permits
      (Request.insert 2 (.of compareStart) : Request (Entry Nat) Unit).cachedCall :=
    .inl ⟨Augmentation.spares_none, show 2 < 3 by decide⟩
  obtain ⟨-, hfinds⟩ := htree sampleThird.toCached _ reachSummary hreachable hpermits
    spares_reachSummary
  obtain ⟨log, old, new, hwatched, -, hwalk, -, hfound⟩ := hfinds _ _ _ rfl
  obtain ⟨-, hsums⟩ := hreach sampleThird.toCached _ hreachable hpermits hexact (by
    intro e he
    cases he
    rfl)
  -- Both halves speak of one run, which has one log and one walk.
  obtain ⟨log', new', hwatched', hwalk', hright⟩ := hsums _ _ _ rfl
  refine ⟨_, log, hwatched, ?_⟩
  cases hwatched
  cases hwatched'
  cases hwalk
  cases hwalk'
  obtain ⟨u, top, shape, hu, hfound, hroot⟩ := hfound [_] _ [] 0 1 rfl rfl
  cases hu
  cases hroot rfl
  exact ⟨_, _, shape, rfl, rfl, hfound, hright _ (by simp) 0 1 rfl⟩

end Intervals

end RecordTree
