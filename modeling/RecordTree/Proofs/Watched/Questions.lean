import Mathlib.Data.Finset.Card
import Mathlib.Order.Bounds.Defs
import RecordTree.Proofs.Shape.Height
import RecordTree.Proofs.Tree.Find
import RecordTree.Proofs.Watched.Calls

/-!
# `RecordTree.Proofs.Watched.Questions`: what a search asks the caller

A search asks the caller about one record on each level that it comes through. So it goes along one
way down (`Store.Descends`), and how often it asks is bounded by the nodes on the longest one. That
number is at most twice the logarithm of the size of the tree (`Tree.Low`).

* `Comparator.asked`, `Probe.asked`: the caller keeps a log of what it is asked.
* `Tree.exists_asked_descend`, `Tree.exists_asked_find`: the log of a search has the records on a
  way down. This is read off the code, whatever the links are.
* `InStep.asked_insert`: all that an insertion asks is asked on its descent.
* `depth_bounds_questions`: in reachable states, each search returns and asks about different
  linked records, of which there are few.
-/

set_option autoImplicit false

namespace RecordTree

variable {ρ σ γ α β τ : Type}

/-! ### Ways down -/

section Ways

variable [Linked ρ] {s : Store ρ} {parent position : Option RecordId} {shape : Shape}
  {path : List RecordId}

namespace Store

/-- A way down from a position along child links, as the nodes that it goes through. It may end
anywhere. -/
inductive Descends (s : Store ρ) : Option RecordId → List RecordId → Prop where
  | stop (position : Option RecordId) : Descends s position []
  | step {id : RecordId} {n : Node} {path : List RecordId} (side : Side) :
      s.node id = .ok n → Descends s (n.child side) path → Descends s (some id) (id :: path)

/-- The records are those on a way down. -/
def Passes (s : Store ρ) (position : Option RecordId) (records : List ρ) : Prop :=
  ∃ path, s.Descends position path ∧ path.map s.fetch = records.map .ok

/-- A way down may end at once, by no records. -/
theorem Passes.nil (s : Store ρ) (position : Option RecordId) : s.Passes position [] :=
  ⟨[], .stop position, rfl⟩

/-- A way down goes by the record at the top, and by those on a way down from a child. -/
theorem Passes.cons {id : RecordId} {r : ρ} {records : List ρ} (hr : s.fetch id = .ok r)
    (side : Side) (h : s.Passes ((Linked.node r).child side) records) :
    s.Passes (some id) (r :: records) := by
  obtain ⟨path, hpath, hrecords⟩ := h
  have hnode : s.node id = .ok (Linked.node r) := by
    rw [node, hr]
    rfl
  refine ⟨id :: path, .step side hnode hpath, ?_⟩
  rw [List.map_cons, List.map_cons, hr, hrecords]

/-- The nodes on a way down are below the position. -/
theorem Descends.reaches (h : s.Descends position path) {id : RecordId} (hid : id ∈ path) :
    s.Reaches position id := by
  induction h with
  | stop => cases hid
  | step side hn _ ih =>
    rcases List.mem_cons.mp hid with rfl | hid
    · exact .here hn
    · exact .child side hn (ih hid)

end Store

namespace Represents

/-- No way down is longer than the shape is high. -/
theorem length_le_height (h : Represents s parent position shape)
    (hpath : s.Descends position path) : path.length ≤ shape.height := by
  induction hpath generalizing parent shape with
  | stop => exact Nat.zero_le _
  | step side hn _ ih =>
    cases h with
    | @node _ _ _ l r hm _ _ hl hr =>
      rw [hn] at hm
      cases hm
      rw [List.length_cons, Shape.height, Nat.add_comm, Nat.add_le_add_iff_left]
      cases side with
      | left => exact (ih hl).trans (Nat.le_max_left _ _)
      | right => exact (ih hr).trans (Nat.le_max_right _ _)

/-- One way down is as long. -/
theorem exists_length_eq_height (h : Represents s parent position shape) :
    ∃ path, s.Descends position path ∧ path.length = shape.height := by
  induction h with
  | leaf => exact ⟨[], .stop none, rfl⟩
  | @node _ id _ l r hn _ _ _ _ ihl ihr =>
    rcases Nat.le_total l.height r.height with hle | hle
    · obtain ⟨path, hpath, hlength⟩ := ihr
      refine ⟨id :: path, .step .right hn hpath, ?_⟩
      rw [List.length_cons, hlength, Shape.height, Nat.max_eq_right hle, Nat.add_comm]
    · obtain ⟨path, hpath, hlength⟩ := ihl
      refine ⟨id :: path, .step .left hn hpath, ?_⟩
      rw [List.length_cons, hlength, Shape.height, Nat.max_eq_left hle, Nat.add_comm]

/-- A way down goes through no node twice, if none stands twice in the shape. -/
theorem nodup_of_descends (h : Represents s parent position shape)
    (hpath : s.Descends position path) (hnodup : shape.inorder.Nodup) : path.Nodup := by
  induction hpath generalizing parent shape with
  | stop => exact List.nodup_nil
  | step side hn hrest ih =>
    cases h with
    | node hm _ _ hl hr =>
      rw [hn] at hm
      cases hm
      rw [← Shape.join_left] at hnodup
      obtain ⟨hidl, hidr, hnodupl, hnodupr, -⟩ := Shape.nodup_join.mp hnodup
      -- The rest of the way stays in one of the subtrees, and the top is in neither.
      refine List.nodup_cons.mpr ?_
      cases side with
      | left => exact ⟨fun hin => hidl ((hl.reaches_iff _).mp (hrest.reaches hin)), ih hl hnodupl⟩
      | right => exact ⟨fun hin => hidr ((hr.reaches_iff _).mp (hrest.reaches hin)), ih hr hnodupr⟩

end Represents

/-- The longest way down from the root has `d` nodes, which is at most twice the logarithm of the
number of nodes in the tree. -/
structure Tree.Low (t : Tree) (s : Store ρ) (d : Nat) : Prop where
  deepest : IsGreatest {k | ∃ path, s.Descends t.root path ∧ path.length = k} d
  two_pow_le : ∃ nodes : Finset RecordId,
    (∀ id, id ∈ nodes ↔ s.Reaches t.root id) ∧ 2 ^ d ≤ (nodes.card + 1) ^ 2

/-- The records are those of linked nodes on a way down from the root, no more than `d` and each of
another node. -/
structure Tree.Meets (t : Tree) (s : Store ρ) (d : Nat) (records : List ρ) : Prop where
  way : ∃ path, s.Descends t.root path ∧ path.Nodup ∧ path.map s.fetch = records.map .ok
  linked : ∀ r ∈ records, (Linked.node r).state = .linked
  length_le : records.length ≤ d

namespace Tree

variable {t : Tree} {records : List ρ}

/-- A red-black tree is low. -/
theorem Keeps.low (h : t.Keeps s shape) : t.Low s shape.height := by
  refine ⟨⟨h.represents.exists_length_eq_height, ?_⟩, shape.inorder.toFinset, fun id => ?_, ?_⟩
  · rintro _ ⟨path, hpath, rfl⟩
    exact h.represents.length_le_height hpath
  · rw [List.mem_toFinset]
    exact (h.represents.reaches_iff id).symm
  · obtain ⟨_, hredBlack⟩ := h.redBlack
    rw [List.toFinset_card_of_nodup h.nodup, Shape.length_inorder]
    exact hredBlack.two_pow_height_le

/-- In a tree with a shape, the records on a way down are few and different ones. -/
theorem HasShape.meets (h : t.HasShape s shape) (hpasses : s.Passes t.root records) :
    t.Meets s shape.height records := by
  obtain ⟨path, hpath, hrecords⟩ := hpasses
  refine ⟨⟨path, hpath, h.represents.nodup_of_descends hpath h.nodup, hrecords⟩, ?_, ?_⟩
  · intro r hr
    have hfetched : (.ok r : Except Fault ρ) ∈ path.map s.fetch :=
      hrecords ▸ List.mem_map_of_mem hr
    obtain ⟨id, hid, hfetch⟩ := List.mem_map.mp hfetched
    have hin := (h.represents.reaches_iff id).mp (hpath.reaches hid)
    obtain ⟨n, hn, hstate⟩ := h.spells.exists_linked hin
    rw [Store.node, hfetch] at hn
    cases hn
    exact hstate
  · have hlength := congrArg List.length hrecords
    rw [List.length_map, List.length_map] at hlength
    rw [← hlength]
    exact h.represents.length_le_height hpath

end Tree

end Ways

/-! ### Logs of questions -/

/-- The comparator of a caller that keeps a log of what it is asked. -/
def Comparator.asked (compare : Comparator ρ σ) : Comparator ρ (List (ρ × ρ) × σ) :=
  fun a b x => ((compare a b x.2).1, (x.1 ++ [(a, b)], (compare a b x.2).2))

/-- The probe of a caller that keeps a log of what it is asked. -/
def Probe.asked (probe : Probe ρ σ) : Probe ρ (List ρ × σ) :=
  fun r x => ((probe r x.2).1, (x.1 ++ [r], (probe r x.2).2))

namespace Tree

variable [Linked ρ] {t : Tree} {s : Store ρ} {id : RecordId} {x x' : σ}

/-- A descent asks for the order of the new record and those on a way down, one after another. -/
theorem exists_asked_descendFrom {new : ρ} {compare : Comparator ρ σ} {steps : Nat}
    {position : Option RecordId} {here vacancy : Vacancy} (hnew : s.fetch id = .ok new)
    (h : descendFrom s id compare steps position here x = .ok (vacancy, x')) :
    ∃ records, s.Passes position records ∧
      ∀ log, descendFrom s id compare.asked steps position here (log, x) =
        .ok (vacancy, (log ++ records.map (new, ·), x')) := by
  -- What was asked before is in the log already, so the induction is for all logs.
  induction steps generalizing position here x with
  | zero =>
    cases position with
    | none =>
      cases h
      exact ⟨[], .nil s none, fun log => by rw [List.map_nil, List.append_nil]; rfl⟩
    | some below => cases h
  | succ steps ih =>
    cases position with
    | none =>
      cases h
      exact ⟨[], .nil s none, fun log => by rw [List.map_nil, List.append_nil]; rfl⟩
    | some below =>
      obtain ⟨-, old, -, hold⟩ := exists_fetch_of_descendFrom h
      obtain ⟨answer, x₁, hask⟩ : ∃ answer x₁, compare new old x = (answer, x₁) := ⟨_, _, rfl⟩
      rw [descendFrom_some steps here hnew hold hask] at h
      -- The answer tells the side, with a log and without one.
      obtain ⟨records, hpasses, hrun⟩ := ih h
      refine ⟨old :: records, hpasses.cons hold (turn answer), fun log => ?_⟩
      have hasked : compare.asked new old (log, x) = (answer, (log ++ [(new, old)], x₁)) := by
        simp only [Comparator.asked, hask]
      rw [descendFrom_some steps here hnew hold hasked, hrun, List.map_cons, ← List.append_cons]

/-- A descent that keeps a log of its questions has the record compared with those on a way down,
and ends where it does without a log. -/
theorem exists_asked_descend {new : ρ} {compare : Comparator ρ σ} {vacancy : Vacancy}
    (hnew : s.fetch id = .ok new) (h : (t.descend s id compare) x = .ok (vacancy, x')) :
    ∃ records, s.Passes t.root records ∧
      (t.descend s id compare.asked) ([], x) = .ok (vacancy, (records.map (new, ·), x')) := by
  obtain ⟨records, hpasses, hrun⟩ := exists_asked_descendFrom hnew h
  exact ⟨records, hpasses, hrun []⟩

/-- A search asks about the records on a way down, one after another. -/
theorem exists_asked_findFrom {probe : Probe ρ σ} {steps : Nat} {position found : Option RecordId}
    (h : findFrom s probe steps position x = .ok (found, x')) :
    ∃ records, s.Passes position records ∧
      ∀ log, findFrom s probe.asked steps position (log, x) =
        .ok (found, (log ++ records, x')) := by
  induction steps generalizing position x with
  | zero =>
    cases position with
    | none =>
      cases h
      exact ⟨[], .nil s none, fun log => by rw [List.append_nil]; rfl⟩
    | some below => cases h
  | succ steps ih =>
    cases position with
    | none =>
      cases h
      exact ⟨[], .nil s none, fun log => by rw [List.append_nil]; rfl⟩
    | some below =>
      obtain ⟨r, hr⟩ : ∃ r, s.fetch below = .ok r := by
        cases hr : s.fetch below with
        | ok r => exact ⟨r, rfl⟩
        | error fault =>
          simp [findFrom, Query.read, hr, bind, StateT.bind, Except.map, Except.bind] at h
      obtain ⟨answer, x₁, hask⟩ : ∃ answer x₁, probe r x = (answer, x₁) := ⟨_, _, rfl⟩
      have hasked (log : List ρ) : probe.asked r (log, x) = (answer, (log ++ [r], x₁)) := by
        simp only [Probe.asked, hask]
      rw [findFrom_some steps hr, hask] at h
      simp only [findFrom_some steps hr, hasked]
      -- The search goes on at a side, unless the answer is that this is the one.
      cases answer with
      | lt =>
        obtain ⟨records, hpasses, hrun⟩ := ih h
        refine ⟨r :: records, hpasses.cons hr .right, fun log => (hrun (log ++ [r])).trans ?_⟩
        rw [← List.append_cons]
      | gt =>
        obtain ⟨records, hpasses, hrun⟩ := ih h
        refine ⟨r :: records, hpasses.cons hr .left, fun log => (hrun (log ++ [r])).trans ?_⟩
        rw [← List.append_cons]
      | eq =>
        cases h
        exact ⟨[r], (Store.Passes.nil s _).cons hr .left, fun log => rfl⟩

/-- A search that keeps a log of its questions goes by the records on a way down, and ends where it
does without a log. -/
theorem exists_asked_find {probe : Probe ρ σ} {found : Option RecordId}
    (h : t.find s probe x = .ok (found, x')) :
    ∃ records, s.Passes t.root records ∧
      t.find s probe.asked ([], x) = .ok (found, (records, x')) := by
  obtain ⟨records, hpasses, hrun⟩ := exists_asked_findFrom h
  exact ⟨records, hpasses, hrun []⟩

end Tree

/-! ### Insertions -/

section Insertions

variable [Linked ρ] [Listener σ]
  {on : ∀ {σ : Type} [Listener σ], Augmentation ρ σ → Request ρ σ → Guarded ρ σ τ}
  {aug : Augmentation ρ σ} {s s' : Store ρ} {x x₁ x' : σ} {out : Except Rejection τ}

/-- A link asks nothing, so it leaves a log of questions alone. -/
theorem InStep.link_beside (h : InStep (ρ := ρ) on) {vacancy : Vacancy} {id : RecordId}
    (hrun : (on aug (.link vacancy id)).run s x = .ok ((out, s'), x')) (g : γ) :
    (on aug.beside (.link vacancy id)).run s (g, x) = .ok ((out, s'), (g, x')) := by
  have htracks : Guarded.Tracks (Alignment.noting (· = g)) (on aug (.link vacancy id))
      (on aug.beside (.link vacancy id)) fun _ => True :=
    h .noting hears_noting aug.tracks_beside .link
  obtain ⟨_, _, ⟨_, _⟩, hbeside, rfl, ⟨rfl, rfl, rfl⟩, -⟩ :=
    htracks s x s (g, x) ⟨rfl, rfl, rfl⟩ _ _ _ hrun
  exact hbeside

/-- An insertion is a descent and a link. -/
def InsertsBelow
    (on : ∀ {σ : Type} [Listener σ], Augmentation ρ σ → Request ρ σ → Guarded ρ σ τ)
    (t : Tree) : Prop :=
  ∀ {σ : Type} [Listener σ] (aug : Augmentation ρ σ) (id : RecordId) (compare : Comparator ρ σ),
    on aug (.insert id compare) = (do
      let vacancy ← Guarded.update (Update.query (t.descend · id compare))
      on aug (.link vacancy id))

/-- All that an insertion asks is asked on its descent, even if a guard turns it down afterwards. -/
theorem InStep.asked_insert (hon : InStep (ρ := ρ) on) {t : Tree} (hinserts : InsertsBelow @on t)
    {id : RecordId} {compare : Comparator ρ σ} {vacancy : Vacancy} {log : List (ρ × ρ)}
    (hdesc : (t.descend s id compare) x = .ok (vacancy, x₁))
    (hasked : (t.descend s id compare.asked) ([], x) = .ok (vacancy, (log, x₁)))
    (hrun : (on aug (.insert id compare)).run s x = .ok ((out, s'), x')) :
    (on aug.beside (.insert id compare.asked)).run s ([], x) = .ok ((out, s'), (log, x')) := by
  rw [hinserts, Guarded.run_update_bind] at hrun ⊢
  have hquery : Update.query (t.descend · id compare) s x = .ok ((vacancy, s), x₁) :=
    except_map_eq_ok.mpr ⟨_, hdesc, rfl⟩
  have hqueryAsked : Update.query (t.descend · id compare.asked) s ([], x) =
      .ok ((vacancy, s), (log, x₁)) :=
    except_map_eq_ok.mpr ⟨_, hasked, rfl⟩
  -- Both descents come to the same slot, and from there on nothing is asked.
  obtain ⟨_, hfirst, hlink⟩ := except_bind_eq_ok.mp hrun
  rw [hquery] at hfirst
  cases hfirst
  exact except_bind_eq_ok.mpr ⟨_, hqueryAsked, hon.link_beside hlink log⟩

end Insertions

/-! ### All searches -/

section Frugal

variable [Linked ρ] [Listener σ]

/-- What is asked through a handle of the tree `t`. The search for the slot of a record returns, and
has the record compared with `d` others at most, which it meets on its way down. Its insertion, with
any callbacks, has it compared with the same ones. A search for a key returns, and asks about `d`
records at most, which it meets on its way down. -/
structure Frugal (findSlot : ∀ {σ : Type}, RecordId → Comparator ρ σ → Query σ α)
    (on : ∀ {σ : Type} [Listener σ], Augmentation ρ σ → Request ρ σ → Guarded ρ σ τ)
    (find : ∀ {σ : Type}, Probe ρ σ → Query σ (Option RecordId)) (s : Store ρ) (t : Tree)
    (σ : Type) [Listener σ] (d : Nat) : Prop where
  compares : ∀ (id : RecordId) (new : ρ) (compare : Comparator ρ σ) (x : σ),
    s.fetch id = .ok new → ∃ records, t.Meets s d records ∧
      (∃ slot x', findSlot id compare x = .ok (slot, x') ∧
        findSlot id compare.asked ([], x) = .ok (slot, (records.map (new, ·), x'))) ∧
      (∃ out, (on .none (.insert id compare)).run s x = .ok out) ∧
      ∀ (aug : Augmentation ρ σ) (out : Except Rejection τ) (s' : Store ρ) (x' : σ),
        (on aug (.insert id compare)).run s x = .ok ((out, s'), x') →
        (on aug.beside (.insert id compare.asked)).run s ([], x) =
          .ok ((out, s'), (records.map (new, ·), x'))
  probes : ∀ (probe : Probe ρ σ) (x : σ), ∃ records found x', t.Meets s d records ∧
    find probe x = .ok (found, x') ∧ find probe.asked ([], x) = .ok (found, (records, x'))

variable {findSlot : ∀ {σ : Type}, RecordId → Comparator ρ σ → Query σ α}
  {on : ∀ {σ : Type} [Listener σ], Augmentation ρ σ → Request ρ σ → Guarded ρ σ τ}
  {find : ∀ {σ : Type}, Probe ρ σ → Query σ (Option RecordId)} {s : Store ρ} {t : Tree}
  {shape : Shape}

omit [Listener σ] in
/-- A query with its answer mapped leaves the context that it leaves. -/
theorem Query.map_eq_ok {q : Query σ β} {b : β} {x x' : σ} (f : β → α) (h : q x = .ok (b, x')) :
    (f <$> q) x = .ok (f b, x') := by
  show (q x >>= fun out => pure (f out.1, out.2)) = _
  rw [h]
  rfl

/-- The searches through a handle that keeps a tree are frugal, if they are what those of the tree
are. -/
theorem Tree.Keeps.frugal (h : t.Keeps s shape) (slot : Vacancy → α)
    (hfindSlot : ∀ {σ : Type} (id : RecordId) (compare : Comparator ρ σ),
      findSlot id compare = slot <$> t.descend s id compare)
    (hon : InStep (ρ := ρ) on) (hinserts : InsertsBelow @on t)
    (hreturns : ∀ (id : RecordId) (compare : Comparator ρ σ) (x : σ), id < s.size →
      ∃ out, (on .none (.insert id compare)).run s x = .ok out)
    (hfind : ∀ {σ : Type} (probe : Probe ρ σ), find probe = t.find s probe) :
    Frugal @findSlot @on @find s t σ shape.height := by
  constructor
  · intro id new compare x hnew
    have hid : id < s.size := (Store.fetch_eq_ok.mp hnew).1
    obtain ⟨C, x₁, -, hdesc, -⟩ := Tree.returns_descend compare x h.toHasShape hid
    -- The log spells the way down, and that is no longer than the tree is high.
    obtain ⟨records, hpasses, hasked⟩ := Tree.exists_asked_descend hnew hdesc
    refine ⟨records, h.meets hpasses, ⟨slot ⟨C.slot, C.before.isEmpty⟩, x₁, ?_, ?_⟩,
      hreturns id compare x hid, fun aug out s' x' hrun => ?_⟩
    · rw [hfindSlot]
      exact Query.map_eq_ok slot hdesc
    · rw [hfindSlot]
      exact Query.map_eq_ok slot hasked
    · exact hon.asked_insert hinserts hdesc hasked hrun
  · intro probe x
    obtain ⟨found, x', hrun, -⟩ := h.toHasShape.returns_find probe x
    obtain ⟨records, hpasses, hasked⟩ := Tree.exists_asked_find hrun
    rw [hfind, hfind]
    exact ⟨records, found, x', h.meets hpasses, hrun, hasked⟩

end Frugal

/-- In every reachable state the longest way down a tree has `d` nodes with `2 ^ d` no more than the
square of one more than its size, and searches through the handle of a tree or of a cached tree ask
about `d` linked records at most, each of them once. -/
theorem depth_bounds_questions [Linked ρ] [LawfulLinked ρ] [Listener σ] :
    (∀ {ι : Type} [DecidableEq ι] (f : Forest ι ρ σ) (i : ι), f.Reachable →
      ∃ d, (f.trees i).Low f.store d ∧
        Frugal ((f.trees i).findSlot f.store) (fun aug q => q.onTree aug (f.trees i))
          ((f.trees i).find f.store) f.store (f.trees i) σ d) ∧
    ∀ f : Cached ρ σ, f.Reachable →
      ∃ d, f.tree.tree.Low f.store d ∧
        Frugal (f.tree.findSlot f.store) (fun aug q => q.onCached aug f.tree)
          (f.tree.find f.store) f.store f.tree.tree σ d := by
  -- An insertion without callbacks returns, whatever comes of it.
  have hreturns {s : Store ρ} {t : Tree} {shape : Shape} (h : t.Keeps s shape) {id : RecordId}
      (compare : Comparator ρ σ) (x : σ) (hid : id < s.size) :
      (t.insert id compare).Returns s x (fun _ _ _ => True) fun _ _ _ => True := by
    obtain ⟨n, hn⟩ := Store.exists_node_of_lt hid
    exact (Tree.returns_insertWith (x := x)
      (Augmentation.turns_none fun _ _ => True) (Augmentation.grows_none (fun _ _ => True) id)
      compare h hn fun _ _ => trivial).mono (fun _ _ _ _ => trivial) fun _ _ _ _ => trivial
  constructor
  · intro ι _ f i hf
    obtain ⟨shapes, hshaped⟩ := hf.exists_shaped
    have hkeeps := hshaped.keeps i
    refine ⟨_, hkeeps.low, hkeeps.frugal Vacancy.slot (fun _ _ => rfl) (f.trees i).inStep
      (fun _ _ _ => rfl) (fun id compare x hid => ?_) fun _ => rfl⟩
    obtain ⟨out, s, x', hrun, -⟩ := hreturns hkeeps compare x hid
    exact ⟨_, hrun⟩
  · intro f hf
    obtain ⟨shape, hkeeps⟩ := hf.exists_keeps
    refine ⟨_, hkeeps.keeps.low, hkeeps.keeps.frugal id (fun _ _ => (id_map _).symm) f.tree.inStep
      (fun _ _ _ => rfl) (fun id compare x hid => ?_) fun _ => rfl⟩
    obtain ⟨out, s, x', hrun, -⟩ := Request.returns_onCached_of_tree hkeeps
      (q := .insert id compare) (hreturns hkeeps.keeps compare x hid)
    exact ⟨_, hrun⟩

namespace Cached

/-- The third record is compared with the second and with the first one. A search for the first one
comes to it from the second one. -/
theorem questions_sample :
    (∃ out log, (Request.onCached reachSummary.beside sample.tree
        (Request.insert 2 (Comparator.of compareStart).asked)).run sample.store ([], ()) =
          .ok (out, (log, ())) ∧
      log.map (fun pair => (pair.1.start, pair.2.start)) = [(0, 3), (0, 1)]) ∧
    ∃ d log, sample.tree.tree.Low sample.store d ∧ log.length ≤ d ∧
      sample.tree.find sample.store (Probe.of fun e => compare e.start 1).asked ([], ()) =
        .ok (some 0, (log, ())) ∧
      log.map Entry.start = [3, 1] := by
  obtain ⟨-, hcached⟩ := depth_bounds_questions (ρ := Entry Nat) (σ := Unit)
  obtain ⟨d, hlow, hfrugal⟩ := hcached sample reachable_sample
  constructor
  · obtain ⟨records, -, -, -, hinsert⟩ := hfrugal.compares 2 _ (.of compareStart) () rfl
    have hrun := hinsert reachSummary _ _ _ rfl
    -- The log is what the run says, so the records need not be computed.
    generalize records.map _ = log at hrun
    refine ⟨_, log, hrun, ?_⟩
    cases hrun
    rfl
  · obtain ⟨records, found, _, hmeets, -, hrun⟩ :=
      hfrugal.probes (.of fun e => compare e.start 1) ()
    refine ⟨d, records, hlow, hmeets.length_le, ?_, ?_⟩
    · cases hrun
      rfl
    · cases hrun
      rfl

end Cached

end RecordTree
