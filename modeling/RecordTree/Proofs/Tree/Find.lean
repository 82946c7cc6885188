import RecordTree.Proofs.Sorted

/-!
# `RecordTree.Proofs.Tree.Find`: a search finds what there is

A search goes left or right by what the probe answers on one node, so it is right only if the
answers on the others follow from that: on the nodes from left to right, first all that are less,
then those that are equal, then all that are greater (`Store.Rises`). Nodes of equal keys need
not be told apart for that.

* `Tree.HasShape.returns_find`: then a search finds a node on which the probe answers equal, if
  there is one. With other answers it returns as well.
* `Store.Sorted.rises_of_coarsens`: the nodes of a sorted tree answer so to a probe that looks for
  no more than its order tells apart, such as one for a place in it (`Store.Sorted.rises`).
-/

set_option autoImplicit false

namespace RecordTree

open Std

variable {ρ σ : Type}

/-- The probe answers by `answer`, whatever the caller's context is. -/
def Probe.Answers (probe : Probe ρ σ) (answer : ρ → Ordering) : Prop :=
  ∀ r x, (probe r x).1 = answer r

/-- A probe that computes an answer gives it. -/
theorem Probe.answers_of (answer : ρ → Ordering) : (Probe.of answer : Probe ρ σ).Answers answer :=
  fun _ _ => rfl

/-- Where the order ascends, the answers do not descend. The order may tell more records apart. -/
def Coarsens (order : ρ → ρ → Ordering) (answer : ρ → Ordering) : Prop :=
  ∀ a b, (order a b).isLE → (answer b = .lt → answer a = .lt) ∧ (answer a = .gt → answer b = .gt)

/-- So it is with the answers that tell where a record is in the order, next to another one. -/
theorem coarsens_key {order : ρ → ρ → Ordering} [TransCmp order] (key : ρ) :
    Coarsens order (order · key) := by
  intro a b hle
  constructor
  · intro hlt
    exact TransCmp.lt_of_isLE_of_lt hle hlt
  · intro hgt
    exact TransCmp.gt_of_isGE_of_gt (OrientedCmp.isGE_iff_isLE.mpr hle) hgt

namespace Store

variable {s : Store ρ} {answer : ρ → Ordering} {l : List RecordId}

/-- Along `l` the answers do not descend. -/
def Rises (s : Store ρ) (answer : ρ → Ordering) (l : List RecordId) : Prop :=
  l.Pairwise fun a b => ∀ x y, s.fetch a = .ok x → s.fetch b = .ok y →
    (answer y = .lt → answer x = .lt) ∧ (answer x = .gt → answer y = .gt)

/-- A search among `l` comes to this end: at a record that answers equal, or at none if there is no
such record. -/
def Finds (s : Store ρ) (answer : ρ → Ordering) (l : List RecordId) : Option RecordId → Prop
  | some id => id ∈ l ∧ ∃ r, s.fetch id = .ok r ∧ answer r = .eq
  | none => ∀ id ∈ l, ∀ r, s.fetch id = .ok r → answer r ≠ .eq

/-- A search among some records is one among more, if none of the others answers equal. -/
theorem Finds.mono {m : List RecordId} {found : Option RecordId} (h : s.Finds answer l found)
    (hsub : ∀ id ∈ l, id ∈ m)
    (hrest : ∀ id ∈ m, id ∉ l → ∀ r, s.fetch id = .ok r → answer r ≠ .eq) :
    s.Finds answer m found := by
  cases found with
  | some id => exact ⟨hsub id h.1, h.2⟩
  | none =>
    intro id hid
    by_cases hin : id ∈ l
    · exact h id hin
    · exact hrest id hid hin

variable {below above : List RecordId} {id : RecordId} {r : ρ} {found : Option RecordId}

/-- The answers are less on all records before one on which it is. So what there is to be found is
behind that one. -/
theorem Finds.of_above (hrises : s.Rises answer (below ++ id :: above)) (hr : s.fetch id = .ok r)
    (hlt : answer r = .lt) (h : s.Finds answer above found) :
    s.Finds answer (below ++ id :: above) found := by
  have hcross := (List.pairwise_append.mp hrises).2.2
  refine h.mono ?_ ?_
  · intro j hj
    exact List.mem_append_right below (List.mem_cons_of_mem id hj)
  · intro j hj hout record hrecord
    have hless : answer record = .lt := by
      rcases List.mem_append.mp hj with hj | hj
      · exact (hcross j hj id List.mem_cons_self record r hrecord hr).1 hlt
      · obtain rfl := (List.mem_cons.mp hj).resolve_right hout
        rwa [Except.ok.inj (hrecord.symm.trans hr)]
    rw [hless]
    decide

/-- Likewise, they are greater on all records behind one on which it is. -/
theorem Finds.of_below (hrises : s.Rises answer (below ++ id :: above)) (hr : s.fetch id = .ok r)
    (hgt : answer r = .gt) (h : s.Finds answer below found) :
    s.Finds answer (below ++ id :: above) found := by
  have hafter := (List.pairwise_cons.mp (List.pairwise_append.mp hrises).2.1).1
  refine h.mono ?_ ?_
  · intro j hj
    exact List.mem_append_left _ hj
  · intro j hj hout record hrecord
    have hgreater : answer record = .gt := by
      rcases List.mem_cons.mp ((List.mem_append.mp hj).resolve_left hout) with rfl | hj
      · rwa [Except.ok.inj (hrecord.symm.trans hr)]
      · exact (hafter j hj r record hr hrecord).2 hgt
    rw [hgreater]
    decide

/-- Along records in order, the answers rise that the order is finer than. -/
theorem Sorted.rises_of_coarsens {order : ρ → ρ → Ordering} (h : s.Sorted order l)
    (hanswer : Coarsens order answer) : s.Rises answer l := by
  refine h.imp fun {a b} hab x y hx hy => ?_
  obtain ⟨x', y', hx', hy', hle⟩ := hab
  rw [hx] at hx'
  rw [hy] at hy'
  cases hx'
  cases hy'
  exact hanswer x y hle

/-- Records in order answer in order to the probe for a place in it. -/
theorem Sorted.rises {order : ρ → ρ → Ordering} [TransCmp order] (h : s.Sorted order l) (key : ρ) :
    s.Rises (order · key) l :=
  h.rises_of_coarsens (coarsens_key key)

/-- A search that finds what there is, finds something if there is a record that answers equal. -/
theorem Finds.exists_eq (h : s.Finds answer l found) (hid : id ∈ l) (hr : s.fetch id = .ok r)
    (heq : answer r = .eq) :
    ∃ other r', found = some other ∧ other ∈ l ∧ s.fetch other = .ok r' ∧ answer r' = .eq := by
  cases found with
  | none => exact absurd heq (h id hid r hr)
  | some other =>
    obtain ⟨hother, r', hr', heq'⟩ := h
    exact ⟨other, r', rfl, hother, hr', heq'⟩

end Store

namespace Tree

variable [Linked ρ] {s : Store ρ} {probe : Probe ρ σ}

/-- The step of a search. -/
theorem findFrom_some {below : RecordId} {r : ρ} {x : σ} (steps : Nat)
    (hr : s.fetch below = .ok r) :
    findFrom s probe (steps + 1) (some below) x =
      match probe r x with
      | (.lt, x) => findFrom s probe steps (Linked.node r).right x
      | (.gt, x) => findFrom s probe steps (Linked.node r).left x
      | (.eq, x) => .ok (some below, x) := by
  simp only [findFrom, Query.read, Query.ask, hr, bind, StateT.bind, Except.map, Except.bind]
  cases probe r x with
  | mk answer x => cases answer <;> rfl

/-- A search in a subtree returns, with what there is to be found if the answers rise on its nodes.
-/
theorem returns_findFrom (probe : Probe ρ σ) {t : Shape} {parent : Option RecordId} {steps : Nat}
    (hspells : Spells s parent t) (hsteps : t.size ≤ steps) (x : σ) :
    ∃ found x', findFrom s probe steps t.root? x = .ok (found, x') ∧
      ∀ answer, probe.Answers answer → s.Rises answer t.inorder →
        s.Finds answer t.inorder found := by
  induction t generalizing parent steps x with
  | leaf =>
    refine ⟨none, x, ?_, fun _ _ _ _ hid => absurd hid List.not_mem_nil⟩
    cases steps <;> rfl
  | node c l id r ihl ihr =>
    simp only [Shape.size] at hsteps
    obtain ⟨steps, rfl⟩ : ∃ k, steps = k + 1 := Nat.exists_eq_add_one.mpr (by omega)
    obtain ⟨hn, hsl, hsr⟩ := spells_node.mp hspells
    obtain ⟨record, hfetch, hnode⟩ := except_functor_map_eq_ok.mp hn
    obtain ⟨top, x₁, hask⟩ : ∃ top x₁, probe record x = (top, x₁) := ⟨_, _, rfl⟩
    have hanswer {answer : ρ → Ordering} (hprobe : probe.Answers answer) : answer record = top := by
      rw [← hprobe record x, hask]
    rw [Shape.root?_node, findFrom_some steps hfetch, hask]
    -- The search goes on where the answer at the top says that there may be something.
    cases top with
    | lt =>
      have hright : (Linked.node record).right = r.root? := by
        simp [hnode, Node.placed, Node.setChild, Side.flip]
      obtain ⟨found, x', hrun, hfinds⟩ := ihr hsr (show r.size ≤ steps by omega) x₁
      rw [hright]
      refine ⟨found, x', hrun, fun answer hprobe hrises => ?_⟩
      have hrisesr := (List.pairwise_cons.mp (List.pairwise_append.mp hrises).2.1).2
      exact (hfinds answer hprobe hrisesr).of_above hrises hfetch (hanswer hprobe)
    | gt =>
      have hleft : (Linked.node record).left = l.root? := by
        simp [hnode, Node.placed, Node.setChild]
      obtain ⟨found, x', hrun, hfinds⟩ := ihl hsl (show l.size ≤ steps by omega) x₁
      rw [hleft]
      refine ⟨found, x', hrun, fun answer hprobe hrises => ?_⟩
      have hrisesl := (List.pairwise_append.mp hrises).1
      exact (hfinds answer hprobe hrisesl).of_below hrises hfetch (hanswer hprobe)
    | eq =>
      have hid : id ∈ l.inorder ++ id :: r.inorder := List.mem_append_right _ List.mem_cons_self
      exact ⟨some id, x₁, rfl, fun answer hprobe _ => ⟨hid, record, hfetch, hanswer hprobe⟩⟩

/-- A search returns. On a tree along which the answers rise, it finds what there is. -/
theorem HasShape.returns_find {t : Tree} {shape : Shape} (h : t.HasShape s shape)
    (probe : Probe ρ σ) (x : σ) :
    ∃ found x', t.find s probe x = .ok (found, x') ∧
      ∀ answer, probe.Answers answer → s.Rises answer shape.inorder →
        s.Finds answer shape.inorder found := by
  rw [find, h.root_eq]
  exact returns_findFrom probe h.spells (Store.lt_walkLimit h.size_le).le x

end Tree

end RecordTree
