import Mathlib.Data.Finset.Max
import RecordTree.Interval.Reach
import RecordTree.Proofs.Interval.Entry

/-!
# `RecordTree.Proofs.Interval.Reach`: why few reaches have to be recomputed

`Exact` says that in a subtree each node's reach is the largest stop below it. Around a position
the same depends on how far the subtree in the position reaches, and on nothing else of it
(`Context.Upholds`). So if a node has the reach it had before, all is right above it: that is
why the climb may end there (`returns_raiseReachFrom`), and why a node that takes over another's
reach along with its place leaves the rest right.

* `reachSummary_turns`, `reachSummary_grows`, `reachSummary_shrinks`: `reachSummary` keeps all
  reaches exact through rotations, linking and taking out, as the contracts of
  `Augmentation.Turns`, `Augmentation.Grows` and `Augmentation.Shrinks` say.
-/

set_option autoImplicit false

namespace RecordTree

variable {ρ σ κ : Type} [Spanned ρ κ] [LinearOrder κ]

/-! ### The largest stop -/

/-- The largest stop in the subtree, bottom if it is empty. -/
def Shape.farthest (stop : RecordId → WithBot κ) : Shape → WithBot κ
  | leaf => ⊥
  | node _ l id r => stop id ⊔ l.farthest stop ⊔ r.farthest stop

namespace Shape

variable {stop : RecordId → WithBot κ} {t u : Shape}

/-- Nothing stops in an empty subtree. -/
@[simp] theorem farthest_leaf : leaf.farthest stop = ⊥ := rfl

/-- The largest stop is the largest of that at the top and those on both sides. -/
@[simp] theorem farthest_join (side : Side) (c : Color) (a b : Shape) (id : RecordId) :
    (join side c a id b).farthest stop = stop id ⊔ a.farthest stop ⊔ b.farthest stop := by
  cases side with
  | left => rfl
  | right => exact sup_right_comm (stop id) (b.farthest stop) (a.farthest stop)

/-- The largest stop does not depend on colours. -/
@[simp] theorem farthest_plain (t : Shape) : t.plain.farthest stop = t.farthest stop := by
  induction t with
  | leaf => rfl
  | node c l id r ihl ihr => simp [plain, farthest, ihl, ihr]

/-- The largest stop is above all others. -/
theorem farthest_le {x : WithBot κ} : t.farthest stop ≤ x ↔ ∀ j ∈ t.inorder, stop j ≤ x := by
  induction t with
  | leaf => simp [inorder]
  | node c l id r ihl ihr =>
    simp only [farthest, sup_le_iff, ihl, ihr, inorder, List.mem_append, List.mem_cons]
    constructor
    · rintro ⟨⟨hid, hl⟩, hr⟩ j (hj | rfl | hj)
      · exact hl j hj
      · exact hid
      · exact hr j hj
    · intro h
      exact ⟨⟨h id (.inr (.inl rfl)), fun j hj => h j (.inl hj)⟩,
        fun j hj => h j (.inr (.inr hj))⟩

/-- Something is below the largest stop exactly if it is below one of the stops. -/
theorem lt_farthest {x : WithBot κ} : x < t.farthest stop ↔ ∃ j ∈ t.inorder, x < stop j := by
  rw [← not_le, farthest_le]
  push Not
  rfl

/-- The largest stop is one of the stops. -/
theorem exists_stop_eq (stop : RecordId → WithBot κ) (h : t ≠ leaf) :
    ∃ j ∈ t.inorder, stop j = t.farthest stop := by
  have hne : t.inorder.toFinset.Nonempty := by
    obtain ⟨l, id, r, hjoin⟩ := exists_join_of_ne h .left
    exact ⟨id, by rw [List.mem_toFinset, hjoin]; simp⟩
  obtain ⟨j, hj, hmax⟩ := t.inorder.toFinset.exists_max_image stop hne
  simp only [List.mem_toFinset] at hj hmax
  exact ⟨j, hj, le_antisymm (farthest_le.mp le_rfl j hj) (farthest_le.mpr hmax)⟩

end Shape

/-! ### Exact reaches -/

/-- Each node of the subtree has the largest stop below it as its reach. -/
def Exact (p : Payloads ρ) : Shape → Prop
  | .leaf => True
  | .node c l id r => p.reachAt id = (Shape.node c l id r).farthest p.stopAt ∧ Exact p l ∧ Exact p r

/-- The reaches around the position are right if the subtree in it has `inner` as its largest
stop. -/
def Context.Upholds (p : Payloads ρ) : Context → WithBot κ → Prop
  | top, _ => True
  | under _ _ id sibling above, inner =>
    p.reachAt id = p.stopAt id ⊔ inner ⊔ sibling.farthest p.stopAt ∧ Exact p sibling ∧
      above.Upholds p (p.reachAt id)

section Exact

variable {p q : Payloads ρ} {t : Shape} {C : Context} {side : Side} {c : Color} {a b : Shape}
  {id : RecordId} {inner : WithBot κ}

/-- In an empty subtree there is no reach to be wrong. -/
@[simp] theorem exact_leaf : Exact p .leaf := trivial

/-- The reaches in a subtree are exact if the one at the top is the largest stop and the others are
exact. -/
theorem exact_join : Exact p (.join side c a id b) ↔
    p.reachAt id = p.stopAt id ⊔ a.farthest p.stopAt ⊔ b.farthest p.stopAt ∧
      Exact p a ∧ Exact p b := by
  rw [← Shape.farthest_join side c]
  cases side with
  | left => rfl
  | right => exact and_congr_right fun _ => and_comm

/-- The root of an exact subtree has its largest stop as its reach. -/
theorem Exact.reachAt_eq (h : Exact p t) (hid : t.root? = some id) :
    p.reachAt id = t.farthest p.stopAt := by
  cases t with
  | leaf => cases hid
  | node c l top r =>
    cases hid
    exact h.1

/-- All is right in a tree if it is so in the position and around it. -/
theorem exact_fill : Exact p (C.fill t) ↔ Exact p t ∧ C.Upholds p (t.farthest p.stopAt) := by
  -- The largest stop of the position is all that the nodes around it see of it.
  induction C generalizing t with
  | top => simp [Context.fill, Context.Upholds]
  | under side c id sibling above ih =>
    rw [Context.fill, ih, exact_join, Shape.farthest_join, Context.Upholds]
    constructor
    · rintro ⟨⟨hid, ht, hsib⟩, habove⟩
      exact ⟨ht, hid, hsib, hid ▸ habove⟩
    · rintro ⟨ht, hid, hsib, habove⟩
      exact ⟨⟨hid, ht, hsib⟩, hid ▸ habove⟩

/-- Whether reaches are exact does not depend on colours. -/
theorem exact_plain : Exact p t.plain ↔ Exact p t := by
  induction t with
  | leaf => rfl
  | node c l id r ihl ihr => simp [Shape.plain, Exact, Shape.farthest, ihl, ihr]

/-- The largest stop depends on the stops of the nodes only. -/
theorem Shape.farthest_congr {f g : RecordId → WithBot κ} (h : ∀ j ∈ t.inorder, f j = g j) :
    t.farthest f = t.farthest g := by
  induction t with
  | leaf => rfl
  | node c l id r ihl ihr =>
    simp only [inorder, List.mem_append, List.mem_cons] at h
    rw [farthest, farthest, h id (.inr (.inl rfl)), ihl fun j hj => h j (.inl hj),
      ihr fun j hj => h j (.inr (.inr hj))]

/-- Exactness is about the stops and reaches in the subtree. -/
theorem Exact.agree (h : Exact p t) (hstop : ∀ j ∈ t.inorder, q.stopAt j = p.stopAt j)
    (hreach : ∀ j ∈ t.inorder, q.reachAt j = p.reachAt j) : Exact q t := by
  induction t with
  | leaf => exact exact_leaf
  | node c l id r ihl ihr =>
    obtain ⟨hid, hl, hr⟩ := h
    have hall := Shape.farthest_congr hstop
    simp only [Shape.inorder, List.mem_append, List.mem_cons] at hstop hreach
    refine ⟨?_, ihl hl (fun j hj => hstop j (.inl hj)) fun j hj => hreach j (.inl hj),
      ihr hr (fun j hj => hstop j (.inr (.inr hj))) fun j hj => hreach j (.inr (.inr hj))⟩
    rw [hreach id (.inr (.inl rfl)), hid, hall]

/-- Reaches stay exact while no stop changes and no reach in the subtree does. -/
theorem Exact.congr (h : Exact p t) (hstop : q.stopAt = p.stopAt)
    (hreach : ∀ j ∈ t.inorder, q.reachAt j = p.reachAt j) : Exact q t :=
  h.agree (fun j _ => congrFun hstop j) hreach

/-- The reaches around a position stay right while no stop changes and no reach around it does. -/
theorem Context.Upholds.congr (h : C.Upholds p inner) (hstop : q.stopAt = p.stopAt)
    (hreach : ∀ j ∈ C.ids, q.reachAt j = p.reachAt j) : C.Upholds q inner := by
  induction C generalizing inner with
  | top => trivial
  | under side c id sibling above ih =>
    obtain ⟨hid, hsib, habove⟩ := h
    simp only [mem_ids_under] at hreach
    have htop : q.reachAt id = p.reachAt id := hreach id (.inl rfl)
    refine ⟨?_, hsib.congr hstop fun j hj => hreach j (.inr (.inl hj)), ?_⟩
    · rw [htop, hid, hstop]
    · rw [htop]
      exact ih habove fun j hj => hreach j (.inr (.inr hj))

end Exact

/-! ### Recomputing reaches -/

/-- The larger key is the maximum. -/
theorem larger_eq_max (a b : κ) : larger a b = max a b :=
  (max_def_lt a b).symm

variable [LawfulSpanned ρ]

section Raise

variable {s : Store ρ} {x : σ} {up stop : Option RecordId} {C : Context} {side : Side} {c : Color}
  {a b t : Shape} {id : RecordId}

/-- The largest of a key and the stops of an exact subtree. -/
theorem Store.reachWith_eq (hspells : Spells s up t) (ht : Exact s.payload t) (reach : κ) :
    ∃ y, s.reachWith reach t.root? = .ok y ∧
      (y : WithBot κ) = (reach : WithBot κ) ⊔ t.farthest (Payloads.stopAt s.payload) := by
  cases hroot : t.root? with
  | none =>
    obtain rfl := Shape.eq_leaf_of_root? hroot
    exact ⟨reach, rfl, (sup_bot_eq _).symm⟩
  | some j =>
    obtain ⟨n, hn, -⟩ := hspells.exists_linked (Shape.mem_of_root? hroot)
    obtain ⟨e, he, -⟩ := Store.exists_entry hn
    obtain ⟨-, -, hreach⟩ := Store.payload_of_entry he
    refine ⟨larger reach e.reach, ?_, ?_⟩
    · simp only [reachWith, he]
      rfl
    · rw [larger_eq_max, WithBot.coe_max, ← hreach, ht.reachAt_eq hroot]

/-- What is computed for a node with exact subtrees is the largest stop below it. -/
theorem Store.reachOf_eq (hspells : Spells s up (.join side c a id b)) (ha : Exact s.payload a)
    (hb : Exact s.payload b) : ∃ y, s.reachOf id = .ok y ∧
      (y : WithBot κ) = Payloads.stopAt s.payload id ⊔ a.farthest (Payloads.stopAt s.payload) ⊔
        b.farthest (Payloads.stopAt s.payload) := by
  obtain ⟨hn, hsa, hsb⟩ := spells_join.mp hspells
  obtain ⟨e, he, hnode⟩ := Store.exists_entry hn
  obtain ⟨-, hstop, -⟩ := Store.payload_of_entry he
  cases side with
  | left =>
    obtain ⟨y, hy, hmax⟩ := Store.reachWith_eq hsa ha e.stop
    obtain ⟨z, hz, hmax'⟩ := Store.reachWith_eq hsb hb y
    refine ⟨z, ?_, by rw [hmax', hmax, hstop]⟩
    simp only [reachOf, he, hnode, bind, Except.bind, Node.placed, Node.setChild, Side.flip, hy, hz]
  | right =>
    obtain ⟨y, hy, hmax⟩ := Store.reachWith_eq hsb hb e.stop
    obtain ⟨z, hz, hmax'⟩ := Store.reachWith_eq hsa ha y
    refine ⟨z, ?_, by rw [hmax', hmax, hstop, sup_right_comm]⟩
    simp only [reachOf, he, hnode, bind, Except.bind, Node.placed, Node.setChild, Side.flip, hy, hz]

/-- A node whose reach was set to the largest stop below it is exact. -/
theorem Exact.setReach {p : Payloads ρ} {y : κ} (ha : Exact p a) (hb : Exact p b)
    (hna : id ∉ a.inorder) (hnb : id ∉ b.inorder) (hid : ∃ r, p id = .ok r)
    (hy : (y : WithBot κ) = p.stopAt id ⊔ a.farthest p.stopAt ⊔ b.farthest p.stopAt) :
    Exact (p.setReach id y) (.join side c a id b) := by
  obtain ⟨r, hr⟩ := hid
  have hother : ∀ {u : Shape}, id ∉ u.inorder → Exact p u → Exact (p.setReach id y) u :=
    fun hu h => h.congr Payloads.stopAt_setReach fun j hj =>
      Payloads.reachAt_setReach_of_ne (ne_of_mem_of_not_mem hj hu)
  refine exact_join.mpr ⟨?_, hother hna ha, hother hnb hb⟩
  rw [Payloads.reachAt_setReach_self hr, Payloads.stopAt_setReach, hy]

/-- What a climb left: the reaches in the tree are exact, and only they may have changed. -/
structure Raised (s s' : Store ρ) (t : Shape) : Prop where
  node_eq : s'.node = s.node
  exact : Exact s'.payload t
  resummed : Payloads.Resummed s.payload s'.payload t.inorder

variable {steps : Nat}

omit [LawfulSpanned ρ] in
/-- A climb ends above the top, and at the node where it is to stop. -/
theorem raiseReachFrom_end (hup : up = none ∨ up = stop) :
    raiseReachFrom stop (steps + 1) up = (pure () : Update ρ σ Unit) := by
  cases up with
  | none => rfl
  | some j =>
    have hstop : some j = stop := hup.resolve_left (Option.some_ne_none j)
    rw [raiseReachFrom, if_pos hstop]

/-- One step of a climb: it ends if the reach was right, and else sets it and goes on. -/
theorem returns_raise_step {Q : Unit → Store ρ → σ → Prop} (hid : some id ≠ stop)
    (hspells : Spells s up (.join side c a id b)) (ha : Exact s.payload a)
    (hb : Exact s.payload b)
    (hdone : Payloads.reachAt s.payload id =
      (Shape.join side c a id b).farthest (Payloads.stopAt s.payload) → Q () s x)
    (hgo : ∀ y : κ, (y : WithBot κ) =
      (Shape.join side c a id b).farthest (Payloads.stopAt s.payload) →
      (raiseReachFrom stop steps up).Returns (s.setReach id y) x Q) :
    (raiseReachFrom stop (steps + 1) (some id)).Returns s x Q := by
  obtain ⟨hn, -, -⟩ := spells_join.mp hspells
  obtain ⟨e, he, hnode⟩ := Store.exists_entry hn
  obtain ⟨-, -, hreach⟩ := Store.payload_of_entry he
  obtain ⟨y, hy, hmax⟩ := Store.reachOf_eq hspells ha hb
  rw [← Shape.farthest_join side c] at hmax
  rw [raiseReachFrom, if_neg hid]
  simp only [Update.returns_bind, Update.returns_read, Update.returns_entry]
  refine ⟨y, hy, e, he, ?_⟩
  -- A reach that is right already ends the climb, and any other one is set on the way up.
  by_cases heq : e.reach = y
  · rw [if_pos heq, Update.returns_pure]
    exact hdone (by rw [hreach, heq, hmax])
  · rw [if_neg heq, Update.returns_bind, Update.returns_setReach]
    refine ⟨Store.lt_of_node hn, ?_⟩
    rw [hnode, Node.parent_placed]
    exact hgo y hmax

/-- Climbing from a node with exact subtrees makes all reaches exact, if those above agree with
the one that the node has. -/
theorem returns_raiseReachFrom (stop : Option RecordId)
    (hspells : Spells s up (C.fill (.join side c a id b)))
    (hnodup : (C.fill (.join side c a id b)).inorder.Nodup) (hup : up = none ∨ up = stop)
    (hstop : ∀ j ∈ (C.fill (.join side c a id b)).inorder, some j ≠ stop)
    (ha : Exact s.payload a) (hb : Exact s.payload b)
    (hC : C.Upholds s.payload (Payloads.reachAt s.payload id)) (hsteps : C.depth + 2 ≤ steps) :
    (raiseReachFrom stop steps (some id)).Returns s x fun _ s' x' =>
      Raised s s' (C.fill (.join side c a id b)) ∧ x' = x := by
  -- The invariant: below `id` all is right, and above it all would be if `id` kept its reach.
  induction C generalizing s steps side c a b id with
  | top =>
    obtain ⟨steps, rfl⟩ : ∃ k, steps = k + 2 := Nat.exists_eq_add_of_le' hsteps
    obtain ⟨hna, hnb, -, -, -⟩ := Shape.nodup_join.mp hnodup
    have hn := (spells_join.mp hspells).1
    obtain ⟨e, he, -⟩ := Store.exists_entry hn
    refine returns_raise_step (hstop id (by simp [Context.fill])) hspells ha hb ?_ ?_
    · intro hreach
      rw [Shape.farthest_join] at hreach
      exact ⟨⟨rfl, exact_join.mpr ⟨hreach, ha, hb⟩, .refl _ _⟩, rfl⟩
    · intro y hy
      rw [raiseReachFrom_end hup, Update.returns_pure]
      rw [Shape.farthest_join] at hy
      refine ⟨⟨Store.node_setReach s id y, ?_, ?_⟩, rfl⟩
      · rw [Store.payload_setReach]
        exact ha.setReach hb hna hnb (Store.payload_of_entry he).1 hy
      · rw [Store.payload_setReach]
        exact Payloads.resummed_setReach (by simp [Context.fill])
  | under side' c' p sib above ih =>
    obtain ⟨steps, rfl⟩ : ∃ k, steps = k + 1 := Nat.exists_eq_add_of_le' (by omega)
    obtain ⟨hp, hsib, habove⟩ := hC
    have hpart := hspells.of_fill
    have hn := (spells_join.mp hpart).1
    obtain ⟨e, he, -⟩ := Store.exists_entry hn
    obtain ⟨hjoin, hids, hdisj⟩ := Context.nodup_fill.mp hnodup
    obtain ⟨hna, hnb, -, -, -⟩ := Shape.nodup_join.mp hjoin
    have hout : id ∉ (Context.under side' c' p sib above).ids := fun hin => hdisj (by simp) hin
    refine returns_raise_step (hstop id (by simp)) hpart ha hb ?_ ?_
    · -- The reach stays, and with it what the reaches above agree with.
      intro hreach
      have hjoin : Exact s.payload (.join side c a id b) := by
        rw [Shape.farthest_join] at hreach
        exact exact_join.mpr ⟨hreach, ha, hb⟩
      exact ⟨⟨rfl, exact_fill.mpr ⟨hjoin, hreach ▸ ⟨hp, hsib, habove⟩⟩, .refl _ _⟩, rfl⟩
    · intro y hy
      rw [Shape.farthest_join] at hy
      rw [Context.mem_ids_under, not_or, not_or] at hout
      have hsame : ∀ j, j ≠ id → Payloads.reachAt (s.setReach id y).payload j =
          Payloads.reachAt s.payload j := fun j hj => by
        rw [Store.payload_setReach, Payloads.reachAt_setReach_of_ne hj]
      have hstopAt : Payloads.stopAt (s.setReach id y).payload = Payloads.stopAt s.payload := by
        rw [Store.payload_setReach, Payloads.stopAt_setReach]
      have hjoin' : Exact (s.setReach id y).payload (.join side c a id b) := by
        rw [Store.payload_setReach]
        exact ha.setReach hb hna hnb (Store.payload_of_entry he).1 hy
      have hsib' : Exact (s.setReach id y).payload sib := hsib.congr hstopAt fun j hj =>
        hsame j (ne_of_mem_of_not_mem hj hout.2.1)
      have habove' : above.Upholds (s.setReach id y).payload
          (Payloads.reachAt (s.setReach id y).payload p) := by
        rw [hsame p (Ne.symm hout.1)]
        exact habove.congr hstopAt fun j hj => hsame j (ne_of_mem_of_not_mem hj hout.2.2)
      have hspells' : Spells (s.setReach id y) up
          (above.fill (.join side' c' (.join side c a id b) p sib)) :=
        hspells.congr fun j _ => congrFun (Store.node_setReach s id y) j
      refine (ih hspells' hnodup hstop hjoin' hsib' habove' ?_).mono ?_
      · simp only [Context.depth] at hsteps
        omega
      · intro _ s' x' h
        obtain ⟨⟨hnode, hexact, hres⟩, hx⟩ := h
        refine ⟨⟨hnode.trans (Store.node_setReach s id y), hexact, ?_⟩, hx⟩
        exact (s.resummed_setReach y (by simp)).trans hres

/-- Climbing from the parent of an exact subtree makes all reaches exact, if those around it
agree with some reach that it may have had. -/
theorem returns_raise_parent (stop : Option RecordId) {inner : WithBot κ}
    (hspells : Spells s up (C.fill t)) (hnodup : (C.fill t).inorder.Nodup)
    (hup : up = none ∨ up = stop) (hstop : ∀ j ∈ (C.fill t).inorder, some j ≠ stop)
    (ht : Exact s.payload t) (hC : C.Upholds s.payload inner) (hsteps : C.depth + 1 ≤ steps) :
    (raiseReachFrom stop steps (C.parent.or up)).Returns s x fun _ s' x' =>
      Raised s s' (C.fill t) ∧ x' = x := by
  -- At the top there is no parent to start from, and nothing around the subtree to be wrong.
  cases C with
  | top =>
    obtain ⟨steps, rfl⟩ : ∃ k, steps = k + 1 := Nat.exists_eq_add_of_le' hsteps
    show (raiseReachFrom stop (steps + 1) up).Returns s x _
    rw [raiseReachFrom_end hup, Update.returns_pure]
    exact ⟨⟨rfl, ht, .refl _ _⟩, rfl⟩
  | under side c p sib above =>
    obtain ⟨-, hsib, habove⟩ := hC
    exact returns_raiseReachFrom stop hspells hnodup hup hstop ht hsib habove hsteps

end Raise

/-! ### The contracts -/

section Contracts

variable {s : Store ρ} {x : σ} {id : RecordId}

omit [LawfulSpanned ρ] in
/-- A recomputation is a climb that raises reaches. -/
@[simp] theorem returns_propagate {node stop : Option RecordId} {Q : Unit → Store ρ → σ → Prop} :
    ((reachSummary : Augmentation ρ σ).propagate node stop).Returns s x Q ↔
      (raiseReachFrom stop s.repairLimit node).Returns s x Q := by
  simp only [reachSummary, Update.returns_bind, Update.returns_read]
  constructor
  · rintro ⟨_, ⟨⟩, h⟩
    exact h
  · exact fun h => ⟨_, rfl, h⟩

omit [LinearOrder κ] [LawfulSpanned ρ] in
/-- Copying a reach returns if both records are there. -/
@[simp] theorem returns_copyReach {old new : RecordId} {Q : Unit → Store ρ → σ → Prop} :
    (copyReach old new).Returns s x Q ↔
      ∃ e, s.entry old = .ok e ∧ new < s.size ∧ Q () (s.setReach new e.reach) x := by
  simp [copyReach, Store.setReach]

/-- The reaches in the tree are exact, and since `p₀` only reaches of `ids` have changed, which
include the tree's. -/
structure Summed (p₀ : Payloads ρ) (ids : List RecordId) (p : Payloads ρ) (shape : Shape) :
    Prop where
  exact : Exact p shape
  resummed : p₀.Resummed p ids
  mem : ∀ j ∈ shape.inorder, j ∈ ids

variable {p₀ : Payloads ρ} {ids : List RecordId}

/-- Dropping the colours leaves the nodes in their order. -/
theorem Shape.inorder_plain (t : Shape) : t.plain.inorder = t.inorder := by
  induction t with
  | leaf => rfl
  | node c l id r ihl ihr => simp [plain, inorder, ihl, ihr]

omit [LawfulSpanned ρ] in
/-- What a climb left are exact reaches, of which only those that may have changed did. -/
theorem Summed.of_raised {s' : Store ρ} {shape : Shape} (h : p₀.Resummed s.payload ids)
    (hmem : ∀ j ∈ shape.inorder, j ∈ ids) (hraised : Raised s s' shape) :
    Summed p₀ ids s'.payload shape :=
  ⟨hraised.exact, h.trans (hraised.resummed.mono hmem), hmem⟩

omit [LawfulSpanned ρ] in
/-- A rotation leaves the reaches exact if the node that rose takes over the reach of the one that
sank, and that one gets the largest stop that is still below it. -/
theorem Exact.rotate {p q : Payloads ρ} {C : Context} {side : Side} {c d : Color} {a b e : Shape}
    {up : RecordId} (h : Exact p (C.fill (.join side c a id (.join side d b up e))))
    (hnodup : (C.fill (.join side d (.join side c a id b) up e)).inorder.Nodup)
    (hstop : q.stopAt = p.stopAt) (hup : q.reachAt up = p.reachAt id)
    (hid : q.reachAt id = p.stopAt id ⊔ a.farthest p.stopAt ⊔ b.farthest p.stopAt)
    (hother : ∀ j, j ≠ id → j ≠ up → q.reachAt j = p.reachAt j) :
    Exact q (C.fill (.join side d (.join side c a id b) up e)) := by
  obtain ⟨hjoin, -, hdisj⟩ := Context.nodup_fill.mp hnodup
  obtain ⟨hupin, hupe, hin, -, hine⟩ := Shape.nodup_join.mp hjoin
  obtain ⟨hida, hidb, -, -, -⟩ := Shape.nodup_join.mp hin
  simp only [Shape.mem_join, not_or] at hupin
  obtain ⟨-, hupa, hupb⟩ := hupin
  have hide : id ∉ e.inorder := fun hm => hine (by simp) hm
  have hkeep : ∀ {u : Shape}, id ∉ u.inorder → up ∉ u.inorder → Exact p u → Exact q u :=
    fun hidu hupu hu => hu.congr hstop fun j hj =>
      hother j (ne_of_mem_of_not_mem hj hidu) (ne_of_mem_of_not_mem hj hupu)
  obtain ⟨htotal, hC⟩ := exact_fill.mp h
  obtain ⟨hreach, ha, hright⟩ := exact_join.mp htotal
  obtain ⟨-, hb, he⟩ := exact_join.mp hright
  -- The subtree has the same nodes as before, so nothing above it has to change.
  have hsame : (Shape.join side d (.join side c a id b) up e).farthest q.stopAt =
      p.reachAt id := by
    rw [hstop, hreach]
    simp only [Shape.farthest_join]
    ac_rfl
  refine exact_fill.mpr ⟨exact_join.mpr ⟨?_, exact_join.mpr ⟨?_, ?_, ?_⟩, ?_⟩, ?_⟩
  · show q.reachAt up = _
    rw [hup, ← hsame, Shape.farthest_join]
  · show q.reachAt id = _
    rw [hid, hstop]
  · exact hkeep hida hupa ha
  · exact hkeep hidb hupb hb
  · exact hkeep hide hupe he
  · show C.Upholds q _
    rw [hsame, hreach, ← Shape.farthest_join side c]
    have hidC : id ∉ C.ids := hdisj (by simp)
    have hupC : up ∉ C.ids := hdisj (by simp)
    exact hC.congr hstop fun j hj =>
      hother j (ne_of_mem_of_not_mem hj hidC) (ne_of_mem_of_not_mem hj hupC)

/-- The payloads `q` are `p` with the reach of `old` copied to `new`. -/
structure Copied (p q : Payloads ρ) (old new : RecordId) : Prop where
  stop_eq : q.stopAt = p.stopAt
  new_eq : q.reachAt new = p.reachAt old
  other_eq : ∀ j, j ≠ new → q.reachAt j = p.reachAt j

omit [LinearOrder κ] in
/-- Setting a reach to that of another record copies it. -/
theorem copied_setReach {old new : RecordId} {e : Entry κ} (he : s.entry old = .ok e)
    (hnew : new < s.size) : Copied s.payload (s.setReach new e.reach).payload old new := by
  obtain ⟨n, hn⟩ := Store.exists_node_of_lt hnew
  obtain ⟨m, hm, -⟩ := Store.exists_entry hn
  obtain ⟨⟨r, hr⟩, -, -⟩ := Store.payload_of_entry hm
  rw [Store.payload_setReach]
  refine ⟨Payloads.stopAt_setReach, ?_, fun j hj => Payloads.reachAt_setReach_of_ne hj⟩
  rw [Payloads.reachAt_setReach_self hr, (Store.payload_of_entry he).2.2]

omit [LawfulSpanned ρ] in
/-- A copy leaves the reaches exact in a subtree that it is not about. -/
theorem Copied.exact {p q : Payloads ρ} {old new : RecordId} {t : Shape} (h : Copied p q old new)
    (hout : ∀ j ∈ t.inorder, j ≠ new) (ht : Exact p t) : Exact q t :=
  ht.congr h.stop_eq fun j hj => h.other_eq j (hout j hj)

omit [LawfulSpanned ρ] in
/-- A copy leaves the reaches right around a position that it is not about. -/
theorem Copied.upholds {p q : Payloads ρ} {old new : RecordId} {C : Context} {inner : WithBot κ}
    (h : Copied p q old new) (hout : ∀ j ∈ C.ids, j ≠ new) (hC : C.Upholds p inner) :
    C.Upholds q inner :=
  hC.congr h.stop_eq fun j hj => h.other_eq j (hout j hj)

/-- Rotations keep reaches exact. -/
theorem reachSummary_turns :
    (reachSummary : Augmentation ρ σ).Turns fun _ p _ shape => Summed p₀ ids p shape where
  recolor {k p x old new} hplain h := by
    refine ⟨?_, h.resummed, fun j hj => h.mem j ?_⟩
    · rw [← exact_plain, ← hplain, exact_plain]
      exact h.exact
    · rwa [← Shape.inorder_plain, hplain, Shape.inorder_plain]
  rotate {k s x t C side c d a b e id up} ht h := by
    obtain ⟨hupin, -, -, -, -⟩ := Shape.nodup_join.mp (Context.nodup_fill.mp ht.nodup).1
    simp only [Shape.mem_join, not_or] at hupin
    obtain ⟨hne, hupa, hupb⟩ := hupin
    obtain ⟨hnup, hinner, -⟩ := spells_join.mp (represents_fill.mp ht.represents).2
    have hnid := (spells_join.mp hinner).1
    have hup := Store.lt_of_node hnup
    obtain ⟨old, hold, -⟩ := Store.exists_entry hnid
    obtain ⟨-, ha, hright⟩ := exact_join.mp (exact_fill.mp h.exact).1
    obtain ⟨-, hb, -⟩ := exact_join.mp hright
    -- First `up` takes over the reach that `id` had. Then the one of `id` is computed anew.
    have hcopied := copied_setReach hold hup
    have hspells₁ : Spells (s.setReach up old.reach) _ (.join side c a id b) :=
      hinner.congr fun j _ => congrFun (Store.node_setReach s up old.reach) j
    have ha₁ := hcopied.exact (fun j hj => ne_of_mem_of_not_mem hj hupa) ha
    have hb₁ := hcopied.exact (fun j hj => ne_of_mem_of_not_mem hj hupb) hb
    obtain ⟨y, hy, hmax⟩ := Store.reachOf_eq hspells₁ ha₁ hb₁
    obtain ⟨e₁, he₁, -⟩ := Store.exists_entry (spells_join.mp hspells₁).1
    obtain ⟨⟨r₁, hr₁⟩, -, -⟩ := Store.payload_of_entry he₁
    simp only [reachSummary, Update.returns_bind, returns_copyReach, Update.returns_read,
      Update.returns_setReach]
    refine ⟨old, hold, hup, y, hy, ?_, ?_, ?_, ?_, ?_⟩
    · show id < (s.setReach up old.reach).size
      rw [Store.size_setReach]
      exact Store.lt_of_node hnid
    · show ((s.setReach up old.reach).setReach id y).node = s.node
      rw [Store.node_setReach, Store.node_setReach]
    · show Exact ((s.setReach up old.reach).setReach id y).payload _
      rw [Store.payload_setReach]
      refine h.exact.rotate ht.nodup ?_ ?_ ?_ ?_
      · show Payloads.stopAt _ = Payloads.stopAt _
        rw [Payloads.stopAt_setReach, hcopied.stop_eq]
      · show Payloads.reachAt _ up = Payloads.reachAt _ id
        rw [Payloads.reachAt_setReach_of_ne hne, hcopied.new_eq]
      · show Payloads.reachAt _ id = _
        rw [Payloads.reachAt_setReach_self hr₁, hmax, hcopied.stop_eq]
      · intro j hjid hjup
        rw [Payloads.reachAt_setReach_of_ne hjid, hcopied.other_eq j hjup]
    · show Payloads.Resummed p₀ _ ids
      have hres := Store.resummed_setReach s old.reach (h.mem up (by simp))
      have hres' := Store.resummed_setReach (s.setReach up old.reach) y (h.mem id (by simp))
      exact (h.resummed.trans hres).trans hres'
    · intro j hj
      exact h.mem j (by rwa [← Context.inorder_rotate])

/-- Linking a node that has its own stop as its reach keeps reaches exact. -/
theorem reachSummary_grows : (reachSummary : Augmentation ρ σ).Grows id
    (fun p _ shape => Summed p₀ ids p shape ∧ p.reachAt id = p.stopAt id ∧ id ∈ ids)
    (fun p _ shape => Summed p₀ ids p shape) where
  propagate {s x t C} ht h := by
    obtain ⟨hsummed, hreach, hid⟩ := h
    obtain ⟨-, hC⟩ := exact_fill.mp hsummed.exact
    have hleaf : Exact s.payload (.join .left .red .leaf id .leaf) :=
      exact_join.mpr ⟨by rw [hreach]; simp, exact_leaf, exact_leaf⟩
    have hsteps := ht.depth_lt
    have hraise := returns_raise_parent (x := x) none ht.spells ht.nodup (.inl rfl)
      (fun j _ => Option.some_ne_none j) hleaf hC (show _ ≤ s.repairLimit by omega)
    rw [Option.or_none] at hraise
    refine returns_propagate.mpr (hraise.mono ?_)
    rintro _ s' x' ⟨hraised, -⟩
    refine ⟨hraised.node_eq, ?_⟩
    refine .of_raised hsummed.resummed (fun j hj => ?_) hraised
    rcases Context.mem_fill.mp hj with hj | hj
    · obtain rfl : j = id := by simpa [Shape.inorder] using hj
      exact hid
    · exact hsummed.mem j (by simpa using hj)

/-- Climbing from a node that took over another's place keeps reaches exact, if it also took over
the reach. -/
theorem returns_propagate_node {t : Tree} {C : Context} {c : Color} {l r : Shape} {succ : RecordId}
    (ht : t.HasShape s (C.fill (.node c l succ r))) (hl : Exact s.payload l)
    (hr : Exact s.payload r) (hC : C.Upholds s.payload (Payloads.reachAt s.payload succ))
    (hres : p₀.Resummed s.payload ids) (hmem : ∀ j ∈ (C.fill (.node c l succ r)).inorder, j ∈ ids) :
    ((reachSummary : Augmentation ρ σ).propagate (some succ) none).Returns s x fun _ s' _ =>
      s'.node = s.node ∧ Summed p₀ ids s'.payload (C.fill (.node c l succ r)) := by
  have hsteps := Context.depth_add_two_le (Context.nodup_fill.mp ht.nodup).2.1 fun j hj =>
    ht.lt_size (Context.mem_fill.mpr (.inr hj))
  have hspells : Spells s none (C.fill (.join .left c l succ r)) := ht.spells
  have hraise := returns_raiseReachFrom (x := x) none hspells ht.nodup (.inl rfl)
    (fun j _ => Option.some_ne_none j) hl hr hC hsteps
  refine returns_propagate.mpr (hraise.mono ?_)
  rintro _ s' x' ⟨hraised, -⟩
  exact ⟨hraised.node_eq, .of_raised hres hmem hraised⟩

/-- The nodes are fewer when `succ` takes the place of `id`. -/
theorem Context.fill_succ_subset (C spine : Context) (c d : Color) (l r : Shape)
    (id succ : RecordId) :
    (C.fill (.node c l succ (spine.fill r))).inorder ⊆
      (C.fill (.node c l id (spine.fill (.node d .leaf succ r)))).inorder := by
  refine fill_subset ?_
  intro j hj
  have hsub : (spine.fill r).inorder ⊆ (spine.fill (.node d .leaf succ r)).inorder :=
    fill_subset (List.subset_cons_self succ r.inorder)
  have hsucc : succ ∈ (spine.fill (.node d .leaf succ r)).inorder := by simp [Shape.inorder]
  simp only [Shape.inorder, List.mem_append, List.mem_cons] at hj ⊢
  rcases hj with hj | rfl | hj
  · exact .inl hj
  · exact .inr (.inr hsucc)
  · exact .inr (.inr (hsub hj))

/-- Taking a node out keeps reaches exact. -/
theorem reachSummary_shrinks : (reachSummary : Augmentation ρ σ).Shrinks id
    (fun p _ shape => Summed p₀ ids p shape) (fun p _ shape => Summed p₀ ids p shape) where
  child {s x t C side c a} ht h := by
    obtain ⟨hjoin, hC⟩ := exact_fill.mp h.exact
    obtain ⟨-, ha, -⟩ := exact_join.mp hjoin
    have hsteps := ht.depth_lt
    have hraise := returns_raise_parent (x := x) none ht.spells ht.nodup (.inl rfl)
      (fun j _ => Option.some_ne_none j) ha hC (show _ ≤ s.repairLimit by omega)
    rw [Option.or_none] at hraise
    refine returns_propagate.mpr (hraise.mono ?_)
    rintro _ s' x' ⟨hraised, -⟩
    refine ⟨hraised.node_eq, ?_⟩
    have hsub : (C.fill a).inorder ⊆ (C.fill (.join side c a id .leaf)).inorder :=
      Context.fill_subset fun j hj => by simp [hj]
    exact .of_raised h.resummed (fun j hj => h.mem j (hsub hj)) hraised
  next {s x t C c d l r succ} _ ht h := by
    obtain ⟨⟨hreach, hl, -, -, hr⟩, hC⟩ := exact_fill.mp h.exact
    rw [← hreach] at hC
    obtain ⟨hnid, -, hright⟩ := spells_node.mp (represents_fill.mp ht.represents).2
    have hsucc := Store.lt_of_node (spells_node.mp hright).1
    obtain ⟨e, he, -⟩ := Store.exists_entry hnid
    refine returns_copyReach.mpr ⟨e, he, hsucc, Store.node_setReach s succ e.reach, ?_⟩
    intro t₂ s₂ hp₂ ht₂
    have hcopied := copied_setReach he hsucc
    have hout := fun j => Context.ne_of_nodup_fill (j := j) ht₂.nodup
    have hsub := C.fill_succ_subset .top c d l r id succ
    refine returns_propagate_node ht₂ ?_ ?_ ?_ ?_ fun j hj => h.mem j (hsub hj)
    · rw [hp₂]
      exact hcopied.exact (fun j hj => hout j (.inl hj)) hl
    · rw [hp₂]
      exact hcopied.exact (fun j hj => hout j (.inr (.inl hj))) hr
    · rw [hp₂, hcopied.new_eq]
      exact hcopied.upholds (fun j hj => hout j (.inr (.inr hj))) hC
    · rw [hp₂]
      exact h.resummed.trans (s.resummed_setReach e.reach (h.mem succ (by simp [Shape.inorder])))
  deep {s x C spine c d l r succ above} _ hparent hbefore hid hsucc hnodup hspine h := by
    obtain ⟨⟨hreach, hl, hright⟩, hC⟩ := exact_fill.mp h.exact
    obtain ⟨⟨-, -, hr⟩, hS⟩ := exact_fill.mp hright
    rw [← hreach] at hC
    obtain ⟨n, hn⟩ := Store.exists_node_of_lt hid
    obtain ⟨e, he, -⟩ := Store.exists_entry hn
    have hcopied := copied_setReach he hsucc
    have hout := fun j => Context.ne_of_nodup_fill (j := j) hnodup
    simp only [Context.mem_fill] at hout
    refine returns_copyReach.mpr ⟨e, he, hsucc, Store.node_setReach s succ e.reach, ?_⟩
    -- Up to the place of `id`, the nodes on the way have one node less below them.
    have hspine₁ : Spells (s.setReach succ e.reach) (some succ) (spine.fill r) :=
      hspine.congr fun j _ => congrFun (Store.node_setReach s succ e.reach) j
    obtain ⟨hnode, -, hdisj⟩ := Context.nodup_fill.mp hnodup
    have hjoin : (Shape.join .left c l succ (spine.fill r)).inorder.Nodup := hnode
    obtain ⟨-, -, -, hnodupR, hdisjR⟩ := Shape.nodup_join.mp hjoin
    have hsteps := Context.depth_add_two_le (s := s.setReach succ e.reach)
      (Context.nodup_fill.mp hnodupR).2.1 fun j hj => by
        obtain ⟨m, hm, -⟩ := hspine₁.exists_linked (Context.mem_fill.mpr (.inr hj))
        exact Store.lt_of_node hm
    have hraise := returns_raise_parent (x := x) (some succ) hspine₁ hnodupR (.inr rfl)
      (fun j hj heq => hout j (.inr (.inl (Context.mem_fill.mp hj))) (Option.some.inj heq))
      (hcopied.exact (fun j hj => hout j (.inr (.inl (.inl hj)))) hr)
      (hcopied.upholds (fun j hj => hout j (.inr (.inl (.inr hj)))) hS)
      (show _ ≤ (s.setReach succ e.reach).repairLimit by omega)
    rw [hparent, Option.some_or] at hraise
    refine returns_propagate.mpr (hraise.mono ?_)
    rintro _ s₂ x₂ ⟨hraised, -⟩
    refine ⟨hraised.node_eq, fun t₃ s₃ hp₃ ht₃ => ?_⟩
    -- What is beside these nodes and above `succ` is as it was.
    have hstop := hraised.resummed.stopAt_eq
    have hsame := fun j hj => hraised.resummed.reachAt_eq (j := j) hj
    have hsub := C.fill_succ_subset spine c d l r id succ
    refine returns_propagate_node ht₃ ?_ ?_ ?_ ?_ fun j hj => h.mem j (hsub hj)
    · rw [hp₃]
      exact (hcopied.exact (fun j hj => hout j (.inl hj)) hl).congr hstop fun j hj =>
        hsame j fun hin => hdisjR hj hin
    · rw [hp₃]
      exact hraised.exact
    · rw [hp₃, hsame succ fun hin => hout succ (.inr (.inl (Context.mem_fill.mp hin))) rfl,
        hcopied.new_eq]
      refine (hcopied.upholds (fun j hj => hout j (.inr (.inr hj))) hC).congr hstop ?_
      intro j hj
      exact hsame j fun hin => hdisj (List.mem_append_right _ (List.mem_cons_of_mem _ hin)) hj
    · rw [hp₃]
      have hres := s.resummed_setReach e.reach (h.mem succ (by simp [Shape.inorder]))
      refine (h.resummed.trans hres).trans (hraised.resummed.mono fun j hj => h.mem j (hsub ?_))
      exact Context.mem_fill.mpr (.inl (List.mem_append_right _ (List.mem_cons_of_mem _ hj)))

end Contracts

end RecordTree
