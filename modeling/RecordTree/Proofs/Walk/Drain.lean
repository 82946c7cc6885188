import RecordTree.Proofs.Returns
import RecordTree.Proofs.Shape.Context
import RecordTree.Walk.Drain

/-!
# `RecordTree.Proofs.Walk.Drain`: a walk that stays exact while it deletes

A drain finds its next node before it deletes the one it was handed. What it relies on is little:
that the cursor is still right for the tree without that node. `Drainable` says this of a
relation `Ready` between the nodes of the tree, those still to be handed out, the cursor, and the
handle and the records as they are.

`Drains` is what comes of it, whichever nodes are chosen, by way of `Drainable.drains`.
-/

set_option autoImplicit false

namespace RecordTree

variable {ρ σ τ γ : Type} {advance : γ → Store ρ → Except Fault (Option (RecordId × γ))}
  {delete : τ → RecordId → Guarded ρ σ τ} {walk ids rest : List RecordId} {cursor : γ} {t : τ}
  {s : Store ρ} {x : σ} {id : RecordId}

/-- However many steps it is let, the drain hands out `ids` one after the other, and no deletion
is turned down. Each id goes or stays as `chosen` says at its turn, which `goes` keeps a note of.
`Leaves` holds of the ids that have gone so far, of the handle and of the records. -/
def Drains (advance : γ → Store ρ → Except Fault (Option (RecordId × γ)))
    (delete : τ → RecordId → Guarded ρ σ τ) (chosen : Nat → RecordId → Store ρ → Bool)
    (cursor : γ) (t : τ) (s : Store ρ) (x : σ) (ids : List RecordId)
    (Leaves : (RecordId → Bool) → τ → Store ρ → Prop) : Prop :=
  ∃ goes : RecordId → Bool, ∀ limit,
    (drain advance delete chosen limit 0 cursor t).Returns s x fun d s' _ =>
      d.ids = ids.take limit ∧ d.rejected = none ∧
        (∀ id, ids[limit]? = some id → goes id = chosen (limit + 1) id s') ∧
        Leaves (fun j => decide (j ∈ d.ids) && goes j) d.tree s'

/-- With the nodes `walk` in the tree and `ids` still to be handed out, a cursor that is `Ready`
hands out the next of them, and what it holds then is right whether the node goes or stays. -/
structure Drainable (advance : γ → Store ρ → Except Fault (Option (RecordId × γ)))
    (delete : τ → RecordId → Guarded ρ σ τ)
    (Ready : List RecordId → List RecordId → γ → τ → Store ρ → σ → Prop) : Prop where
  finish {walk : List RecordId} {cursor : γ} {t : τ} {s : Store ρ} {x : σ} :
    Ready walk [] cursor t s x → advance cursor s = .ok none
  step {walk rest : List RecordId} {id : RecordId} {cursor : γ} {t : τ} {s : Store ρ} {x : σ} :
    Ready walk (id :: rest) cursor t s x → ∃ cursor',
      advance cursor s = .ok (some (id, cursor')) ∧ Ready walk rest cursor' t s x ∧
        (delete t id).Returns s x
          (fun t' s' x' => Ready (walk.filter (· != id)) rest cursor' t' s' x') fun _ _ _ => False

section Steps

variable {chosen : Nat → RecordId → Store ρ → Bool} {limit seen : Nat} {cursor' : γ}
  {Q : Drained τ → Store ρ → σ → Prop}

/-- A drain that is let no step hands out nothing. -/
theorem returns_drain_zero :
    (drain advance delete chosen 0 seen cursor t).Returns s x Q ↔ Q ⟨[], t, none⟩ s x :=
  Update.returns_pure

/-- At the end of the walk the drain ends. -/
theorem returns_drain_end (hadvance : advance cursor s = .ok none) :
    (drain advance delete chosen limit seen cursor t).Returns s x Q ↔ Q ⟨[], t, none⟩ s x := by
  cases limit with
  | zero => exact returns_drain_zero
  | succ limit =>
    simp only [drain, Update.returns_bind, Update.returns_read, hadvance, Except.ok.injEq,
      exists_eq_left', Update.returns_pure]

/-- One step of a drain: the node that is handed out goes if it is chosen, and the rest follows. -/
theorem returns_drain_step (hadvance : advance cursor s = .ok (some (id, cursor'))) :
    (drain advance delete chosen (limit + 1) seen cursor t).Returns s x Q ↔
      if chosen (seen + 1) id s then
        (delete t id).Returns s x
          (fun t' s' x' => (drain advance delete chosen limit (seen + 1) cursor' t').Returns s' x'
            fun d => Q (d.after id))
          fun r => Q ⟨[id], t, some r⟩
      else (drain advance delete chosen limit (seen + 1) cursor' t).Returns s x
        fun d => Q (d.after id) := by
  simp only [drain, Update.returns_bind, Update.returns_read, hadvance, Except.ok.injEq,
    exists_eq_left', except_pure_eq_ok]
  split_ifs
  · -- A deletion that is turned down ends the drain, and any other one is followed by the rest.
    rw [Update.returns_bind, Guarded.Returns]
    constructor
    · intro h
      refine h.mono ?_
      rintro (r | t') s' x' hrest
      · have hleft : Q ⟨[id], t, some r⟩ s' x' := Update.returns_pure.mp hrest
        exact hleft
      · exact Update.returns_map.mp hrest
    · intro h
      refine h.mono ?_
      rintro (r | t') s' x' hrest
      · have hleft : Q ⟨[id], t, some r⟩ s' x' := hrest
        exact Update.returns_pure.mpr hleft
      · exact Update.returns_map.mpr hrest
  · exact Update.returns_map

/-- One step of a drain, where `R` holds of the nodes in the tree whether the one that is handed out
goes or stays. -/
theorem exists_drain_step {R : List RecordId → τ → Store ρ → σ → Prop}
    (chosen : Nat → RecordId → Store ρ → Bool) (seen : Nat)
    (hadvance : advance cursor s = .ok (some (id, cursor'))) (hstays : R walk t s x)
    (hgoes : (delete t id).Returns s x
      (fun t' s' x' => R (walk.filter (· != id)) t' s' x') fun _ _ _ => False) :
    ∃ t' s' x',
      R (walk.filter fun j => !(decide (j = id) && chosen (seen + 1) id s)) t' s' x' ∧
      ∀ limit Q,
        (drain advance delete chosen limit (seen + 1) cursor' t').Returns s' x'
          (fun d => Q (d.after id)) →
        (drain advance delete chosen (limit + 1) seen cursor t).Returns s x Q := by
  -- The node stays, and nothing else happens, or it goes, which no guard turns down.
  cases hchosen : chosen (seen + 1) id s with
  | false =>
    refine ⟨t, s, x, by simpa using hstays, fun limit Q hrest => ?_⟩
    rw [returns_drain_step hadvance, hchosen]
    exact hrest
  | true =>
    obtain ⟨outcome, s', x', hrun, hout⟩ := hgoes
    cases outcome with
    | error r => exact hout.elim
    | ok t' =>
      refine ⟨t', s', x', ?_, fun limit Q hrest => ?_⟩
      · convert hout using 3 with j
        rw [Bool.and_true]
        rfl
      · rw [returns_drain_step hadvance, hchosen]
        exact ⟨.ok t', s', x', hrun, hrest⟩

end Steps

namespace Drainable

variable {Ready : List RecordId → List RecordId → γ → τ → Store ρ → σ → Prop}

/-- One step of a drain, with the deletion if the node is chosen. -/
theorem exists_step (h : Drainable advance delete Ready)
    (chosen : Nat → RecordId → Store ρ → Bool) (hready : Ready walk (id :: rest) cursor t s x)
    (seen : Nat) :
    ∃ cursor' t' s' x',
      Ready (walk.filter fun j => !(decide (j = id) && chosen (seen + 1) id s)) rest cursor' t' s'
        x' ∧
      ∀ limit Q,
        (drain advance delete chosen limit (seen + 1) cursor' t').Returns s' x'
          (fun d => Q (d.after id)) →
        (drain advance delete chosen (limit + 1) seen cursor t).Returns s x Q := by
  obtain ⟨cursor', hadvance, hstays, hgoes⟩ := h.step hready
  exact ⟨cursor', exists_drain_step (R := fun walk => Ready walk rest cursor') chosen seen hadvance
    hstays hgoes⟩

/-- What is left after one more node is what is left of the rest. -/
theorem filter_goes {goes : RecordId → Bool} (walk : List RecordId) {done : List RecordId}
    (hid : id ∉ done) (b : Bool) :
    (walk.filter fun j => !(decide (j = id) && b)).filter
        (fun j => !(decide (j ∈ done) && goes j)) =
      walk.filter fun j => !(decide (j ∈ id :: done) && Function.update goes id b j) := by
  rw [List.filter_filter]
  refine List.filter_congr fun j _ => ?_
  by_cases hj : j = id
  · subst hj
    simp [hid]
  · simp [hj]

/-- A drain from a cursor that is ready. -/
theorem exists_goes (h : Drainable advance delete Ready)
    (chosen : Nat → RecordId → Store ρ → Bool) (hready : Ready walk ids cursor t s x)
    (hids : ids.Nodup) (seen : Nat) :
    ∃ goes : RecordId → Bool, ∀ limit,
      (drain advance delete chosen limit seen cursor t).Returns s x fun d s' x' =>
        d.ids = ids.take limit ∧ d.rejected = none ∧
          (∀ id, ids[limit]? = some id → goes id = chosen (seen + limit + 1) id s') ∧
          ∃ cursor', Ready (walk.filter fun j => !(decide (j ∈ d.ids) && goes j)) (ids.drop limit)
            cursor' d.tree s' x' := by
  -- Along the ids still to come. The choice for the first of them is made in the records as they
  -- are now, those for the others in what it leaves.
  induction ids generalizing walk cursor t s x seen with
  | nil =>
    refine ⟨fun _ => false, fun limit => ?_⟩
    rw [returns_drain_end (h.finish hready)]
    exact ⟨by simp, rfl, by simp, cursor, by simpa using hready⟩
  | cons id rest ih =>
    obtain ⟨hid, hrest⟩ := List.nodup_cons.mp hids
    obtain ⟨cursor', t', s', x', hready', hdrain⟩ := h.exists_step chosen hready seen
    obtain ⟨goes, hgoes⟩ := ih hready' hrest (seen + 1)
    refine ⟨Function.update goes id (chosen (seen + 1) id s), fun limit => ?_⟩
    cases limit with
    | zero =>
      refine returns_drain_zero.mpr ⟨rfl, rfl, ?_, cursor, by simpa using hready⟩
      rintro j ⟨⟩
      exact Function.update_self ..
    | succ limit =>
      refine hdrain limit _ ((hgoes limit).mono ?_)
      rintro d s₂ x₂ ⟨hd, hrejected, hchosen, cursor₂, hready₂⟩
      have hout : id ∉ d.ids := by
        rw [hd]
        exact fun hin => hid (List.mem_of_mem_take hin)
      refine ⟨?_, hrejected, ?_, cursor₂, ?_⟩
      · show id :: d.ids = (id :: rest).take (limit + 1)
        rw [hd, List.take_succ_cons]
      · intro j hj
        rw [List.getElem?_cons_succ] at hj
        have hne : j ≠ id := ne_of_mem_of_not_mem (List.mem_of_getElem? hj) hid
        rw [Function.update_of_ne hne, hchosen j hj]
        congr 1
        omega
      · show Ready (walk.filter fun j => !(decide (j ∈ id :: d.ids) && _)) _ _ _ _ _
        rw [← filter_goes walk hout]
        exact hready₂

/-- The run: a drain is exact, and leaves a cursor ready for what is left. -/
theorem drains (h : Drainable advance delete Ready) (chosen : Nat → RecordId → Store ρ → Bool)
    (hready : Ready walk ids cursor t s x) (hids : ids.Nodup) :
    Drains advance delete chosen cursor t s x ids fun out t' s' =>
      ∃ rest cursor' x', Ready (walk.filter (!out ·)) rest cursor' t' s' x' := by
  obtain ⟨goes, hgoes⟩ := h.exists_goes chosen hready hids 0
  refine ⟨goes, fun limit => (hgoes limit).mono ?_⟩
  rintro d s' x' ⟨hd, hrejected, hchosen, cursor', hready'⟩
  rw [Nat.zero_add] at hchosen
  exact ⟨hd, hrejected, hchosen, _, cursor', x', hready'⟩

end Drainable

/-- What a drain leaves may be weakened. -/
theorem Drains.mono {chosen : Nat → RecordId → Store ρ → Bool}
    {Leaves Leaves' : (RecordId → Bool) → τ → Store ρ → Prop}
    (h : Drains advance delete chosen cursor t s x ids Leaves)
    (himp : ∀ out t' s', Leaves out t' s' → Leaves' out t' s') :
    Drains advance delete chosen cursor t s x ids Leaves' := by
  obtain ⟨goes, hgoes⟩ := h
  refine ⟨goes, fun limit => (hgoes limit).mono ?_⟩
  rintro d s' x' ⟨hd, hrejected, hchosen, hleaves⟩
  exact ⟨hd, hrejected, hchosen, himp _ _ _ hleaves⟩

/-- Where the choice is by the node alone, the nodes that were handed out and chosen have gone. -/
theorem Drains.returns_of_choice {p : RecordId → Bool}
    {Leaves : (RecordId → Bool) → τ → Store ρ → Prop}
    (h : Drains advance delete (fun _ id _ => p id) cursor t s x ids Leaves) (limit : Nat) :
    (drain advance delete (fun _ id _ => p id) limit 0 cursor t).Returns s x fun d s' _ =>
      d.ids = ids.take limit ∧ d.rejected = none ∧
        Leaves (fun j => decide (j ∈ d.ids) && p j) d.tree s' := by
  obtain ⟨goes, hgoes⟩ := h
  -- The turn of a node is the one with as many nodes before it as in the list.
  have hchoice : ∀ j ∈ ids, goes j = p j := by
    intro j hj
    obtain ⟨k, hk⟩ := List.getElem?_of_mem hj
    obtain ⟨_, _, _, -, -, -, hchosen, -⟩ := hgoes k
    exact hchosen j hk
  refine (hgoes limit).mono ?_
  rintro d s' x' ⟨hd, hrejected, -, hleaves⟩
  refine ⟨hd, hrejected, ?_⟩
  convert hleaves using 2 with j
  by_cases hj : j ∈ d.ids
  · rw [hchoice j (List.mem_of_mem_take (hd ▸ hj))]
  · simp [hj]

/-- A node of a list without repetitions, filtered out. -/
theorem filter_ne_middle {l r : List RecordId} (h : walk.Nodup) (hwalk : walk = l ++ id :: r) :
    walk.filter (· != id) = l ++ r := by
  subst hwalk
  have hstays : ∀ j ∈ l ++ r, (j != id) = true := by
    intro j hj
    exact bne_iff_ne.mpr (ne_of_mem_of_not_mem hj (notMem_of_nodup_middle h))
  rw [List.filter_append, List.filter_cons_of_neg (by simp), ← List.filter_append,
    List.filter_eq_self.mpr hstays]

end RecordTree
