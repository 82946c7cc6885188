import RecordTree.Proofs.Tree.Sound

/-!
# `RecordTree.Proofs.Walk.SharedChild`: the ways and the walk through a tree that passes its checks

A validation compares each parent link with the record from which it came there. So a record that
passes is met under one parent only, and its parent links, followed to the root, are the way by
which it was reached (`Store.Lineage`). They do not tell the sides. A record that is the child of
its parent on both sides passes twice, if it orders the same as its parent: the parent has a shared
child (`Store.HasSharedChild`).

`Shape.visited` is what the ascending walk goes through then. Coming up to a parent from its shared
child, a walk takes it for one that it comes to from the right, and climbs on. It leaves out the
parent, and goes through what is below once.

* `Store.Lineage.unique`, `Represents.lineage`: the records on the way to a record.
* `Represents.nodup_visited`: different lineages are those of different records.
* `Represents.leads`: where the steps lead, by induction over the shape.
* `Tree.ways_of_validate`: all of it, for a tree that passes.
-/

set_option autoImplicit false

namespace RecordTree

open Std

variable {ρ σ : Type} [Linked ρ] {s : Store ρ} {order : ρ → ρ → Ordering}
  {compare : Comparator ρ σ}

/-! ### Ways -/

namespace Store

/-- One record is the child of `id` on both sides. -/
def HasSharedChild (s : Store ρ) (id : RecordId) : Prop :=
  ∃ n child, s.node id = .ok n ∧ n.left = some child ∧ n.right = some child

/-- A way down from a position to a record: the records that it leaves, each at one of its sides. -/
inductive Way (s : Store ρ) : Option RecordId → List (RecordId × Side) → RecordId → Prop where
  | here {id : RecordId} {n : Node} : s.node id = .ok n → Way s (some id) [] id
  | child {id j : RecordId} {n : Node} {steps : List (RecordId × Side)} (side : Side) :
      s.node id = .ok n → Way s (n.child side) steps j → Way s (some id) ((id, side) :: steps) j

/-- The records from the top to `id`, told by parent links. -/
inductive Lineage (s : Store ρ) : Option RecordId → List RecordId → Prop where
  | top : Lineage s none []
  | under {id : RecordId} {n : Node} {above : List RecordId} :
      s.node id = .ok n → Lineage s n.parent above → Lineage s (some id) (above ++ [id])

variable {position : Option RecordId} {id j : RecordId} {steps steps' : List (RecordId × Side)}

/-- Parent links leave one lineage only. -/
theorem Lineage.unique {l m : List RecordId} (h : s.Lineage position l)
    (h' : s.Lineage position m) : l = m := by
  induction h generalizing m with
  | top =>
    cases h'
    rfl
  | under hn _ ih =>
    cases h' with
    | under hm habove =>
      rw [hn] at hm
      cases hm
      rw [ih habove]

/-- What is below a position is there by some way down. -/
theorem Reaches.exists_way (h : s.Reaches position id) : ∃ steps, s.Way position steps id := by
  induction h with
  | here hn => exact ⟨[], .here hn⟩
  | child side hn _ ih =>
    obtain ⟨steps, hway⟩ := ih
    exact ⟨_, .child side hn hway⟩

/-- A way begins with the record at its position. -/
theorem Way.exists_cons (h : s.Way position steps id) :
    ∃ top rest, position = some top ∧ steps.map Prod.fst ++ [id] = top :: rest := by
  cases h with
  | here hn => exact ⟨id, [], rfl, rfl⟩
  | child side hn _ => exact ⟨_, _, rfl, rfl⟩

/-- A child that is not shared stands on one side. -/
theorem eq_of_child {n : Node} {child : RecordId} {side side' : Side} (hn : s.node id = .ok n)
    (hsingle : ¬ s.HasSharedChild id) (h : n.child side = some child)
    (h' : n.child side' = some child) : side' = side := by
  by_contra hne
  cases side <;> cases side'
  · exact hne rfl
  · exact hsingle ⟨n, child, hn, h, h'⟩
  · exact hsingle ⟨n, child, hn, h', h⟩
  · exact hne rfl

/-- Where no record has a shared child, the records on a way tell the sides. -/
theorem Way.eq_of_map_eq (h : s.Way position steps id) (h' : s.Way position steps' id)
    (heq : steps'.map Prod.fst = steps.map Prod.fst)
    (hsingle : ∀ j ∈ steps.map Prod.fst, ¬ s.HasSharedChild j) : steps' = steps := by
  induction h generalizing steps' with
  | here => exact List.map_eq_nil_iff.mp heq
  | child side hn hrest ih =>
    cases h' with
    | here => cases heq
    | child side' hm hrest' =>
      rw [hn] at hm
      cases hm
      have hrecords := (List.cons_eq_cons.mp heq).2
      -- Both sides lead to the record that comes next, so they are one.
      obtain ⟨next, _, hnext, hway⟩ := hrest.exists_cons
      obtain ⟨next', _, hnext', hway'⟩ := hrest'.exists_cons
      rw [hrecords, hway] at hway'
      obtain ⟨rfl, -⟩ := List.cons_eq_cons.mp hway'
      obtain rfl := eq_of_child hn (hsingle _ List.mem_cons_self) hnext hnext'
      rw [ih hrest' hrecords fun j hj => hsingle j (List.mem_cons_of_mem _ hj)]

end Store

/-- The ways below a position are what the parent links tell of the records there. -/
theorem Represents.lineage {parent position : Option RecordId} {shape : Shape}
    {above : List RecordId} {steps : List (RecordId × Side)} {id : RecordId}
    (h : Represents s parent position shape) (habove : s.Lineage parent above)
    (hway : s.Way position steps id) :
    s.Lineage (some id) (above ++ (steps.map Prod.fst ++ [id])) := by
  induction hway generalizing parent shape above with
  | here hn =>
    cases h with
    | node hm hparent _ _ _ => exact .under hm (hparent ▸ habove)
  | child side hn _ ih =>
    cases h with
    | node hm hparent _ hl hr =>
      rw [hn] at hm
      cases hm
      have htop : s.Lineage (some _) _ := .under hn (hparent ▸ habove)
      cases side with
      | left => simpa using ih hl htop
      | right => simpa using ih hr htop

/-! ### What a walk visits -/

namespace Shape

/-- The nodes from left to right, without those that have the same node as both children. -/
def visited : Shape → List RecordId
  | leaf => []
  | node _ l id r =>
    if l ≠ leaf ∧ l.root? = r.root? then l.visited else l.visited ++ id :: r.visited

/-- In a shape that is not empty some node is visited. -/
theorem visited_ne_nil {t : Shape} (h : t ≠ leaf) : t.visited ≠ [] := by
  induction t with
  | leaf => exact absurd rfl h
  | node c l id r ihl _ =>
    unfold visited
    split_ifs with hshared
    · exact ihl hshared.1
    · simp

/-- The first node is the left-most one, which has no child on the left. -/
theorem head?_visited (c : Color) (l r : Shape) (id : RecordId) :
    (node c l id r).visited.head? = l.visited.head?.or (some id) := by
  by_cases hleaf : l = leaf
  · subst hleaf
    rfl
  · obtain ⟨first, rest, hfirst⟩ := List.exists_cons_of_ne_nil (visited_ne_nil hleaf)
    rw [visited, hfirst]
    split_ifs <;> rfl

end Shape

/-- The steps to the right lead along `l`, and from its end to `out`. -/
def Store.Leads (s : Store ρ) (out : Option RecordId) : List RecordId → Prop
  | [] => True
  | id :: rest => s.next id = .ok (rest.head?.or out) ∧ s.Leads out rest

namespace Store.Leads

variable {out : Option RecordId} {l m : List RecordId}

/-- Steps that lead to where other steps begin lead on along these. -/
theorem append (h : s.Leads (m.head?.or out) l) (h' : s.Leads out m) : s.Leads out (l ++ m) := by
  induction l with
  | nil => exact h'
  | cons id rest ih =>
    refine ⟨?_, ih h.2⟩
    show s.next id = .ok ((rest ++ m).head?.or out)
    rw [h.1, List.head?_append, Option.or_assoc]

/-- Steps that lead to the end are those of a walk. -/
theorem visits (h : s.Leads none l) : Order.ascending.Visits s l := by
  intro before id after hl
  subst hl
  induction before with
  | nil => exact h.1.trans (congrArg _ (Option.or_none ..))
  | cons _ _ ih => exact ih h.2

end Store.Leads

namespace Represents

variable {parent position : Option RecordId} {shape : Shape}

/-- Links spell out one shape only. -/
theorem unique {shape' : Shape} (h : Represents s parent position shape)
    (h' : Represents s parent position shape') : shape = shape' := by
  induction h generalizing shape' with
  | leaf =>
    cases h'
    rfl
  | node hn _ _ _ _ ihl ihr =>
    cases h' with
    | node hm _ _ hl hr =>
      rw [hn] at hm
      cases hm
      rw [ihl hl, ihr hr]

/-- A shared child, as the shape has it. -/
theorem hasSharedChild_iff {id : RecordId} {n : Node} {l r : Shape} (hn : s.node id = .ok n)
    (hl : Represents s (some id) n.left l) (hr : Represents s (some id) n.right r) :
    s.HasSharedChild id ↔ l ≠ .leaf ∧ l.root? = r.root? := by
  have hleft : n.left = l.root? := (represents_iff.mp hl).1
  have hright : n.right = r.root? := (represents_iff.mp hr).1
  constructor
  · rintro ⟨m, child, hm, hchildl, hchildr⟩
    rw [hn] at hm
    cases hm
    refine ⟨?_, by rw [← hleft, ← hright, hchildl, hchildr]⟩
    rintro rfl
    rw [hchildl] at hleft
    cases hleft
  · rintro ⟨hne, hsame⟩
    obtain ⟨child, hchild⟩ := Option.ne_none_iff_exists'.mp (Shape.root?_ne_none hne)
    exact ⟨n, child, hn, hleft.trans hchild, hright.trans (hsame ▸ hchild)⟩

/-- All nodes are visited, but for the parents of shared children. -/
theorem mem_visited (h : Represents s parent position shape) (j : RecordId) :
    j ∈ shape.visited ↔ j ∈ shape.inorder ∧ ¬ s.HasSharedChild j := by
  induction h with
  | leaf => simp [Shape.visited, Shape.inorder]
  | @node parent id n l r hn _ _ hl hr ihl ihr =>
    have hshared := hasSharedChild_iff hn hl hr
    simp only [Shape.visited, Shape.inorder, List.mem_append, List.mem_cons]
    by_cases hid : s.HasSharedChild id
    · -- Both subtrees are one.
      have hsame : r = l := by
        obtain ⟨hleft, -⟩ := represents_iff.mp hl
        obtain ⟨hright, -⟩ := represents_iff.mp hr
        rw [hright, ← (hshared.mp hid).2, ← hleft] at hr
        exact hr.unique hl
      subst hsame
      rw [if_pos (hshared.mp hid), ihl]
      constructor
      · rintro ⟨hj, hsingle⟩
        exact ⟨.inl hj, hsingle⟩
      · rintro ⟨hj | rfl | hj, hsingle⟩
        · exact ⟨hj, hsingle⟩
        · exact absurd hid hsingle
        · exact ⟨hj, hsingle⟩
    · -- With two children of its own, the node comes between those below it.
      rw [if_neg (mt hshared.mpr hid), List.mem_append, List.mem_cons, ihl, ihr]
      constructor
      · rintro (⟨hj, hsingle⟩ | rfl | ⟨hj, hsingle⟩)
        · exact ⟨.inl hj, hsingle⟩
        · exact ⟨.inr (.inl rfl), hid⟩
        · exact ⟨.inr (.inr hj), hsingle⟩
      · rintro ⟨hj | rfl | hj, hsingle⟩
        · exact .inl ⟨hj, hsingle⟩
        · exact .inr (.inl rfl)
        · exact .inr (.inr ⟨hj, hsingle⟩)

/-- The lineage of a node begins with what is above the shape, and with its top. -/
theorem exists_lineage (h : Represents s parent position shape) {above : List RecordId}
    (habove : s.Lineage parent above) {j : RecordId} (hj : j ∈ shape.inorder) :
    ∃ top rest, position = some top ∧ s.Lineage (some j) (above ++ top :: rest) := by
  obtain ⟨steps, hway⟩ := ((h.reaches_iff j).mpr hj).exists_way
  obtain ⟨top, rest, htop, hcons⟩ := hway.exists_cons
  exact ⟨top, rest, htop, hcons ▸ h.lineage habove hway⟩

/-- No node is visited twice: different lineages are those of different nodes. -/
theorem nodup_visited (h : Represents s parent position shape) {above : List RecordId}
    (habove : s.Lineage parent above) : shape.visited.Nodup := by
  induction h generalizing above with
  | leaf => exact List.nodup_nil
  | @node parent id n l r hn hparent _ hl hr ihl ihr =>
    have hid : s.Lineage (some id) (above ++ [id]) := .under hn (hparent ▸ habove)
    have hbelow : ∀ child t, Represents s (some id) child t → ∀ j ∈ t.visited,
        ∃ top rest, child = some top ∧ s.Lineage (some j) (above ++ [id] ++ top :: rest) :=
      fun child t ht j hj => ht.exists_lineage hid ((ht.mem_visited j).mp hj).1
    -- The lineage of what is below `id` is longer than that of `id` itself.
    have hout : ∀ child t, Represents s (some id) child t → id ∉ t.visited := by
      intro child t ht hin
      obtain ⟨top, rest, -, hline⟩ := hbelow child t ht id hin
      simpa using hline.unique hid
    unfold Shape.visited
    split_ifs with hshared
    · exact ihl hid
    · refine List.nodup_append.mpr ⟨ihl hid, List.nodup_cons.mpr ⟨hout _ _ hr, ihr hid⟩, ?_⟩
      rintro j hj k hk rfl
      rcases List.mem_cons.mp hk with rfl | hk
      · exact hout _ _ hl hj
      · -- The lineage of a node tells through which child it comes.
        obtain ⟨top, rest, hleft, hline⟩ := hbelow _ _ hl j hj
        obtain ⟨top', rest', hright, hline'⟩ := hbelow _ _ hr j hk
        obtain ⟨rfl, -⟩ := List.cons_eq_cons.mp (List.append_cancel_left (hline.unique hline'))
        exact hshared ((hasSharedChild_iff hn hl hr).mp ⟨n, top, hn, hleft, hright⟩)

/-- Going down to the left leads to the first node that is visited. -/
theorem extremeFrom_eq {top : RecordId} {steps : Nat}
    (h : Represents s parent (some top) shape) (hsteps : shape.height ≤ steps) :
    ∃ j, s.extremeFrom .left steps top = .ok j ∧ shape.visited.head? = some j := by
  induction steps generalizing parent top shape with
  | zero =>
    cases h with
    | node => simp [Shape.height] at hsteps
  | succ steps ih =>
    cases h with
    | @node _ _ n l r hn _ _ hl _ =>
      simp only [Shape.height] at hsteps
      rw [Store.extremeFrom, hn, Shape.head?_visited]
      simp only [bind, Except.bind, Node.child]
      -- The way goes left as long as there is a child.
      cases hleft : n.left with
      | none =>
        rw [hleft] at hl
        cases hl
        exact ⟨top, rfl, rfl⟩
      | some child =>
        rw [hleft] at hl
        obtain ⟨j, hrun, hhead⟩ := ih hl (show l.height ≤ steps by omega)
        exact ⟨j, hrun, by rw [hhead, Option.some_or]⟩

/-- The way to the left-most node ends at the first one that is visited. -/
theorem extreme_eq (h : Represents s parent position shape) (hheight : shape.height ≤ s.walkLimit) :
    s.extreme .left position = .ok shape.visited.head? := by
  cases position with
  | none =>
    cases h
    rfl
  | some top =>
    obtain ⟨j, hrun, hhead⟩ := h.extremeFrom_eq hheight
    rw [Store.extreme, hrun, hhead]
    rfl

/-- A step up, from the top of a shape to the node that it hangs on. -/
theorem climbFrom_succ {steps : Nat} {id child : RecordId} {n : Node}
    (h : Represents s (some id) (some child) shape) (hn : s.node id = .ok n) :
    s.climbFrom .right (steps + 1) child =
      if n.right = some child then s.climbFrom .right steps id else .ok (some id) := by
  cases h with
  | node hm hparent =>
    rw [Store.climbFrom, hm]
    simp only [bind, Except.bind, hparent, hn]
    rfl

/-- The steps between the nodes that are visited. From the last one they lead to where a climb from
the top leads. -/
theorem leads {depth : Nat} {out : Option RecordId} (h : Represents s parent position shape)
    (hclimb : ∀ top steps, position = some top → depth < steps →
      s.climbFrom .right steps top = .ok out)
    (hdepth : depth + shape.height ≤ s.walkLimit) : s.Leads out shape.visited := by
  induction h generalizing depth out with
  | leaf => trivial
  | @node parent id n l r hn hparent hstate hl hr ihl ihr =>
    simp only [Shape.height] at hdepth
    have hleft : n.left = l.root? := (represents_iff.mp hl).1
    have hright : n.right = r.root? := (represents_iff.mp hr).1
    -- From the right child, which may be the left one as well, a climb goes on above `id`.
    have hbeyond : ∀ top steps, n.right = some top → depth + 1 < steps →
        s.climbFrom .right steps top = .ok out := by
      intro top steps htop hsteps
      obtain ⟨steps, rfl⟩ : ∃ k, steps = k + 1 := Nat.exists_eq_add_one.mpr (by omega)
      rw [climbFrom_succ (htop ▸ hr) hn, if_pos htop]
      exact hclimb id steps rfl (by omega)
    unfold Shape.visited
    split_ifs with hshared
    · rw [hleft, hshared.2, ← hright] at ihl
      exact ihl hbeyond (by omega)
    · have hleads : s.Leads (some id) l.visited := by
        refine ihl (fun top steps htop (hsteps : depth + 1 < steps) => ?_) (by omega)
        obtain ⟨steps, rfl⟩ : ∃ k, steps = k + 1 := Nat.exists_eq_add_one.mpr (by omega)
        -- From the left child a climb ends at `id`, which has another child on the right.
        have hne : n.right ≠ some top := by
          intro hsame
          refine hshared ⟨?_, by rw [← hleft, ← hright, htop, hsame]⟩
          rintro rfl
          rw [htop] at hleft
          cases hleft
        rw [climbFrom_succ (htop ▸ hl) hn, if_neg hne]
      refine Store.Leads.append hleads ⟨?_, ihr hbeyond (by omega)⟩
      rw [Store.next, Store.neighbor, hn]
      simp only [bind, Except.bind, Node.child]
      cases hchild : n.right with
      | none =>
        rw [hchild] at hr
        cases hr
        exact hclimb id s.walkLimit rfl (by omega)
      | some child =>
        rw [hchild] at hr
        have hne : r ≠ .leaf := by
          rintro rfl
          cases hr
        obtain ⟨first, rest, hfirst⟩ := List.exists_cons_of_ne_nil (Shape.visited_ne_nil hne)
        show s.extreme .left (some child) = _
        rw [hr.extreme_eq (by omega), hfirst]
        rfl

/-- The walk over the tree goes through the nodes that are visited. -/
theorem walk_ascending {t : Tree} (h : Represents s none t.root shape)
    (hheight : shape.height ≤ s.walkLimit) : t.walk s .ascending = .ok shape.visited := by
  have hend : ∀ top steps, t.root = some top → 0 < steps →
      s.climbFrom .right steps top = .ok none := by
    intro top steps htop hsteps
    obtain ⟨steps, rfl⟩ := Nat.exists_eq_add_one.mpr hsteps
    rw [htop] at h
    cases h with
    | node hn hparent =>
      rw [Store.climbFrom, hn]
      simp only [bind, Except.bind, hparent]
      rfl
  have hlen : shape.visited.length ≤ s.size := by
    refine Store.length_le_size (h.nodup_visited .top) fun j hj => ?_
    obtain ⟨n, hn⟩ := ((h.reaches_iff j).mpr ((h.mem_visited j).mp hj).1).exists_node
    exact Store.lt_of_node hn
  have hvisits := (h.leads hend (by omega)).visits
  have hfirst : Order.ascending.first s t.root = .ok shape.visited.head? := h.extreme_eq hheight
  rw [Tree.walk, Tree.cursor, Cursor.start, hfirst]
  exact Cursor.toList_eq hvisits hlen

end Represents

/-- In a tree that passes, all ways to a record go through the same records, and there is one way
only if none of these has a shared child. A shared child orders the same as its parent. The
ascending walk goes once through all records that are reached and have no shared child. -/
theorem Tree.ways_of_validate [TransCmp order] (hanswers : compare.Answers order) {t : Tree}
    {height : Nat} {x x' : σ} (hrun : (t.validate s compare).run x = .ok (.ok height, x')) :
    (∀ id, s.Reaches t.root id → ∃ steps, s.Way t.root steps id ∧
      ∀ steps', s.Way t.root steps' id → steps'.map Prod.fst = steps.map Prod.fst ∧
        ((∀ j ∈ steps.map Prod.fst, ¬ s.HasSharedChild j) → steps' = steps)) ∧
    (∀ id n child, s.Reaches t.root id → s.node id = .ok n → n.left = some child →
      n.right = some child → ∃ a b, s.fetch child = .ok a ∧ s.fetch id = .ok b ∧
        order a b = .eq) ∧
    ∃ l, t.walk s .ascending = .ok l ∧ l.Nodup ∧
      ∀ id, id ∈ l ↔ s.Reaches t.root id ∧ ¬ s.HasSharedChild id := by
  obtain ⟨shape, hchecked, -⟩ := exists_checked_of_validate hanswers hrun
  have hrep := hchecked.represents
  refine ⟨fun id hid => ?_, fun id n child hid hn hleft hright => ?_, shape.visited,
    hrep.walk_ascending hchecked.height_le, hrep.nodup_visited .top, fun id => ?_⟩
  · obtain ⟨steps, hway⟩ := hid.exists_way
    refine ⟨steps, hway, fun steps' hway' => ?_⟩
    have hlines := (hrep.lineage .top hway').unique (hrep.lineage .top hway)
    have heq := (List.append_inj' (List.append_cancel_left hlines) rfl).1
    exact ⟨heq, hway.eq_of_map_eq hway' heq⟩
  · -- The child is in order on the left and on the right, so it orders the same.
    have hplacel : s.InPlace order child id .left := hchecked.inPlace_child hid hn hleft
    have hplacer : s.InPlace order child id .right := hchecked.inPlace_child hid hn hright
    obtain ⟨a, b, ha, hb, hle⟩ := hplacel
    obtain ⟨b', a', hb', ha', hge⟩ := hplacer
    rw [ha] at ha'
    rw [hb] at hb'
    cases ha'
    cases hb'
    exact ⟨a, b, ha, hb, OrientedCmp.isLE_antisymm hle hge⟩
  · rw [hrep.mem_visited, hrep.reaches_iff]

/-- Two records of one start, of which the second is linked on both sides of the first. -/
def shared : Store (Entry Nat) :=
  #[⟨{ left := some 1, right := some 1, color := .black, state := .linked }, 5, 9, 9⟩,
    ⟨{ parent := some 0, state := .linked }, 5, 9, 9⟩]

/-- The records pass. Two ways lead to the second one, and the walk does not list the first one. -/
theorem Tree.ways_shared :
    ((⟨some 0⟩ : Tree).validate shared (.of compareStart)).run () = .ok (.ok 1, ()) ∧
    shared.Way (some 0) [(0, .left)] 1 ∧ shared.Way (some 0) [(0, .right)] 1 ∧
    shared.Reaches (some 0) 0 ∧ (⟨some 0⟩ : Tree).walk shared .ascending = .ok [1] :=
  ⟨rfl, .child .left rfl (.here rfl), .child .right rfl (.here rfl), .here rfl, rfl⟩

/-- The way to the second record goes through the first one, and the walk lists the second only. -/
theorem Tree.ways_to_shared :
    (∃ steps, shared.Way (some 0) steps 1 ∧ steps.map Prod.fst = [0]) ∧
    ∃ l, (⟨some 0⟩ : Tree).walk shared .ascending = .ok l ∧ l.Nodup ∧ 0 ∉ l ∧ 1 ∈ l := by
  have hrun : ((⟨some 0⟩ : Tree).validate shared (.of compareStart)).run () =
      .ok (.ok 1, ()) := rfl
  obtain ⟨hways, -, l, hwalk, hnodup, hmem⟩ :=
    ways_of_validate (Comparator.answers_of compareStart) hrun
  have hleft : shared.Way (some 0) [(0, .left)] 1 := .child .left rfl (.here rfl)
  have hsingle : ¬ shared.HasSharedChild 1 := by
    rintro ⟨n, child, hn, hchild, -⟩
    cases hn
    cases hchild
  obtain ⟨steps, hway, hsame⟩ := hways 1 (.child .left rfl (.here rfl))
  refine ⟨⟨steps, hway, (hsame _ hleft).1.symm⟩, l, hwalk, hnodup, fun hzero => ?_, ?_⟩
  · exact ((hmem 0).mp hzero).2 ⟨_, 1, rfl, rfl, rfl⟩
  · exact (hmem 1).mpr ⟨.child .left rfl (.here rfl), hsingle⟩

end RecordTree
