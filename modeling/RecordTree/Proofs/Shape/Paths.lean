import Mathlib.Data.List.Chain
import RecordTree.Proofs.Tree.MendBlack

/-!
# `RecordTree.Proofs.Shape.Paths`: red-black rules path by path

The rules of a red-black tree speak of the paths from the root down to the empty positions: each has
the same number of black nodes, and on none does red follow red. `Shape.paths` lists them, and
`Shape.balanced_iff_paths` says that `Shape.Balanced` is the same thing by recursion.

A tree in which the rules hold but at one place is described best by its paths, too. The paths of
a tree with an open position are those that come to the position, all with the same steps on the
way there (`Context.trail`), and those that turn off before (`Context.detours`). What is known of
the two tells what fits the position (`Context.fits_of_paths`).

* `Shape.ClashAt`: one node may be red under red, or red at the root. The tree below it is balanced
  and what is around it fits (`Shape.ClashAt.exists_fits`).
* `Shape.ClashBelow`: a red top may have red children, and is mended by painting it black
  (`Shape.ClashBelow.mendable`).
* `Shape.ShortAt`: the paths through one position have one black too few. What is there can be
  mended, and what is around it fits one black more (`Shape.ShortAt.exists_fits`).
-/

set_option autoImplicit false

namespace RecordTree

/-! ### Paths -/

/-- A step down from a node. -/
structure Step where
  id : RecordId
  color : Color
  side : Side
deriving DecidableEq

/-- The number of black nodes on a path. -/
def blacks (path : List Step) : Nat := path.countP (·.color = .black)

/-- Where red meets red on the path, `P` holds of the two nodes. -/
def ClashOnly (P : RecordId → RecordId → Prop) (path : List Step) : Prop :=
  path.IsChain fun above below => above.color = .red → below.color = .red → P above.id below.id

/-- Red never meets red on the path. -/
abbrev Apart (path : List Step) : Prop := ClashOnly (fun _ _ => False) path

/-- The path leaves the node `id` on that side. -/
def Through (id : RecordId) (side : Side) (path : List Step) : Prop :=
  ∃ step ∈ path, step.id = id ∧ step.side = side

instance (P : RecordId → RecordId → Prop) [∀ i j, Decidable (P i j)] (path : List Step) :
    Decidable (ClashOnly P path) :=
  inferInstanceAs (Decidable (path.IsChain _))

instance (id : RecordId) (side : Side) (path : List Step) : Decidable (Through id side path) :=
  inferInstanceAs (Decidable (∃ step ∈ path, _))

section Lists

variable {P Q : RecordId → RecordId → Prop} {step : Step} {path rest : List Step}

/-- A path without steps has no blacks. -/
@[simp] theorem blacks_nil : blacks [] = 0 := rfl

/-- The blacks of two paths in sequence add up. -/
@[simp] theorem blacks_append : blacks (path ++ rest) = blacks path + blacks rest :=
  List.countP_append

/-- A step from a red node adds no black. -/
theorem blacks_cons_red (h : step.color = .red) : blacks (step :: path) = blacks path := by
  simp [blacks, h]

/-- A step from a black node adds one. -/
theorem blacks_cons_black (h : step.color = .black) :
    blacks (step :: path) = blacks path + 1 := by
  simp [blacks, h]

/-- Red meets red at the first step, or further down. -/
theorem clashOnly_cons : ClashOnly P (step :: path) ↔
    (∀ next ∈ path.head?, step.color = .red → next.color = .red → P step.id next.id) ∧
      ClashOnly P path :=
  List.isChain_cons

/-- What holds of all clashes on a path holds of those after the first step. -/
theorem ClashOnly.tail (h : ClashOnly P path) : ClashOnly P path.tail := List.IsChain.tail h

/-- Only the steps of the path itself count. -/
theorem ClashOnly.apart (h : ClashOnly P path)
    (hP : ∀ above ∈ path, ∀ below ∈ path.tail, ¬ P above.id below.id) : Apart path :=
  List.IsChain.imp_of_mem_tail_imp (fun above below habove hbelow hclash hred hred' =>
    hP above habove below hbelow (hclash hred hred')) h

end Lists

namespace Shape

/-- The paths from the top down to each empty position. -/
def paths : Shape → List (List Step)
  | leaf => [[]]
  | node c l id r => l.paths.map (⟨id, c, .left⟩ :: ·) ++ r.paths.map (⟨id, c, .right⟩ :: ·)

variable {t : Shape} {path : List Step} {step : Step} {side : Side} {c : Color} {a b : Shape}
  {id : RecordId} {h : Nat} {P : RecordId → RecordId → Prop}

/-- An empty shape has one path, which has no steps. -/
theorem mem_paths_leaf : path ∈ leaf.paths ↔ path = [] := List.mem_singleton

/-- The paths of a join go to the one side or to the other, from the top. -/
theorem mem_paths_join : path ∈ (join side c a id b).paths ↔
    (∃ rest ∈ a.paths, path = ⟨id, c, side⟩ :: rest) ∨
      ∃ rest ∈ b.paths, path = ⟨id, c, side.flip⟩ :: rest := by
  cases side with
  | left => simp [join, paths, eq_comm]
  | right => simp [join, paths, eq_comm, or_comm]

/-- To know all paths of a join is to know those to each side. -/
theorem forall_paths_join {Q : List Step → Prop} :
    (∀ path ∈ (join side c a id b).paths, Q path) ↔
      (∀ path ∈ a.paths, Q (⟨id, c, side⟩ :: path)) ∧
        ∀ path ∈ b.paths, Q (⟨id, c, side.flip⟩ :: path) := by
  constructor
  · intro hall
    exact ⟨fun path hpath => hall _ (mem_paths_join.mpr (.inl ⟨path, hpath, rfl⟩)),
      fun path hpath => hall _ (mem_paths_join.mpr (.inr ⟨path, hpath, rfl⟩))⟩
  · rintro ⟨ha, hb⟩ path hpath
    obtain ⟨rest, hrest, rfl⟩ | ⟨rest, hrest, rfl⟩ := mem_paths_join.mp hpath
    · exact ha rest hrest
    · exact hb rest hrest

/-- There is a path in every shape. -/
theorem exists_path (t : Shape) : ∃ path, path ∈ t.paths := by
  induction t with
  | leaf => exact ⟨[], mem_paths_leaf.mpr rfl⟩
  | node c l id r ihl _ =>
    obtain ⟨path, hpath⟩ := ihl
    exact ⟨⟨id, c, .left⟩ :: path, by simp [paths, hpath]⟩

/-- A path goes through nodes of the tree. -/
theorem mem_of_path (hpath : path ∈ t.paths) (hstep : step ∈ path) : step.id ∈ t.inorder := by
  induction t generalizing path with
  | leaf =>
    rw [mem_paths_leaf] at hpath
    simp [hpath] at hstep
  | node c l id r ihl ihr =>
    rw [← join_left, mem_paths_join] at hpath
    rw [← join_left, mem_join]
    rcases hpath with ⟨rest, hrest, rfl⟩ | ⟨rest, hrest, rfl⟩ <;>
      rcases List.mem_cons.mp hstep with rfl | hin
    · exact .inl rfl
    · exact .inr (.inl (ihl hrest hin))
    · exact .inl rfl
    · exact .inr (.inr (ihr hrest hin))

/-- A path starts at the top. -/
theorem head_of_path (hpath : path ∈ t.paths) (hstep : step ∈ path.head?) :
    t.root? = some step.id ∧ t.color = step.color := by
  cases t with
  | leaf =>
    rw [mem_paths_leaf] at hpath
    simp [hpath] at hstep
  | node c l id r =>
    rw [← join_left, mem_paths_join] at hpath
    obtain ⟨rest, -, rfl⟩ | ⟨rest, -, rfl⟩ := hpath <;> cases hstep <;> exact ⟨rfl, rfl⟩

/-- Below a red top every path starts with a red node. -/
theorem exists_red_head (hred : t.color = .red) (hpath : path ∈ t.paths) :
    ∃ next ∈ path.head?, next.color = .red := by
  cases t with
  | leaf => cases hred
  | node c l id r =>
    rw [← join_left, mem_paths_join] at hpath
    obtain ⟨rest, -, rfl⟩ | ⟨rest, -, rfl⟩ := hpath <;> exact ⟨_, rfl, hred⟩

/-- What the rules for paths say below a red node. -/
theorem forall_cons_red :
    (∀ path ∈ t.paths, blacks (⟨id, .red, side⟩ :: path) = h ∧ Apart (⟨id, .red, side⟩ :: path)) ↔
      (∀ path ∈ t.paths, blacks path = h ∧ Apart path) ∧ t.color = .black := by
  constructor
  · intro hall
    refine ⟨fun path hpath => ?_, ?_⟩
    · obtain ⟨hblacks, hapart⟩ := hall path hpath
      rw [blacks_cons_red rfl] at hblacks
      exact ⟨hblacks, (clashOnly_cons.mp hapart).2⟩
    · cases hcolor : t.color with
      | black => rfl
      | red =>
        -- On any path the red top would come right after the red node.
        obtain ⟨path, hpath⟩ := t.exists_path
        obtain ⟨next, hnext, hred⟩ := exists_red_head hcolor hpath
        exact ((clashOnly_cons.mp (hall path hpath).2).1 next hnext rfl hred).elim
  · rintro ⟨hall, hblack⟩ path hpath
    refine ⟨by rw [blacks_cons_red rfl, (hall path hpath).1], clashOnly_cons.mpr ⟨?_, ?_⟩⟩
    · intro next hnext _ hred
      rw [← (head_of_path hpath hnext).2, hblack] at hred
      cases hred
    · exact (hall path hpath).2

/-- What the rules for paths say below a black node. -/
theorem forall_cons_black :
    (∀ path ∈ t.paths, blacks (⟨id, .black, side⟩ :: path) = h + 1 ∧
      Apart (⟨id, .black, side⟩ :: path)) ↔ ∀ path ∈ t.paths, blacks path = h ∧ Apart path := by
  refine forall₂_congr fun path _ => ?_
  rw [blacks_cons_black rfl, Nat.add_right_cancel_iff, Apart, clashOnly_cons]
  simp

/-- A shape is balanced if each path has the same number of black nodes and on none does red
meet red. -/
theorem balanced_iff_paths : t.Balanced h ↔ ∀ path ∈ t.paths, blacks path = h ∧ Apart path := by
  induction t generalizing h with
  | leaf =>
    constructor
    · rintro ⟨⟩ path hpath
      obtain rfl := mem_paths_leaf.mp hpath
      exact ⟨rfl, List.isChain_nil⟩
    · intro hall
      obtain rfl : 0 = h := (hall [] (mem_paths_leaf.mpr rfl)).1
      exact .leaf
  | node c l id r ihl ihr =>
    rw [← join_left, forall_paths_join]
    cases c with
    | red =>
      rw [balanced_join_red, ihl, ihr, forall_cons_red, forall_cons_red]
      tauto
    | black =>
      cases h with
      | zero =>
        -- There is a path, and it has a black node.
        obtain ⟨path, hpath⟩ := l.exists_path
        refine iff_of_false (fun hb => ?_) fun hall => ?_
        · cases pos_of_balanced_black hb with
          | intro k hk => cases hk
        · have hzero := (hall.1 path hpath).1
          rw [blacks_cons_black rfl] at hzero
          cases hzero
      | succ h =>
        rw [balanced_join_black, ihl, ihr, forall_cons_black, forall_cons_black]

end Shape

/-! ### Paths and positions -/

namespace Context

/-- The steps down to the position. -/
def trail : Context → List Step
  | top => []
  | under side color id _ above => above.trail ++ [⟨id, color, side⟩]

/-- The paths that do not come to the position. -/
def detours : Context → List (List Step)
  | top => []
  | under side color id sibling above =>
    above.detours ++ sibling.paths.map (above.trail ++ ⟨id, color, side.flip⟩ :: ·)

variable {C : Context} {t : Shape} {path : List Step} {step : Step} {total h : Nat}

/-- A path comes to the position, or turns off before. -/
theorem mem_paths_fill : path ∈ (C.fill t).paths ↔
    (∃ rest ∈ t.paths, path = C.trail ++ rest) ∨ path ∈ C.detours := by
  -- On the way up the tree in the position grows by one node, so `t` varies.
  induction C generalizing t with
  | top => simp [fill, trail, detours]
  | under side c id sibling above ih =>
    rw [fill, ih]
    simp only [Shape.mem_paths_join, trail, detours, List.mem_append, List.mem_map,
      List.append_assoc, List.singleton_append]
    constructor
    · rintro (⟨_, ⟨rest, hrest, rfl⟩ | ⟨rest, hrest, rfl⟩, rfl⟩ | hdetour)
      · exact .inl ⟨rest, hrest, rfl⟩
      · exact .inr (.inr ⟨rest, hrest, rfl⟩)
      · exact .inr (.inl hdetour)
    · rintro (⟨rest, hrest, rfl⟩ | hdetour | ⟨rest, hrest, rfl⟩)
      · exact .inl ⟨_, .inl ⟨rest, hrest, rfl⟩, rfl⟩
      · exact .inr hdetour
      · exact .inl ⟨_, .inr ⟨rest, hrest, rfl⟩, rfl⟩

/-- The steps down to a position leave nodes around it. -/
theorem mem_ids_of_trail (hstep : step ∈ C.trail) : step.id ∈ C.ids := by
  induction C with
  | top => cases hstep
  | under side c id sibling above ih =>
    rw [trail, List.mem_append, List.mem_singleton] at hstep
    rw [mem_ids_under]
    rcases hstep with hin | rfl
    · exact .inr (.inr (ih hin))
    · exact .inl rfl

/-- A path that does not come to the position goes by nodes around it. -/
theorem mem_ids_of_detour (hpath : path ∈ C.detours) (hstep : step ∈ path) :
    step.id ∈ C.ids := by
  induction C with
  | top => cases hpath
  | under side c id sibling above ih =>
    rw [detours, List.mem_append, List.mem_map] at hpath
    rw [mem_ids_under]
    rcases hpath with hpath | ⟨rest, hrest, rfl⟩
    · exact .inr (.inr (ih hpath))
    · rcases List.mem_append.mp hstep with hin | hin
      · exact .inr (.inr (mem_ids_of_trail hin))
      · rcases List.mem_cons.mp hin with rfl | hin
        · exact .inl rfl
        · exact .inr (.inl (Shape.mem_of_path hrest hin))

/-- A path that does not come to a position does not leave the node above it on that side. -/
theorem not_through_of_detour {side : Side} {c : Color} {id : RecordId} {sibling : Shape}
    {above : Context} (hnodup : (under side c id sibling above).ids.Nodup)
    (hpath : path ∈ (under side c id sibling above).detours) : ¬ Through id side path := by
  rintro ⟨step, hstep, hid, hside⟩
  obtain ⟨hidsib, hidabove, -, -, -⟩ := nodup_ids_under.mp hnodup
  rw [detours, List.mem_append, List.mem_map] at hpath
  rcases hpath with hpath | ⟨rest, hrest, rfl⟩
  · exact hidabove (hid ▸ mem_ids_of_detour hpath hstep)
  · rcases List.mem_append.mp hstep with hin | hin
    · exact hidabove (hid ▸ mem_ids_of_trail hin)
    · rcases List.mem_cons.mp hin with rfl | hin
      · cases side <;> cases hside
      · exact hidsib (hid ▸ Shape.mem_of_path hrest hin)

/-- The rules for the paths that turn off before a position, and for the way there, say what has to
come into it. -/
theorem fits_of_paths (hdetours : ∀ path ∈ C.detours, blacks path = total ∧ Apart path)
    (htrail : Apart C.trail) (hroot : ∀ step ∈ C.trail.head?, step.color = .black)
    (hheight : blacks C.trail + h = total) : C.Fits total h := by
  -- From the position up. Each node has a sibling subtree that the detours say all about.
  induction C generalizing h with
  | top =>
    obtain rfl : h = total := by simpa [trail] using hheight
    exact .top
  | under side c id sibling above ih =>
    simp only [detours, List.mem_append, List.mem_map] at hdetours
    obtain ⟨htrailabove, -, hlast⟩ := List.isChain_append.mp htrail
    have hrootabove : ∀ step ∈ above.trail.head?, step.color = .black := by
      intro step hstep
      refine hroot step ?_
      rw [trail, List.head?_append, Option.mem_def.mp hstep]
      rfl
    have habove : ∀ path ∈ above.detours, blacks path = total ∧ Apart path := fun path hpath =>
      hdetours path (.inl hpath)
    rw [trail, blacks_append] at hheight
    have hsib : ∀ path ∈ sibling.paths,
        blacks (⟨id, c, side.flip⟩ :: path) = blacks [⟨id, c, side⟩] + h ∧
          Apart (⟨id, c, side.flip⟩ :: path) := by
      intro path hpath
      obtain ⟨hblacks, hapart⟩ := hdetours _ (.inr ⟨path, hpath, rfl⟩)
      rw [blacks_append] at hblacks
      exact ⟨by omega, (List.isChain_append.mp hapart).2.1⟩
    cases c with
    | red =>
      have hnone : blacks [⟨id, .red, side⟩] = 0 := rfl
      rw [hnone, Nat.zero_add] at hsib
      obtain ⟨hpaths, hblack⟩ := Shape.forall_cons_red.mp hsib
      refine .red (Shape.balanced_iff_paths.mpr hpaths) hblack ?_
        (ih habove htrailabove hrootabove (by omega))
      -- The node above the red one is black, and there is one, since the root is not red.
      cases above with
      | top => cases hroot _ rfl
      | under side' c' id' sibling' above' =>
        cases c' with
        | black => rfl
        | red => exact (hlast ⟨id', .red, side'⟩ (by simp [trail]) _ rfl rfl rfl).elim
    | black =>
      have hone : blacks [⟨id, .black, side⟩] = 1 := rfl
      rw [hone, Nat.add_comm 1] at hsib
      have hpaths := Shape.forall_cons_black.mp hsib
      exact .black (Shape.balanced_iff_paths.mpr hpaths)
        (ih habove htrailabove hrootabove (by omega))

end Context

/-! ### One place where the rules do not hold -/

namespace Shape

variable {t u : Shape} {id : RecordId} {h height : Nat} {C : Context}

/-- The rules hold, but for a red top that may have red children. -/
structure ClashBelow (t : Shape) (height : Nat) : Prop where
  clashes : ∀ path ∈ t.paths, ClashOnly (fun above _ => t.root? = some above) path
  level : ∀ path ∈ t.paths, blacks path = height

/-- The rules hold, but for a node `id` that may be red under red, or red at the root. -/
structure ClashAt (t : Shape) (id : RecordId) (height : Nat) : Prop where
  root : t.root? = some id ∨ t.color = .black
  clashes : ∀ path ∈ t.paths, ClashOnly (fun _ below => below = id) path
  level : ∀ path ∈ t.paths, blacks path = height

/-- The paths through the position at `side` of `p`, which holds `id`, have one black too few. The
other rules hold, but red may meet red above and below `id`. -/
structure ShortAt (t : Shape) (p : RecordId) (side : Side) (id : Option RecordId) (height : Nat) :
    Prop where
  root : t.color = .black
  clashes : ∀ path ∈ t.paths, ClashOnly (fun above below => id = some above ∨ id = some below) path
  short : ∀ path ∈ t.paths, Through p side path → blacks path + 1 = height
  level : ∀ path ∈ t.paths, ¬ Through p side path → blacks path = height

/-- Behind its first step a path does not come to the top again. -/
theorem root?_ne_of_mem_tail (hnodup : t.inorder.Nodup) {path : List Step}
    (hpath : path ∈ t.paths) {step : Step} (hstep : step ∈ path.tail) :
    t.root? ≠ some step.id := by
  cases t with
  | leaf =>
    rw [mem_paths_leaf] at hpath
    simp [hpath] at hstep
  | node c l id r =>
    rw [← join_left] at hnodup hpath ⊢
    obtain ⟨hidl, hidr, -, -, -⟩ := nodup_join.mp hnodup
    rw [root?_join, ne_eq, Option.some.injEq]
    rintro rfl
    obtain ⟨rest, hrest, rfl⟩ | ⟨rest, hrest, rfl⟩ := mem_paths_join.mp hpath
    · exact hidl (mem_of_path hrest hstep)
    · exact hidr (mem_of_path hrest hstep)

/-- If red meets red at most at nodes of the tree in a position, then it does so on no path that
does not come there, nor on the way there. -/
theorem apart_of_clashes {P : RecordId → RecordId → Prop}
    (hP : ∀ above below, P above below → above ∈ u.inorder ∨ below ∈ u.inorder)
    (hnodup : (C.fill u).inorder.Nodup) (hclash : ∀ path ∈ (C.fill u).paths, ClashOnly P path) :
    (∀ path ∈ C.detours, Apart path) ∧ Apart C.trail ∧ ∀ path ∈ u.paths, ClashOnly P path := by
  obtain ⟨-, -, hdisj⟩ := Context.nodup_fill.mp hnodup
  have hcome : ∀ path ∈ u.paths, ClashOnly P (C.trail ++ path) := fun path hpath =>
    hclash _ (Context.mem_paths_fill.mpr (.inl ⟨path, hpath, rfl⟩))
  -- Nodes around the position are none of those in it.
  have hout : ∀ path, ClashOnly P path → (∀ step ∈ path, step.id ∈ C.ids) → Apart path := by
    intro path hpath hids
    refine hpath.apart fun above habove below hbelow hPab => ?_
    rcases hP _ _ hPab with hin | hin
    · exact hdisj hin (hids above habove)
    · exact hdisj hin (hids below (List.mem_of_mem_tail hbelow))
  obtain ⟨path, hpath⟩ := u.exists_path
  refine ⟨fun path hpath => ?_, ?_, fun path hpath => ?_⟩
  · exact hout path (hclash path (Context.mem_paths_fill.mpr (.inr hpath))) fun step hstep =>
      Context.mem_ids_of_detour hpath hstep
  · exact hout _ (List.isChain_append.mp (hcome path hpath)).1 fun step hstep =>
      Context.mem_ids_of_trail hstep
  · exact (List.isChain_append.mp (hcome path hpath)).2.1

/-- The first step on the way to a position leaves the root. -/
theorem head_of_trail {step : Step} (hstep : step ∈ C.trail.head?) :
    (C.fill u).root? = some step.id ∧ (C.fill u).color = step.color := by
  obtain ⟨path, hpath⟩ := u.exists_path
  refine head_of_path (Context.mem_paths_fill.mpr (.inl ⟨path, hpath, rfl⟩)) ?_
  rw [List.head?_append, Option.mem_def.mp hstep]
  rfl

/-- A tree whose only fault is below the top can be mended by painting that black. -/
theorem ClashBelow.mendable (hu : u.ClashBelow h) (hnodup : u.inorder.Nodup) : u.Mendable h := by
  -- Behind the first step of a path nothing is wrong.
  have hpaths : ∀ path ∈ u.paths, blacks path = h ∧ Apart path.tail := by
    intro path hpath
    refine ⟨hu.level path hpath, (hu.clashes path hpath).tail.apart ?_⟩
    intro above habove _ _
    exact root?_ne_of_mem_tail hnodup hpath habove
  cases u with
  | leaf =>
    obtain rfl : 0 = h := (hpaths [] (mem_paths_leaf.mpr rfl)).1
    exact Balanced.leaf.mendable
  | node c l id r =>
    rw [← join_left, forall_paths_join] at hpaths
    obtain ⟨hl, hr⟩ := hpaths
    cases c with
    | red =>
      simp only [blacks_cons_red, List.tail_cons] at hl hr
      exact .black (balanced_iff_paths.mpr hl) (balanced_iff_paths.mpr hr)
    | black =>
      simp only [blacks_cons_black, List.tail_cons] at hl hr
      obtain ⟨path, hpath⟩ := l.exists_path
      obtain ⟨k, rfl⟩ : ∃ k, h = k + 1 := ⟨_, (hl path hpath).1.symm⟩
      simp only [Nat.add_right_cancel_iff] at hl hr
      exact .black (balanced_iff_paths.mpr hl) (balanced_iff_paths.mpr hr)

/-- Below the node that may be red under red there is a balanced tree, and all around fits. -/
theorem ClashAt.exists_fits (ht : (C.fill u).ClashAt id height) (hroot : u.root? = some id)
    (hnodup : (C.fill u).inorder.Nodup) : ∃ h, u.Balanced h ∧ C.Fits height h := by
  obtain ⟨hu, -, hdisj⟩ := Context.nodup_fill.mp hnodup
  have hid : id ∈ u.inorder := mem_of_root? hroot
  obtain ⟨hdetours, htrail, hclashes⟩ :=
    apart_of_clashes (fun _ _ heq => .inr (heq ▸ hid)) hnodup ht.clashes
  have hcome : ∀ path ∈ u.paths, blacks C.trail + blacks path = height := by
    intro path hpath
    rw [← blacks_append]
    exact ht.level _ (Context.mem_paths_fill.mpr (.inl ⟨path, hpath, rfl⟩))
  obtain ⟨first, hfirst⟩ := u.exists_path
  refine ⟨blacks first, balanced_iff_paths.mpr fun path hpath => ⟨?_, ?_⟩, ?_⟩
  · exact Nat.add_left_cancel ((hcome path hpath).trans (hcome first hfirst).symm)
  · refine (hclashes path hpath).apart ?_
    rintro above habove below hbelow rfl
    exact root?_ne_of_mem_tail hu hpath hbelow hroot
  · refine Context.fits_of_paths (fun path hpath => ⟨?_, hdetours path hpath⟩) htrail ?_
      (hcome first hfirst)
    · exact ht.level path (Context.mem_paths_fill.mpr (.inr hpath))
    · intro step hstep
      obtain ⟨htop, hcolor⟩ := head_of_trail (u := u) hstep
      -- The node itself can only be the root if there is nothing above it.
      rcases ht.root with heq | hblack
      · obtain rfl : step.id = id := Option.some.inj (htop.symm.trans heq)
        exact absurd (Context.mem_ids_of_trail (List.mem_of_mem_head? hstep)) (hdisj hid)
      · exact hcolor.symm.trans hblack

/-- In the position that is short of a black there is a tree that can be mended, and all around
fits one black more. -/
theorem ShortAt.exists_fits {side : Side} {c : Color} {p : RecordId} {sibling : Shape}
    (ht : ((Context.under side c p sibling C).fill u).ShortAt p side u.root? height)
    (hnodup : ((Context.under side c p sibling C).fill u).inorder.Nodup) :
    ∃ h, u.Mendable h ∧ (Context.under side c p sibling C).Fits height (h + 1) := by
  obtain ⟨hu, hids, -⟩ := Context.nodup_fill.mp hnodup
  obtain ⟨hdetours, htrail, hclashes⟩ := apart_of_clashes (fun _ _ hP =>
    hP.imp (fun heq => mem_of_root? heq) fun heq => mem_of_root? heq) hnodup ht.clashes
  -- All paths through the position are short of one black.
  have hcome : ∀ path ∈ u.paths,
      blacks (Context.under side c p sibling C).trail + (blacks path + 1) = height := by
    intro path hpath
    rw [← Nat.add_assoc, ← blacks_append]
    refine ht.short _ (Context.mem_paths_fill.mpr (.inl ⟨path, hpath, rfl⟩)) ?_
    exact ⟨⟨p, c, side⟩, by simp [Context.trail], rfl, rfl⟩
  obtain ⟨first, hfirst⟩ := u.exists_path
  refine ⟨blacks first, ClashBelow.mendable ⟨fun path hpath => ?_, fun path hpath => ?_⟩ hu, ?_⟩
  · -- Inside the tree nothing comes above its top, so a clash there is one below the top.
    refine List.IsChain.imp_of_mem_tail_imp ?_ (hclashes path hpath)
    intro above below _ hbelow hP hred hred'
    exact (hP hred hred').resolve_right (root?_ne_of_mem_tail hu hpath hbelow)
  · have hsame := (hcome path hpath).trans (hcome first hfirst).symm
    omega
  · refine Context.fits_of_paths (fun path hpath => ⟨?_, hdetours path hpath⟩) htrail ?_
      (hcome first hfirst)
    · exact ht.level path (Context.mem_paths_fill.mpr (.inr hpath))
        (Context.not_through_of_detour hids hpath)
    · intro step hstep
      exact (head_of_trail (u := u) hstep).2.symm.trans ht.root

end Shape

end RecordTree
