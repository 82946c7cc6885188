import Mathlib.Algebra.Group.Nat.Defs
import RecordTree.Proofs.Shape.Context

/-!
# `RecordTree.Proofs.Shape.Height`: how high a tree with so many nodes can be

The height of a shape is bounded by its size on both sides: a path cannot be so short that the
nodes do not fit above it (`Shape.size_lt_two_pow_height`), and in a red-black tree not so long
that the other paths, which have as many blacks, would need more nodes than there are
(`Shape.RedBlack.two_pow_height_le`).
-/

set_option autoImplicit false

namespace RecordTree

namespace Shape

variable {t : Shape} {h : Nat}

/-- Every level has a node. -/
theorem height_le_size (t : Shape) : t.height ≤ t.size := by
  induction t with
  | leaf => exact Nat.le_refl 0
  | node c l id r ihl ihr =>
    simp only [height, size]
    omega

/-- Every level has at most twice as many nodes as the one above it. -/
theorem size_lt_two_pow_height (t : Shape) : t.size < 2 ^ t.height := by
  induction t with
  | leaf => exact Nat.one_pos
  | node c l id r ihl ihr =>
    have hl : 2 ^ l.height ≤ 2 ^ max l.height r.height :=
      Nat.pow_le_pow_right Nat.two_pos (Nat.le_max_left _ _)
    have hr : 2 ^ r.height ≤ 2 ^ max l.height r.height :=
      Nat.pow_le_pow_right Nat.two_pos (Nat.le_max_right _ _)
    show l.size + 1 + r.size < 2 ^ (1 + max l.height r.height)
    rw [Nat.pow_add]
    omega

/-- A tree has at least the black nodes that every path has. -/
theorem Balanced.two_pow_le (hb : t.Balanced h) : 2 ^ h ≤ t.size + 1 := by
  induction hb with
  | leaf => exact Nat.le_refl 1
  | red _ _ _ _ ihl ihr =>
    simp only [size]
    omega
  | black _ _ ihl ihr =>
    simp only [size, Nat.pow_succ]
    omega

/-- On a path there are no more reds than blacks, but for one at the top. -/
theorem Balanced.height_le (hb : t.Balanced h) :
    t.height ≤ if t.color = .red then 2 * h + 1 else 2 * h := by
  induction hb with
  | leaf => exact Nat.le_refl 0
  | red _ _ hl hr ihl ihr =>
    simp only [hl, hr, reduceCtorEq, if_false] at ihl ihr
    simp only [height, color, if_true]
    omega
  | @black h l r _ _ _ ihl ihr =>
    have hl : l.height ≤ 2 * h + 1 := by
      split_ifs at ihl <;> omega
    have hr : r.height ≤ 2 * h + 1 := by
      split_ifs at ihr <;> omega
    simp only [height, color, reduceCtorEq, if_false]
    omega

/-- The height of a red-black tree is at most twice the logarithm of its size. -/
theorem RedBlack.two_pow_height_le (hb : t.RedBlack h) : 2 ^ t.height ≤ (t.size + 1) ^ 2 := by
  obtain ⟨hcolor, hbalanced⟩ := hb
  have hheight := hbalanced.height_le
  rw [hcolor] at hheight
  simp only [reduceCtorEq, if_false] at hheight
  calc 2 ^ t.height
    _ ≤ 2 ^ (h * 2) := Nat.pow_le_pow_right Nat.two_pos (by omega)
    _ = (2 ^ h) ^ 2 := Nat.pow_mul 2 h 2
    _ ≤ (t.size + 1) ^ 2 := Nat.pow_le_pow_left hbalanced.two_pow_le 2

end Shape

end RecordTree
