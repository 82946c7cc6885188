import RecordTree.Proofs.Shape.Represents

/-!
# `RecordTree.Proofs.Augmentation`: what the tree code and an augmentation owe each other

The tree code promises when it calls an augmentation, and in which state of the links. In
return it relies on two things: the calls leave all nodes alone, and what the augmentation
keeps right about the records of a shape is right again after the calls that go with a
change of the shape. `Right` stands for that. It may look at the payloads, the caller's
context and the shape, but not at links or colours.

* `Augmentation.Turns`: the call after a rotation. `Right` counts the rotations.
* `Augmentation.Grows`: the call after a leaf was linked.
* `Augmentation.Shrinks`: the calls while a node is taken out.

`Augmentation.none` keeps all three for whatever holds of payloads and context, which it leaves
as they are.
-/

set_option autoImplicit false

namespace RecordTree

variable {ρ σ : Type} [Linked ρ]

/-- What the records hold besides their nodes. -/
abbrev Payloads (ρ : Type) := RecordId → Except Fault ρ

/-- The shape without its colours. -/
def Shape.plain : Shape → Shape
  | leaf => leaf
  | node _ l id r => node .black l.plain id r.plain

/-- A join loses its colours part by part. -/
@[simp] theorem Shape.plain_join (side : Side) (c : Color) (a b : Shape) (id : RecordId) :
    (join side c a id b).plain = join side .black a.plain id b.plain := by
  cases side <;> rfl

/-- Shapes that differ in their colours only still do so in one and the same position. -/
theorem Context.plain_fill_congr {C : Context} {t u : Shape} (h : t.plain = u.plain) :
    (C.fill t).plain = (C.fill u).plain := by
  induction C generalizing t u with
  | top => exact h
  | under side c id sibling above ih =>
    refine ih ?_
    simp [h]

namespace Augmentation

/-- After `k` rotations `Right k` holds, and the call of the next one makes it `Right (k + 1)`. -/
structure Turns (aug : Augmentation ρ σ) (Right : Nat → Payloads ρ → σ → Shape → Prop) :
    Prop where
  recolor {k : Nat} {p : Payloads ρ} {x : σ} {old new : Shape} :
    old.plain = new.plain → Right k p x old → Right k p x new
  rotate {k : Nat} {s : Store ρ} {x : σ} {t : Tree} {C : Context} {side : Side} {c d : Color}
      {a b e : Shape} {id up : RecordId} :
    t.HasShape s (C.fill (.join side d (.join side c a id b) up e)) →
    Right k s.payload x (C.fill (.join side c a id (.join side d b up e))) →
    (aug.rotate id up).Returns s x fun _ s' x' =>
      s'.node = s.node ∧
        Right (k + 1) s'.payload x' (C.fill (.join side d (.join side c a id b) up e))

/-- Linking `id` takes `Was` of the tree before to `Now` of the tree with it. -/
structure Grows (aug : Augmentation ρ σ) (id : RecordId) (Was Now : Payloads ρ → σ → Shape → Prop) :
    Prop where
  propagate {s : Store ρ} {x : σ} {t : Tree} {C : Context} :
    t.HasShape s (C.fill (.node .red .leaf id .leaf)) →
    Was s.payload x (C.fill .leaf) →
    (aug.propagate C.parent Option.none).Returns s x fun _ s' x' =>
      s'.node = s.node ∧ Now s'.payload x' (C.fill (.node .red .leaf id .leaf))

/-- Taking `id` out takes `Was` of the tree with it to `Now` of the tree after. A node with two
children is followed in its place by `succ`, the left-most node on its right. -/
structure Shrinks (aug : Augmentation ρ σ) (id : RecordId)
    (Was Now : Payloads ρ → σ → Shape → Prop) : Prop where
  /-- The only child takes the place of `id`. -/
  child {s : Store ρ} {x : σ} {t : Tree} {C : Context} {side : Side} {c : Color} {a : Shape} :
    t.HasShape s (C.fill a) →
    Was s.payload x (C.fill (.join side c a id .leaf)) →
    (aug.propagate C.parent Option.none).Returns s x fun _ s' x' =>
      s'.node = s.node ∧ Now s'.payload x' (C.fill a)
  /-- The right child takes the place of `id`. -/
  next {s : Store ρ} {x : σ} {t : Tree} {C : Context} {c d : Color} {l r : Shape}
      {succ : RecordId} :
    l ≠ .leaf → t.HasShape s (C.fill (.node c l id (.node d .leaf succ r))) →
    Was s.payload x (C.fill (.node c l id (.node d .leaf succ r))) →
    (aug.copy id succ).Returns s x fun _ s₁ x₁ =>
      s₁.node = s.node ∧
        ∀ (t₂ : Tree) (s₂ : Store ρ), s₂.payload = s₁.payload →
          t₂.HasShape s₂ (C.fill (.node c l succ r)) →
          (aug.propagate (some succ) Option.none).Returns s₂ x₁ fun _ s₃ x₃ =>
            s₃.node = s₂.node ∧ Now s₃.payload x₃ (C.fill (.node c l succ r))
  /-- A node further down takes the place of `id`. When the calls start, it has taken over the
  right subtree. -/
  deep {s : Store ρ} {x : σ} {C spine : Context} {c d : Color} {l r : Shape}
      {succ above : RecordId} :
    l ≠ .leaf → spine.parent = some above → spine.before = [] → id < s.size → succ < s.size →
    (C.fill (.node c l succ (spine.fill r))).inorder.Nodup →
    Spells s (some succ) (spine.fill r) →
    Was s.payload x (C.fill (.node c l id (spine.fill (.node d .leaf succ r)))) →
    (aug.copy id succ).Returns s x fun _ s₁ x₁ =>
      s₁.node = s.node ∧ (aug.propagate (some above) (some succ)).Returns s₁ x₁ fun _ s₂ x₂ =>
        s₂.node = s₁.node ∧
          ∀ (t₃ : Tree) (s₃ : Store ρ), s₃.payload = s₂.payload →
            t₃.HasShape s₃ (C.fill (.node c l succ (spine.fill r))) →
            (aug.propagate (some succ) Option.none).Returns s₃ x₂ fun _ s₄ x₄ =>
              s₄.node = s₃.node ∧ Now s₄.payload x₄ (C.fill (.node c l succ (spine.fill r)))

section None

variable (P : Payloads ρ → σ → Prop)

/-- Without callbacks, what holds of the payloads and the context holds after every rotation. -/
theorem turns_none : (none : Augmentation ρ σ).Turns fun _ p x _ => P p x where
  recolor _ h := h
  rotate _ h := Update.returns_pure.mpr ⟨rfl, h⟩

/-- Without callbacks, what holds of the payloads and the context holds after a link. -/
theorem grows_none (id : RecordId) :
    (none : Augmentation ρ σ).Grows id (fun p x _ => P p x) (fun p x _ => P p x) where
  propagate _ h := Update.returns_pure.mpr ⟨rfl, h⟩

/-- Without callbacks, what holds of the payloads and the context holds after a node was taken
out. -/
theorem shrinks_none (id : RecordId) :
    (none : Augmentation ρ σ).Shrinks id (fun p x _ => P p x) (fun p x _ => P p x) where
  child _ h := Update.returns_pure.mpr ⟨rfl, h⟩
  next _ _ h := Update.returns_pure.mpr ⟨rfl, fun _ _ hp _ =>
    Update.returns_pure.mpr ⟨rfl, hp ▸ h⟩⟩
  deep _ _ _ _ _ _ _ h := Update.returns_pure.mpr ⟨rfl, Update.returns_pure.mpr ⟨rfl,
    fun _ _ hp _ => Update.returns_pure.mpr ⟨rfl, hp ▸ h⟩⟩⟩

end None

end Augmentation

end RecordTree
