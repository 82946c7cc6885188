import Mathlib.Data.Finset.Card
import RecordTree.Benchmark.Action
import RecordTree.Benchmark.Line

/-!
# `RecordTree.Proofs.Benchmark.Ledger`: the incremental phase without a tree

What the incremental phase does can be told from its actions alone. A `Ledger` keeps the set of the
items that are linked: those that were loaded or inserted and have not been deleted since. It counts
the actions as the benchmark does, and besides the deletions that hit a linked item.

`Ledger.Adds.foldl` is the sum of it: the items that are linked in the end are those that were
loaded and those that were inserted, less one for each hit.
-/

set_option autoImplicit false

namespace RecordTree.Benchmark

/-- The next `count` actions of a stream of numbers, and what is left of it. -/
def drawActions {γ : Type} [Source γ] : Nat → γ → List Action × γ
  | 0, g => ([], g)
  | count + 1, g =>
    let (action, g) := Action.draw g
    let (actions, g) := drawActions count g
    (action :: actions, g)

/-- An account of items, of which the ids below `size` are taken. -/
structure Ledger where
  size : Nat
  /-- The items that are linked. -/
  linked : Finset Nat
  tally : Tally := {}
  /-- How many deletions hit a linked item. -/
  hits : Nat := 0

namespace Ledger

/-- All items are linked when they have been loaded. -/
def loaded (size : Nat) : Ledger := { size, linked := Finset.range size }

/-- Enters one action. -/
def act (l : Ledger) : Action → Ledger
  | .insert _ =>
    { l with
      size := l.size + 1
      linked := insert l.size l.linked
      tally := { l.tally with inserts := l.tally.inserts + 1 } }
  | .delete pick =>
    if l.size = 0 then l
    else
      { l with
        linked := l.linked.erase (pick % l.size)
        tally := { l.tally with deletes := l.tally.deletes + 1 }
        hits := if pick % l.size ∈ l.linked then l.hits + 1 else l.hits }
  | .find _ =>
    if l.size = 0 then l
    else { l with tally := { l.tally with finds := l.tally.finds + 1 } }

/-- The linked items are taken ids, and as many as were loaded and inserted, less the hits. -/
structure Adds (l : Ledger) (loads : Nat) : Prop where
  lt_size : ∀ id ∈ l.linked, id < l.size
  card_add : l.linked.card + l.hits = loads + l.tally.inserts

/-- The sum is right when the items have been loaded. -/
theorem adds_loaded (size : Nat) : (loaded size).Adds size where
  lt_size _ hid := Finset.mem_range.mp hid
  card_add := by
    show (Finset.range size).card + 0 = size + 0
    rw [Finset.card_range]

variable {l : Ledger} {loads : Nat}

/-- The step: every action keeps the sum. -/
theorem Adds.act (h : l.Adds loads) (action : Action) : (l.act action).Adds loads := by
  have hcard := h.card_add
  cases action with
  | insert key =>
    have hnew : l.size ∉ l.linked := fun hin => Nat.lt_irrefl _ (h.lt_size _ hin)
    constructor
    · intro id hid
      show id < l.size + 1
      rcases Finset.mem_insert.mp hid with rfl | hid
      · exact Nat.lt_succ_self _
      · exact Nat.lt_succ_of_lt (h.lt_size id hid)
    · show (insert l.size l.linked).card + l.hits = loads + (l.tally.inserts + 1)
      rw [Finset.card_insert_of_notMem hnew]
      omega
  | delete pick =>
    by_cases hsize : l.size = 0
    · simpa only [Ledger.act, if_pos hsize] using h
    · simp only [Ledger.act, if_neg hsize]
      constructor
      · intro id hid
        exact h.lt_size id (Finset.mem_of_mem_erase hid)
      · show (l.linked.erase (pick % l.size)).card + (if _ then _ else _) = loads + l.tally.inserts
        by_cases hhit : pick % l.size ∈ l.linked
        · have hpos := Finset.card_pos.mpr ⟨_, hhit⟩
          rw [if_pos hhit, Finset.card_erase_of_mem hhit]
          omega
        · rw [if_neg hhit, Finset.erase_eq_of_notMem hhit]
          exact hcard
  | find pick =>
    by_cases hsize : l.size = 0
    · simpa only [Ledger.act, if_pos hsize] using h
    · simpa only [Ledger.act, if_neg hsize] using ⟨h.lt_size, hcard⟩

/-- The run: all actions keep the sum. -/
theorem Adds.foldl (h : l.Adds loads) (actions : List Action) :
    (actions.foldl Ledger.act l).Adds loads := by
  induction actions generalizing l with
  | nil => exact h
  | cons action actions ih => exact ih (h.act action)

end Ledger

end RecordTree.Benchmark
