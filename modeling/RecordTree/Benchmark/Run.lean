import RecordTree.Benchmark.Action
import RecordTree.Benchmark.Line
import RecordTree.Benchmark.Options
import RecordTree.Interval.Tree
import RecordTree.Shape

/-!
# `RecordTree.Benchmark.Run`: the benchmark

A run loads items with drawn keys into a tree, looks each of them up, makes a number of
random actions and walks the tree; then it does likewise with intervals and overlap queries.
It is a list of stages (`stages`), each of which moves the `Bench` on and may add a line to
the report. `report` is the whole of them.

The tree is a `Tree` or a `CachedTree`, which are alike to the benchmark (`Subject`).
-/

set_option autoImplicit false

namespace RecordTree.Benchmark

/-- A record with a key of its own. -/
structure Item where
  node : Node := {}
  key : UInt64
deriving DecidableEq

instance : Linked Item where
  node r := r.node
  withNode r n := { r with node := n }

instance : LawfulLinked Item := ⟨fun _ _ => rfl, fun _ => rfl, fun _ _ _ => rfl⟩

/-- Items are ordered by key. -/
def compareKey : Comparator Item Unit := .of fun a b => compare a.key b.key

/-- A search for `key` among items. -/
def probeKey (key : UInt64) : Probe Item Unit := .of fun r => compare r.key key

/-- A kind of tree that the benchmark can be run on. -/
class Subject (τ : Type) where
  /-- An empty tree. -/
  empty : τ
  /-- The plain tree inside. -/
  tree : τ → Tree
  insert : τ → RecordId → Guarded Item Unit τ
  delete : τ → RecordId → Guarded Item Unit τ
  cursor : τ → Store Item → Order → Except Fault Cursor

instance : Subject Tree where
  empty := .empty
  tree t := t
  insert t id := t.insert id compareKey
  delete t id := t.delete id
  cursor t s order := t.cursor s order

instance : Subject CachedTree where
  empty := .empty
  tree t := t.tree
  insert t id := t.insert id compareKey
  delete t id := t.delete id
  cursor t s order := t.cursor s order

/-- What ends a run early. -/
inductive Failure where
  /-- A look-up did not find a loaded item. -/
  | missing (loop : Nat) (id : RecordId)
  /-- A guard turned an insertion down. -/
  | rejected (r : Rejection)
  | fault (f : Fault)
deriving DecidableEq

/-- The wording of a failure. -/
def Failure.message : Failure → String
  | missing loop id => s!"loop-{loop} missing node {id}"
  | rejected r => r.message
  | fault f => f.message

variable {τ γ α : Type} [Source γ]

section Tree

variable [Subject τ]

/-- Appends `count` items with drawn keys. -/
def generate : Nat → γ → Store Item → Store Item × γ
  | 0, g, items => (items, g)
  | count + 1, g, items =>
    let (key, g) := Source.draw g
    generate count g (items.push { key })

/-- Inserts `count` items from `id` on. -/
def load : Nat → RecordId → τ → Guarded Item Unit τ
  | 0, _, t => pure t
  | count + 1, id, t => do
    let t ← Subject.insert t id
    load count (id + 1) t

/-- Looks up the key of record `id`. -/
def lookUp (t : τ) (s : Store Item) (id : RecordId) : Except Fault (Option RecordId) := do
  let r ← s.fetch id
  ((Subject.tree t).find s (probeKey r.key)).run' ()

/-- The first of `count` items from `id` on that a look-up does not find. -/
def firstMissing (t : τ) (s : Store Item) : Nat → RecordId → Except Fault (Option RecordId)
  | 0, _ => pure none
  | count + 1, id => do
    match ← lookUp t s id with
    | some _ => firstMissing t s count (id + 1)
    | none => pure (some id)

/-- The tree after an operation, or as it was if a guard turned the operation down. -/
def attempt (t : τ) (op : Guarded Item Unit τ) : Update Item Unit τ := do
  match ← op.run with
  | .ok t => pure t
  | .error _ => pure t

/-- Makes one action. Only what is made counts: there is nothing to delete or to look up
without items. -/
def act (t : τ) (tally : Tally) : Action → Update Item Unit (τ × Tally)
  | .insert key => do
    let id ← Update.push { key }
    let t ← attempt t (Subject.insert t id)
    pure (t, { tally with inserts := tally.inserts + 1 })
  | .delete pick => do
    let size ← Update.read fun s => pure s.size
    if size = 0 then pure (t, tally)
    else do
      let id := pick % size
      let t ← match (← Update.node id).state with
        | .linked => attempt t (Subject.delete t id)
        | .detached | .removed => pure t
      pure (t, { tally with deletes := tally.deletes + 1 })
  | .find pick => do
    let size ← Update.read fun s => pure s.size
    if size = 0 then pure (t, tally)
    else do
      let _ ← Update.read (lookUp t · (pick % size))
      pure (t, { tally with finds := tally.finds + 1 })

/-- Makes `count` drawn actions. -/
def actAll : Nat → γ → τ → Tally → Update Item Unit ((τ × Tally) × γ)
  | 0, g, t, tally => pure ((t, tally), g)
  | count + 1, g, t, tally => do
    let (action, g) := Action.draw g
    let (t, tally) ← act t tally action
    actAll count g t tally

end Tree

section Segments

/-- Appends `count` intervals with drawn starts and lengths. -/
def generateSegments : Nat → γ → Store (Entry Nat) → Store (Entry Nat) × γ
  | 0, g, entries => (entries, g)
  | count + 1, g, entries =>
    let (start, g) := drawBelow 1000000 g
    let (length, g) := drawBelow 1000 g
    generateSegments count g (entries.push (.of start (start + length + 1)))

/-- Inserts `count` intervals from `id` on. -/
def loadSegments : Nat → RecordId → IntervalTree → Guarded (Entry Nat) Unit IntervalTree
  | 0, _, t => pure t
  | count + 1, id, t => do
    let t ← t.insert id
    loadSegments count (id + 1) t

/-- Puts `count` drawn queries. Returns how many answers they have, on top of `reported`. The count
is a machine word and wraps around, since nothing bounds the number of queries. -/
def queryAll (t : IntervalTree) (s : Store (Entry Nat)) :
    Nat → γ → UInt64 → Except Fault (UInt64 × γ)
  | 0, g, reported => pure (reported, g)
  | count + 1, g, reported => do
    let (lo, g) := drawBelow 1000000 g
    let (length, g) := drawBelow 1000 g
    let answers ← (← t.overlaps s lo (lo + length + 1)).toList s
    queryAll t s count g (reported + UInt64.ofNat answers.length)

end Segments

/-- The state of a run. -/
structure Bench (τ γ : Type) where
  tree : τ
  items : Store Item := #[]
  segments : IntervalTree := .empty
  entries : Store (Entry Nat) := #[]
  /-- What is left of the stream of numbers. -/
  random : γ

/-- A part of a run, with the line that it adds to the report. -/
abbrev Stage (τ γ : Type) := Bench τ γ → Except Failure (Bench τ γ × Option Line)

/-- A computation on records, from its outcome. -/
def outcome : Except Fault α → Except Failure α
  | .ok a => .ok a
  | .error f => .error (.fault f)

/-- An update of records, from its outcome. -/
def updated {ρ : Type} (s : Store ρ) (u : Update ρ Unit α) : Except Failure (α × Store ρ) :=
  match u s () with
  | .ok (result, _) => .ok result
  | .error f => .error (.fault f)

/-- A guarded update of records that must go through, from its outcome. -/
def accepted {ρ : Type} (s : Store ρ) (u : Guarded ρ Unit α) : Except Failure (α × Store ρ) :=
  match u s () with
  | .ok ((.ok a, s), _) => .ok (a, s)
  | .ok ((.error r, _), _) => .error (.rejected r)
  | .error f => .error (.fault f)

namespace Stage

/-- Adds a line and does nothing else. -/
def announce (line : Line) : Stage τ γ := fun b => .ok (b, some line)

/-- Draws the items. -/
def generate (count : Nat) : Stage τ γ := fun ⟨tree, items, segments, entries, random⟩ =>
  let (items, random) := Benchmark.generate count random items
  .ok (⟨tree, items, segments, entries, random⟩, none)

/-- Draws the intervals. -/
def generateSegments (count : Nat) : Stage τ γ :=
  fun ⟨tree, items, segments, entries, random⟩ =>
    let (entries, random) := Benchmark.generateSegments count random entries
    .ok (⟨tree, items, segments, entries, random⟩, none)

/-- Inserts the intervals. -/
def loadSegments : Stage τ γ := fun ⟨tree, items, segments, entries, random⟩ => do
  let size := entries.size
  let (segments, entries) ← accepted entries (Benchmark.loadSegments size 0 segments)
  pure (⟨tree, items, segments, entries, random⟩, some (.loadedSegments size))

/-- Puts `count` overlap queries. -/
def query (count : Nat) : Stage τ γ := fun b => do
  let (reported, random) ← outcome (queryAll b.segments b.entries count b.random 0)
  pure ({ b with random }, some (.queried count reported.toNat))

variable [Subject τ]

/-- Inserts the items. -/
def load : Stage τ γ := fun ⟨tree, items, segments, entries, random⟩ => do
  let size := items.size
  let (tree, items) ← accepted items (Benchmark.load size 0 tree)
  pure (⟨tree, items, segments, entries, random⟩, some (.loaded size))

/-- Measures the longest path of the tree. -/
def measure : Stage τ γ := fun b => do
  let shape ← outcome ((Subject.tree b.tree).shape b.items)
  pure (b, some (.depth shape.height))

/-- Looks every item up, for the `loop`th time. -/
def find (loop : Nat) : Stage τ γ := fun b => do
  match ← outcome (firstMissing b.tree b.items b.items.size 0) with
  | some id => .error (.missing loop id)
  | none => pure (b, some (.found loop b.items.size))

/-- Makes `count` random actions. -/
def act (count : Nat) : Stage τ γ := fun ⟨tree, items, segments, entries, random⟩ => do
  let (((tree, tally), random), items) ← updated items (actAll count random tree {})
  pure (⟨tree, items, segments, entries, random⟩, some (.incremental tally))

/-- Walks the tree and counts the nodes visited. -/
def walk (order : Order) (line : Nat → Line) : Stage τ γ := fun b => do
  let cursor ← outcome (Subject.cursor b.tree b.items order)
  let visited ← outcome (cursor.count b.items)
  pure (b, some (line visited))

end Stage

/-- The stages of a run from `seed`. -/
def stages [Subject τ] (o : Options) (seed : Nat) : List (Stage τ γ) :=
  [.announce (.seed seed), .announce (.generating o.loads), .generate o.loads, .load, .measure]
    ++ (List.range o.loops).map .find
    ++ (if o.incrs = 0 then [] else [.act o.incrs])
    ++ [.walk .ascending .walkedInOrder, .walk .postOrder .walkedPostOrder]
    ++ (if o.segments = 0 then []
      else [.generateSegments o.segments, .loadSegments, .query o.queries])

/-- Goes through stages and collects their lines. -/
def follow : List (Stage τ γ) → Bench τ γ → Except Failure (List Line)
  | [], _ => pure []
  | stage :: rest, b => do
    let (b, line) ← stage b
    (line.toList ++ ·) <$> follow rest b

/-- The report of a run on trees of type `τ` with numbers from `random`. -/
def reportOn (τ : Type) [Subject τ] (o : Options) (seed : Nat) (random : γ) :
    Except Failure (List Line) :=
  follow (stages o seed) { tree := (Subject.empty : τ), random }

/-- The report of a run with the options `o` and numbers from `random`. -/
def report (o : Options) (seed : Nat) (random : γ) : Except Failure (List Line) :=
  if o.cached then reportOn CachedTree o seed random
  else reportOn Tree o seed random

end RecordTree.Benchmark
