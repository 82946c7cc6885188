/-!
# `RecordTree.Benchmark.Line`: the report, line by line

A `Line` is one figure of the report. Some lines end in the time that the figure took to get,
which is no part of the line itself.
-/

set_option autoImplicit false

namespace RecordTree.Benchmark

/-- How many actions of each kind the incremental phase made. -/
structure Tally where
  inserts : Nat := 0
  deletes : Nat := 0
  finds : Nat := 0
deriving DecidableEq

/-- One line of the report. -/
inductive Line where
  | seed (seed : Nat)
  | generating (items : Nat)
  | loaded (items : Nat)
  | depth (depth : Nat)
  | found (loop items : Nat)
  | incremental (tally : Tally)
  | walkedInOrder (visited : Nat)
  | walkedPostOrder (visited : Nat)
  | loadedSegments (segments : Nat)
  | queried (queries reported : Nat)
deriving DecidableEq

namespace Line

/-- Whether the line ends in a time. -/
def timed : Line → Bool
  | seed _ | generating _ | depth _ => false
  | _ => true

/-- The line's text, up to the time if there is one. -/
def text : Line → String
  | seed n => s!"seed {n}"
  | generating n => s!"generate {n} nodes"
  | loaded n => s!"loaded {n} items in "
  | depth n => s!"depth {n}"
  | found loop n => s!"find loop-{loop} for {n} items, took "
  | incremental ⟨inserts, deletes, finds⟩ =>
    s!"incremental for operations [{inserts}, {deletes}, {finds}], took "
  | walkedInOrder n => s!"in-order for iterating {n}, took "
  | walkedPostOrder n => s!"post-order for iterating {n}, took "
  | loadedSegments n => s!"loaded {n} segments in "
  | queried queries n => s!"queries {queries} reported {n} segments, took "

/-- The line with the time that it took, written as `elapsed`. -/
def render (line : Line) (elapsed : String) : String :=
  if line.timed then line.text ++ elapsed else line.text

end Line

end RecordTree.Benchmark
