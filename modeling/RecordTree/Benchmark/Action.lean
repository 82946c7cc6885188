import RecordTree.Benchmark.Source

/-!
# `RecordTree.Benchmark.Action`: what the incremental phase does

Each step of the incremental phase inserts a new item, deletes one or looks one up. Which of
them it is, and with what number, is decoded from 32 bytes: a word of four bytes, low byte
first, selects the action by the third of its range that it falls into, and the next eight or
four bytes are the number.
-/

set_option autoImplicit false

namespace RecordTree.Benchmark

/-- One step of the incremental phase. -/
inductive Action where
  /-- Inserts a new item with this key. -/
  | insert (key : UInt64)
  /-- Deletes the item that this number picks, if it is in the tree. -/
  | delete (pick : Nat)
  /-- Looks up the key of the item that this number picks. -/
  | find (pick : Nat)
deriving DecidableEq

/-- The number that `bytes` write, low byte first. -/
def littleEndian (bytes : List UInt8) : Nat :=
  bytes.foldr (fun byte high => byte.toNat + 256 * high) 0

namespace Action

/-- The action that `bytes` encode. -/
def ofBytes (bytes : List UInt8) : Action :=
  let operand := bytes.drop 4
  match littleEndian (bytes.take 4) * 3 / UInt32.size with
  | 0 => insert (littleEndian (operand.take 8)).toUInt64
  | 1 => delete (littleEndian (operand.take 4))
  | _ => find (littleEndian (operand.take 4))

/-- The next action of a stream of numbers. -/
def draw {γ : Type} [Source γ] (g : γ) : Action × γ :=
  let (bytes, g) := drawBytes 32 g
  (ofBytes bytes, g)

end Action

end RecordTree.Benchmark
