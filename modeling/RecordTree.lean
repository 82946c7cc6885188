import RecordTree.Main
import RecordTree.Walk.Drain
import RecordTree.Proofs.Returns
import RecordTree.Proofs.Shape.Context
import RecordTree.Proofs.Shape.Represents
import RecordTree.Proofs.Augmentation
import RecordTree.Proofs.Tree.Rotate
import RecordTree.Proofs.Tree.MendRed
import RecordTree.Proofs.Tree.MendBlack
import RecordTree.Proofs.Tree.Insert
import RecordTree.Proofs.Tree.Splice
import RecordTree.Proofs.Tree.Erase
import RecordTree.Proofs.Walk.Cursor
import RecordTree.Proofs.Tree.Replace
import RecordTree.Proofs.Walk.PostOrder
import RecordTree.Proofs.Forest.Basic
import RecordTree.Proofs.Forest.Invariant
import RecordTree.Proofs.Sorted
import RecordTree.Proofs.Forest.Order
import RecordTree.Proofs.Interval.Entry
import RecordTree.Proofs.Interval.Reach
import RecordTree.Proofs.CachedTree
import RecordTree.Proofs.Interval.Tree
import RecordTree.Proofs.Interval.Run
import RecordTree.Proofs.Interval.Overlap
import RecordTree.Proofs.Walk.Drain
import RecordTree.Proofs.Interval.Drain
import RecordTree.Proofs.Callbacks
import RecordTree.Proofs.Cached.Run
import RecordTree.Proofs.Walk.InOrder
import RecordTree.Proofs.Guards
import RecordTree.Proofs.Interval.EmptyRange
import RecordTree.Proofs.Tree.Sound
import RecordTree.Proofs.Walk.SharedChild
import RecordTree.Proofs.Lockstep.Basic
import RecordTree.Proofs.Lockstep.Tree
import RecordTree.Proofs.Oblivious
import RecordTree.Proofs.Interval.Twin
import RecordTree.Proofs.Grove.Basic
import RecordTree.Proofs.Grove.Invariant
import RecordTree.Proofs.Lockstep.Within
import RecordTree.Proofs.Grove.Apart
import RecordTree.Proofs.Tree.Halts
import RecordTree.Proofs.Tree.Corrupt
import RecordTree.Proofs.Grove.Validate
import RecordTree.Proofs.Benchmark.Subject
import RecordTree.Proofs.Shape.Height
import RecordTree.Proofs.Benchmark.Items
import RecordTree.Proofs.Benchmark.Segments
import RecordTree.Proofs.Benchmark.Report
import RecordTree.Proofs.Benchmark.CachedRun
import RecordTree.Proofs.Watched.Basic
import RecordTree.Proofs.Watched.Calls
import RecordTree.Proofs.Watched.Protocol
import RecordTree.Proofs.Watched.Questions
import RecordTree.Proofs.Watched.Rotations
import RecordTree.Proofs.Walk.PreOrder
import RecordTree.Proofs.Walk.Recursion
import RecordTree.Proofs.Grove.Find
import RecordTree.Proofs.Walk.Wander
import RecordTree.Proofs.Grove.Clear
import RecordTree.Proofs.Tree.Rename
import RecordTree.Proofs.Grove.Replace
import RecordTree.Proofs.Tree.Nesting
import RecordTree.Proofs.Interval.Validate
import RecordTree.Proofs.Interval.Halts
import RecordTree.Proofs.Interval.Sound
import RecordTree.Proofs.Interval.EmptyInterval
import RecordTree.Proofs.Interval.Search
import RecordTree.Proofs.Shape.Paths
import RecordTree.Proofs.Tree.Stated
import RecordTree.Proofs.Tree.Repair
import RecordTree.Proofs.Watched.Answers
