import RecordTree.Diagnosis

/-!
# `RecordTree.Store`: records by id

A `Store ρ` is the caller's array of records. Tree code only looks records up by id
(`Store.fetch`, `Store.node`) and changes one of them in place (`Store.modifyAt`); an id that
the store does not have is a `Fault`.

A loop runs on a count of steps that it is given at its start: `Store.walkLimit` for a walk
that reads links, `Store.repairLimit` for a loop that changes records as it goes. A walk that
needs more steps than there are records has met one of them twice, and with it a cycle. The
insertions and deletions take other `Limits` too. On broken links a caller's comparator may well
leave a cycle after any number of steps, and what is said of such stores is said of all limits.
-/

set_option autoImplicit false

namespace RecordTree

variable {ρ : Type}

/-- The caller's records, addressed by id. -/
abbrev Store (ρ : Type) := Array ρ

namespace Store

/-- The record `id`. -/
def fetch (s : Store ρ) (id : RecordId) : Except Fault ρ :=
  if h : id < s.size then .ok s[id] else .error (.outOfRange s.size id)

/-- The record `id` after `f`. -/
def modifyAt (s : Store ρ) (id : RecordId) (f : ρ → ρ) : Except Fault (Store ρ) :=
  if id < s.size then .ok (s.modify id f) else .error (.outOfRange s.size id)

/-- The node of record `id`. -/
def node [Linked ρ] (s : Store ρ) (id : RecordId) : Except Fault Node :=
  Linked.node <$> s.fetch id

/-- More steps than a walk over distinct records can take. -/
def walkLimit (s : Store ρ) : Nat := s.size + 1

/-- The steps granted to a loop that changes records on its way, far more than it takes in a
tree. -/
def repairLimit (s : Store ρ) : Nat := (s.size + 2) * (s.size + 2) * (s.size + 2)

/-- An id below the size of the store has its record. -/
theorem fetch_of_lt {s : Store ρ} {id : RecordId} (h : id < s.size) :
    s.fetch id = .ok s[id] := by
  simp [fetch, h]

/-- An id below the size of the store has its record changed in place. -/
theorem modifyAt_of_lt {s : Store ρ} {id : RecordId} (h : id < s.size) (f : ρ → ρ) :
    s.modifyAt id f = .ok (s.modify id f) :=
  if_pos h

/-- An id that the store does not have is out of range. -/
theorem modifyAt_of_le {s : Store ρ} {id : RecordId} (h : s.size ≤ id) (f : ρ → ρ) :
    s.modifyAt id f = .error (.outOfRange s.size id) :=
  if_neg (Nat.not_lt.mpr h)

/-- An id below the size of the store has the node of its record. -/
theorem node_of_lt [Linked ρ] {s : Store ρ} {id : RecordId} (h : id < s.size) :
    s.node id = .ok (Linked.node s[id]) := by
  simp [node, fetch_of_lt h, Functor.map, Except.map]

end Store

/-- How many steps the loops of a call are granted, by the store on which a loop starts. -/
structure Limits (ρ : Type) where
  /-- For a loop that only reads links. -/
  walk : Store ρ → Nat
  /-- For a loop that changes records on its way. -/
  repair : Store ρ → Nat

/-- More steps than any loop takes in a tree. -/
abbrev Limits.ample : Limits ρ := ⟨Store.walkLimit, Store.repairLimit⟩

end RecordTree
