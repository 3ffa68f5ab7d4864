import VisualIndex.WeightTable

/-! Gaussian tables shared by their parameters.

The key takes the bits of `sigma`, so values that are equal as numbers but differ in
their bits have tables of their own. A shared table carries its serial number: two
handles are the same table exactly when the serials agree. A caller first looks its key
up; after a miss it asks again and inserts in one step, since another caller may have
inserted meanwhile. -/
namespace VisualIndex

structure WeightKey where
  bits : Nat
  sigma : Single
  cutoff : Nat
  deriving DecidableEq

/-- The table a key stands for. -/
def WeightKey.table (k : WeightKey) : WeightTable := .gaussian k.bits k.sigma k.cutoff

structure SharedTable where
  serial : Nat
  table : WeightTable
  deriving DecidableEq

/-- The keys inserted so far with their tables, the oldest first. -/
structure WeightCache where
  slots : List (WeightKey × SharedTable)

namespace WeightCache

def empty : WeightCache := ⟨[]⟩

/-- The table of a key, if it is there. -/
def find? (c : WeightCache) (k : WeightKey) : Option SharedTable :=
  (c.slots.find? (·.1 = k)).map (·.2)

/-- The table of a key, made and kept if it is not there. -/
def findOrInsert (c : WeightCache) (k : WeightKey) : SharedTable × WeightCache :=
  match c.find? k with
  | some shared => (shared, c)
  | none =>
    let shared : SharedTable := ⟨c.slots.length, k.table⟩
    (shared, ⟨c.slots ++ [(k, shared)]⟩)

/-- A whole request: look up, and insert after a miss. -/
def request (c : WeightCache) (k : WeightKey) : SharedTable × WeightCache :=
  match c.find? k with
  | some shared => (shared, c)
  | none => c.findOrInsert k

end WeightCache

end VisualIndex
