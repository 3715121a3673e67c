import BlockSort.Rotation.Bucket
import BlockSort.Rotation.PairTable

/-!
The sorted order of all rotations of a text. Rotations are put into one bucket for each pair of
leading bytes. The leading bytes are then visited, rarest first: all buckets of the visited byte are
sorted, and their order places the rotations that start one byte earlier without a comparison.
-/
namespace BlockSort

namespace Rotation

variable {n : Nat}

/-- The rotations by their first two bytes, in each bucket by descending position. -/
def collect [Occupied n] (text : Text n) : PairTable (List (Fin n)) :=
  (List.finRange n).foldl (fun table position =>
    table.push (text.get position) (text.byteAt (position.val + 1)) position) (PairTable.fill [])

/-- How many rotations start with each byte. -/
def rowSizes (table : PairTable (List (Fin n))) : Vector Nat 256 :=
  Vector.ofFn fun first => ((table.row (UInt8.ofNat first)).map List.length).foldl (· + ·) 0

/-- The bytes in the order of their visits: by ascending size of their row. -/
def visitOrder (sizes : Vector Nat 256) : List UInt8 :=
  let size (first : UInt8) : Nat :=
    have bound := UInt8.toNat_lt first
    sizes[first.toNat]
  let exceeds (a b : UInt8) (_ : Unit) : Bool × Unit := (size b < size a, ())
  (Shell.sort exceeds (fun _ => false) 0 256 (Nat.le_refl 256)
    (Vector.ofFn fun first => UInt8.ofNat first.val) ()).1.toList

/-- How far a sort has come. -/
structure Progress (n : Nat) where
  table : PairTable (List (Fin n))
  ranks : Vector Nat n
  /-- The leading bytes whose buckets are all sorted. -/
  sorted : ByteSet
  work : Nat

/-- Sorts the buckets of a leading byte. Those whose second byte was visited before are already in
order. -/
def sortRow [Occupied n] (comparer : Comparer n) (sorted : ByteSet) (first : UInt8)
    (table : PairTable (List (Fin n))) (work : Nat) : PairTable (List (Fin n)) × Nat :=
  allBytes.foldl (fun (table, work) second =>
    if sorted.contains second || comparer.overspent work then (table, work)
    else
      match Bucket.sort comparer (table.get first second) work with
      | (positions, work) => (table.set first second positions, work)) (table, work)

/-- The largest rank that is recorded. -/
def largestRank : Nat := 65534

/-- How often a row's size has to be halved to be a rank. -/
def rankShift (size : Nat) : Nat :=
  if largestRank < size then rankShift (size / 2) + 1 else 0
termination_by size
decreasing_by omega

/-- Records for each rotation of a sorted row its place, in a coarser measure if the row is long. -/
def recordRanks (ranks : Vector Nat n) (row : List (Fin n)) : Vector Nat n :=
  let shift := rankShift row.length
  (row.foldl (fun (ranks, place) position =>
    (ranks.set position (place >>> shift) position.isLt, place + 1)) (ranks, 0)).1

/-- Fills the buckets whose second byte leads the sorted row, and whose first byte is not sorted:
the predecessors of the row's rotations are in the same order as the row. -/
def placePredecessors (text : Text n) (sorted : ByteSet) (second : UInt8) (row : List (Fin n))
    (table : PairTable (List (Fin n))) : PairTable (List (Fin n)) :=
  let table := allBytes.foldl (fun table first =>
    if sorted.contains first then table else table.set first second []) table
  row.foldr (fun position table =>
    let earlier := Text.before position
    let first := text.get earlier
    if sorted.contains first then table else table.push first second earlier) table

/-- Sorts the row of one leading byte and draws the conclusions from its order, unless the budget
is overspent before the row is sorted. -/
def visit [Occupied n] (text : Text n) (budget : Option Nat) (progress : Progress n)
    (first : UInt8) : Progress n :=
  match progress with
  | ⟨table, ranks, sorted, work⟩ =>
    match sortRow ⟨text, ranks, budget⟩ sorted first table work with
    | (table, work) =>
      if Comparer.overspent ⟨text, ranks, budget⟩ work then ⟨table, ranks, sorted, work⟩
      else
        let sorted := sorted.insert first
        let row := (table.row first).flatten
        ⟨placePredecessors text sorted first row table, recordRanks ranks row, sorted, work⟩

/-- Sorts all rotations, and tells the work that was done. If that is more than the budget, the
sort was given up and the order means nothing. -/
def sort [Occupied n] (text : Text n) (budget : Option Nat) : List (Fin n) × Nat :=
  let table := collect text
  let order := visitOrder (rowSizes table)
  let progress := order.foldl (visit text budget) ⟨table, Vector.replicate n 0, {}, 0⟩
  (allBytes.flatMap fun first => (progress.table.row first).flatten, progress.work)

end Rotation

end BlockSort
