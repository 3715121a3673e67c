import BlockSort.Rotation.Comparer
import BlockSort.Rotation.Partition
import BlockSort.Shell

namespace BlockSort.Bucket

variable {n m : Nat}

/-- Ranges of at most this size are sorted by insertion. -/
def smallRange : Nat := 20

/-- Ranges whose rotations agree on more bytes than this are sorted by insertion. -/
def deepest : Nat := 10

/-- The middle one of three bytes. -/
def median (a b c : UInt8) : UInt8 := max (min a b) (min (max a b) c)

theorem median_mem (a b c : UInt8) : median a b c = a ∨ median a b c = b ∨ median a b c = c := by
  simp only [median, min, max]
  grind

/-- Sorts the range from `lo` to `hi`, whose rotations agree on their first `depth` bytes, until it
is sorted or the budget is overspent. The items above the pivot come first, then those at the
pivot, one byte deeper, and last those below it: the order decides what work is counted. -/
def sortRange [Occupied n] (comparer : Comparer n) (lo hi depth : Nat) (lo_le_hi : lo ≤ hi)
    (fits : hi ≤ m) (items : Vector (Fin n) m) (work : Nat) : Vector (Fin n) m × Nat :=
  if comparer.overspent work then (items, work)
  else if shallow : smallRange < hi - lo ∧ depth ≤ deepest then
    let key (position : Fin n) : UInt8 := comparer.text.byteAt (position + depth)
    let pivot := median (key items[lo]) (key items[hi - 1]) (key items[(lo + (hi - 1)) / 2])
    let partition := Partition.ofRange key pivot items lo hi lo_le_hi fits
    if partition.equalCount = hi - lo then
      sortRange comparer lo hi (depth + 1) lo_le_hi fits partition.items work
    else if found : 0 < partition.equalCount then
      have ordered := partition.equalStart_le_equalStop
      have bounded := partition.equalStop_le
      match sortRange comparer partition.equalStop hi depth bounded fits
          (partition.gather fits) work with
      | (items, work) =>
        match sortRange comparer partition.equalStart partition.equalStop (depth + 1) ordered
            (by omega) items work with
        | (items, work) =>
          sortRange comparer lo partition.equalStart depth partition.lo_le_equalStart (by omega)
            items work
    else (items, work)
  else
    Shell.sort (comparer.exceeds depth) comparer.overspent lo (hi - lo) (by omega) items work
termination_by (deepest + 1 - depth, hi - lo)
decreasing_by
  · exact Prod.Lex.left _ _ (by omega)
  · exact Prod.Lex.right _ (partition.above_lt found)
  · exact Prod.Lex.left _ _ (by omega)
  · exact Prod.Lex.right _ (partition.below_lt found)

/-- Sorts the rotations of a bucket, which agree on their first two bytes. A bucket of one needs no
sorting. -/
def sort [Occupied n] (comparer : Comparer n) (positions : List (Fin n)) (work : Nat) :
    List (Fin n) × Nat :=
  match positions with
  | first :: second :: rest =>
    let items := (first :: second :: rest).toArray.toVector
    match sortRange comparer 0 items.size 2 (Nat.zero_le _) (Nat.le_refl _) items work with
    | (items, work) => (items.toList, work)
  | short => (short, work)

end BlockSort.Bucket
