namespace BlockSort

/-- A range from `lo` to `hi` after one scan: the pivot's items, then the smaller ones up to
`middle`, then the greater ones, then again the pivot's. -/
structure Partition (α : Type) (m lo hi : Nat) where
  items : Vector α m
  low : Nat
  middle : Nat
  high : Nat
  lo_le_low : lo ≤ low
  low_le_middle : low ≤ middle
  middle_le_high : middle ≤ high
  high_le_hi : high ≤ hi

namespace Partition

variable {α : Type} {m lo hi : Nat}

/-- Scans the items from `next` up to `stop`, which are not yet compared with the pivot. The items
from `lo` to `low` and from `high` to `hi` are the pivot's, those from `low` to `next` are smaller,
and those from `stop` to `high` are greater. -/
@[specialize]
def scan (key : α → UInt8) (pivot : UInt8) (fits : hi ≤ m) (items : Vector α m)
    (low next stop high : Nat) (lo_le_low : lo ≤ low) (low_le_next : low ≤ next)
    (next_le_high : next ≤ high) (stop_le_high : stop ≤ high) (high_le_hi : high ≤ hi) :
    Partition α m lo hi :=
  if unseen : next < stop then
    let first := key items[next]
    if first = pivot then
      scan key pivot fits (items.swap next low) (low + 1) (next + 1) stop high
        (by omega) (by omega) (by omega) stop_le_high high_le_hi
    else if first < pivot then
      scan key pivot fits items low (next + 1) stop high
        lo_le_low (by omega) (by omega) stop_le_high high_le_hi
    else
      let last := key items[stop - 1]
      if last = pivot then
        scan key pivot fits (items.swap (stop - 1) (high - 1)) low next (stop - 1) (high - 1)
          lo_le_low low_le_next (by omega) (by omega) (by omega)
      else if pivot < last then
        scan key pivot fits items low next (stop - 1) high
          lo_le_low low_le_next next_le_high (by omega) high_le_hi
      else
        scan key pivot fits (items.swap next (stop - 1)) low (next + 1) (stop - 1) high
          lo_le_low (by omega) (by omega) (by omega) high_le_hi
  else ⟨items, low, next, high, lo_le_low, low_le_next, next_le_high, high_le_hi⟩
termination_by stop - next

/-- Partitions the range from `lo` to `hi`. -/
@[inline]
def ofRange (key : α → UInt8) (pivot : UInt8) (items : Vector α m) (lo hi : Nat)
    (lo_le_hi : lo ≤ hi) (fits : hi ≤ m) : Partition α m lo hi :=
  scan key pivot fits items lo lo hi hi (Nat.le_refl lo) (Nat.le_refl lo) lo_le_hi
    (Nat.le_refl hi) (Nat.le_refl hi)

/-- How many items are at the pivot. -/
def equalCount (partition : Partition α m lo hi) : Nat :=
  (partition.low - lo) + (hi - partition.high)

/-- Where the items below the pivot end once all are gathered. -/
def equalStart (partition : Partition α m lo hi) : Nat :=
  lo + (partition.middle - partition.low)

/-- Where the items above the pivot begin once all are gathered. -/
def equalStop (partition : Partition α m lo hi) : Nat :=
  hi - (partition.high - partition.middle)

/-- Exchanges `count` items from `p` on with as many from `q` on. -/
def swapBlocks : (count p q : Nat) → p + count ≤ m → q + count ≤ m → Vector α m → Vector α m
  | 0, _, _, _, _, items => items
  | count + 1, p, q, p_fits, q_fits, items =>
    swapBlocks count (p + 1) (q + 1) (by omega) (by omega) (items.swap p q)

/-- Brings the pivot's items from both ends to the middle. -/
def gather (partition : Partition α m lo hi) (fits : hi ≤ m) : Vector α m :=
  match partition with
  | ⟨items, low, middle, high, _, _, _, _⟩ =>
    let below := min (low - lo) (middle - low)
    let above := min (hi - high) (high - middle)
    let items := swapBlocks below lo (middle - below) (by omega) (by omega) items
    swapBlocks above middle (hi - above) (by omega) (by omega) items

theorem equalStart_le_equalStop (partition : Partition α m lo hi) :
    partition.equalStart ≤ partition.equalStop := by
  have := partition.lo_le_low
  have := partition.low_le_middle
  have := partition.middle_le_high
  have := partition.high_le_hi
  simp only [equalStart, equalStop]
  omega

theorem equalStop_le (partition : Partition α m lo hi) : partition.equalStop ≤ hi := by
  simp only [equalStop]
  omega

theorem lo_le_equalStart (partition : Partition α m lo hi) : lo ≤ partition.equalStart := by
  simp only [equalStart]
  omega

theorem equalStop_sub_equalStart (partition : Partition α m lo hi) :
    partition.equalStop - partition.equalStart = partition.equalCount := by
  have := partition.lo_le_low
  have := partition.low_le_middle
  have := partition.middle_le_high
  have := partition.high_le_hi
  simp only [equalStart, equalStop, equalCount]
  omega

theorem above_lt (partition : Partition α m lo hi) (found : 0 < partition.equalCount) :
    hi - partition.equalStop < hi - lo := by
  have := partition.equalStop_sub_equalStart
  have := partition.lo_le_equalStart
  have := partition.equalStop_le
  omega

theorem below_lt (partition : Partition α m lo hi) (found : 0 < partition.equalCount) :
    partition.equalStart - lo < hi - lo := by
  have := partition.equalStop_sub_equalStart
  have := partition.lo_le_equalStart
  have := partition.equalStop_le
  omega

end Partition

end BlockSort
