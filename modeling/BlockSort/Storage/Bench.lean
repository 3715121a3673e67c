import BlockSort.Rotation.Bucket
import BlockSort.Storage.Cells

/-!
Sorting of rotations in place. Bytes are read where they are stored: the first ones stand once more
past the end, so that a rotation is read on without a look at where the text ends. A place that does
not exist is never read; a sort that would read one has no result.
-/
namespace BlockSort

/-- What comparisons read, and the limit of their work. -/
structure Bench where
  /-- The bytes from place 1 on, the first ones again past the end, and the last one at place 0. -/
  slots : Array UInt8
  /-- The ranks of positions, those of the first ones again past the end. -/
  ranks : Array Nat
  /-- The number of bytes. -/
  size : Nat
  budget : Option Nat

/-- A range of the order that is still to be sorted, up to but without `hi`. Its rotations agree on
their first `depth` bytes. -/
structure Frame where
  lo : Nat
  hi : Nat
  depth : Nat

/-- What is left to do for a range, in a measure that every division lowers. -/
def Frame.weight (frame : Frame) : Nat :=
  1 + 3 * (frame.hi - frame.lo) * (Bucket.deepest + 1 - frame.depth)

/-- What is left to do for pending ranges. -/
def Frame.weights : List Frame → Nat
  | [] => 0
  | frame :: rest => frame.weight + weights rest

theorem Frame.weights_append (parts rest : List Frame) :
    weights (parts ++ rest) = weights parts + weights rest := by
  induction parts with
  | nil => rw [List.nil_append, weights, Nat.zero_add]
  | cons frame parts ih => rw [List.cons_append, weights, weights, ih, Nat.add_assoc]

namespace Bench

@[inline]
def overspent (bench : Bench) (work : Nat) : Bool :=
  match bench.budget with
  | none => false
  | some limit => limit < work

/-- Compares `count` bytes from two positions on. -/
def compareBytes (slots : Array UInt8) : (count i j : Nat) → Option Ordering
  | 0, _, _ => some .eq
  | count + 1, i, j => do
    match compare (← slots[i + 1]?) (← slots[j + 1]?) with
    | .eq => compareBytes slots count (i + 1) (j + 1)
    | decided => some decided

/-- Compares `count` bytes from two positions on, and after each pair of equal bytes the ranks. -/
def compareRanked (slots : Array UInt8) (ranks : Array Nat) : (count i j : Nat) → Option Ordering
  | 0, _, _ => some .eq
  | count + 1, i, j => do
    match compare (← slots[i + 1]?) (← slots[j + 1]?) with
    | .eq =>
      match compare (← ranks[i]?) (← ranks[j]?) with
      | .eq => compareRanked slots ranks count (i + 1) (j + 1)
      | decided => some decided
    | decided => some decided

/-- Compares in rounds of four bytes with ranks. Each round that finds no difference is counted. -/
def compareRounds (bench : Bench) : (rounds i j work : Nat) → Option (Ordering × Nat)
  | 0, _, _, work => some (.eq, work)
  | rounds + 1, i, j, work => do
    match ← compareRanked bench.slots bench.ranks 4 i j with
    | .eq =>
      compareRounds bench rounds (Comparer.wrap bench.size (i + 4))
        (Comparer.wrap bench.size (j + 4)) (work + 1)
    | decided => some (decided, work)

/-- Whether the rotation at `p` sorts after the one at `q`, with the work done so far. -/
def exceeds (bench : Bench) (depth p q work : Nat) : Option (Bool × Nat) := do
  match ← compareBytes bench.slots 6 (p + depth) (q + depth) with
  | .eq =>
    match ← compareRounds bench ((bench.size + 2) / 4) (p + depth + 6) (q + depth + 6) work with
    | (.gt, work) => some (true, work)
    | (_, work) => some (false, work)
  | .gt => some (true, work)
  | .lt => some (false, work)

/-- Moves the items above `place` up in steps of `gap`, as long as they exceed the given one, and
puts it into the gap that is left. -/
def sink (bench : Bench) (depth gap first item : Nat) (order : Array Nat) (work place : Nat) :
    Option (Array Nat × Nat) :=
  if room : 0 < gap ∧ first + gap ≤ place then do
    let earlier ← order[place - gap]?
    match ← bench.exceeds depth earlier item work with
    | (true, work) =>
      sink bench depth gap first item (← Cells.put order place earlier) work (place - gap)
    | (false, work) => return (← Cells.put order place item, work)
  else do return (← Cells.put order place item, work)
termination_by place

/-- Sinks `count` items in turn, from the one at `place` on. -/
def pass (bench : Bench) (depth gap first : Nat) :
    (count place : Nat) → Array Nat → Nat → Option (Array Nat × Nat)
  | 0, _, order, work => some (order, work)
  | count + 1, place, order, work => do
    let item ← order[place]?
    let (order, work) ← sink bench depth gap first item order work place
    if bench.overspent work then some (order, work)
    else pass bench depth gap first count (place + 1) order work

/-- Sorts the `size` items from `first` on by the given gaps. -/
def sortBy (bench : Bench) (depth first size : Nat) :
    List Nat → Array Nat → Nat → Option (Array Nat × Nat)
  | [], order, work => some (order, work)
  | gap :: gaps, order, work => do
    let (order, work) ← pass bench depth gap first (size - gap) (first + gap) order work
    if bench.overspent work then some (order, work)
    else sortBy bench depth first size gaps order work

/-- Sorts a range by insertion with shrinking gaps. -/
def insertionSort (bench : Bench) (frame : Frame) (order : Array Nat) (work : Nat) :
    Option (Array Nat × Nat) :=
  sortBy bench frame.depth frame.lo (frame.hi - frame.lo) (Shell.gaps (frame.hi - frame.lo))
    order work

/-- The byte at the given depth of the rotation at a place of the order. -/
def key (bench : Bench) (depth : Nat) (order : Array Nat) (place : Nat) : Option UInt8 := do
  bench.slots[(← order[place]?) + depth + 1]?

/-- A range after one scan: the pivot's items, then the smaller ones up to `middle`, then the
greater ones, then again the pivot's. -/
structure Zones where
  order : Array Nat
  low : Nat
  middle : Nat
  high : Nat

/-- Scans the items from `next` up to `stop`, and gathers those at the pivot at both ends. -/
def scan (bench : Bench) (depth : Nat) (pivot : UInt8) (order : Array Nat)
    (low next stop high : Nat) : Option Zones :=
  if unseen : next < stop then do
    let first ← bench.key depth order next
    if first = pivot then
      scan bench depth pivot (← Cells.exchange order next low) (low + 1) (next + 1) stop high
    else if first < pivot then scan bench depth pivot order low (next + 1) stop high
    else
      let last ← bench.key depth order (stop - 1)
      if last = pivot then
        scan bench depth pivot (← Cells.exchange order (stop - 1) (high - 1)) low next (stop - 1)
          (high - 1)
      else if pivot < last then scan bench depth pivot order low next (stop - 1) high
      else
        scan bench depth pivot (← Cells.exchange order next (stop - 1)) low (next + 1) (stop - 1)
          high
  else some ⟨order, low, next, high⟩
termination_by stop - next

/-- Exchanges `count` items from `p` on with as many from `q` on. -/
def swapBlocks : (count p q : Nat) → Array Nat → Option (Array Nat)
  | 0, _, _, order => some order
  | count + 1, p, q, order => do swapBlocks count (p + 1) (q + 1) (← Cells.exchange order p q)

/-- Partitions a range by the bytes at its depth. What is to be sorted then are the greater items,
those at the pivot, one byte deeper, and the smaller ones; or again all of them, one byte deeper, if
none differs from the pivot. -/
def divide (bench : Bench) (frame : Frame) (order : Array Nat) :
    Option (List Frame × Array Nat) := do
  let ⟨lo, hi, depth⟩ := frame
  let pivot := Bucket.median (← bench.key depth order lo) (← bench.key depth order (hi - 1))
    (← bench.key depth order ((lo + (hi - 1)) / 2))
  let ⟨order, low, middle, high⟩ ← scan bench depth pivot order lo lo hi hi
  if high ≤ low then return ([⟨lo, hi, depth + 1⟩], order)
  else
    let below := min (low - lo) (middle - low)
    let above := min (hi - high) (high - middle)
    let order ← swapBlocks below lo (middle - below) order
    let order ← swapBlocks above middle (hi - above) order
    let start := lo + (middle - low)
    let stop := hi - (high - middle)
    return ([⟨stop, hi, depth⟩, ⟨start, stop, depth + 1⟩, ⟨lo, start, depth⟩], order)

theorem key_exchange {bench : Bench} {depth : Nat} {order after : Array Nat} {one other place : Nat}
    (done : Cells.exchange order one other = some after) (notOne : place ≠ one)
    (notOther : place ≠ other) : bench.key depth after place = bench.key depth order place := by
  rw [Cells.exchange] at done
  split at done
  · rw [Option.some.injEq] at done
    rw [key, key, ← done, Array.getElem?_swap, if_neg notOther.symm, if_neg notOne.symm]
  · cases done

/-- A scan leaves the places in order, and if the pivot is still ahead, it finds it. -/
theorem scan_zones {bench : Bench} {depth : Nat} {pivot : UInt8} {order : Array Nat}
    {low next stop high : Nat} {zones : Zones} (low_le_next : low ≤ next)
    (next_le_high : next ≤ high) (stop_le_high : stop ≤ high)
    (done : bench.scan depth pivot order low next stop high = some zones) :
    (low ≤ zones.low ∧ zones.low ≤ zones.middle ∧ zones.middle ≤ zones.high ∧
      zones.high ≤ high) ∧
    ∀ place, next ≤ place → place < stop → bench.key depth order place = some pivot →
      low < zones.low ∨ zones.high < high := by
  fun_induction scan bench depth pivot order low next stop high with
  | case1 order low next stop high unseen atFirst belowFirst atLast aboveLast both =>
    obtain ⟨first, firstKey, done⟩ := Option.bind_eq_some_iff.mp done
    split at done
    · obtain ⟨after, -, done⟩ := Option.bind_eq_some_iff.mp done
      obtain ⟨bounds, -⟩ := atFirst after (by omega) (by omega) (by omega) done
      exact ⟨by omega, fun _ _ _ _ => by omega⟩
    rename_i notFirst
    have past {place : Nat} (found : bench.key depth order place = some pivot) : place ≠ next := by
      rintro rfl
      exact notFirst (Option.some.inj (firstKey.symm.trans found))
    split at done
    · obtain ⟨bounds, ahead⟩ := belowFirst (by omega) (by omega) (by omega) done
      refine ⟨bounds, fun place after before found => ahead place ?_ before found⟩
      have := past found
      omega
    obtain ⟨last, lastKey, done⟩ := Option.bind_eq_some_iff.mp done
    split at done
    · obtain ⟨after, -, done⟩ := Option.bind_eq_some_iff.mp done
      obtain ⟨bounds, -⟩ := atLast after (by omega) (by omega) (by omega) done
      exact ⟨by omega, fun _ _ _ _ => by omega⟩
    rename_i notLast
    have short {place : Nat} (found : bench.key depth order place = some pivot) :
        place ≠ stop - 1 := by
      rintro rfl
      exact notLast (Option.some.inj (lastKey.symm.trans found))
    split at done
    · obtain ⟨bounds, ahead⟩ := aboveLast (by omega) (by omega) (by omega) done
      refine ⟨bounds, fun place after before found => ahead place after ?_ found⟩
      have := short found
      omega
    · obtain ⟨exchanged, swapped, done⟩ := Option.bind_eq_some_iff.mp done
      obtain ⟨bounds, ahead⟩ := both exchanged (by omega) (by omega) (by omega) done
      refine ⟨bounds, fun place after before found => ahead place ?_ ?_ ?_⟩
      · have := past found
        omega
      · have := short found
        omega
      · rw [key_exchange swapped (past found) (short found), found]
  | case2 order low next stop high seen =>
    rw [Option.some.injEq] at done
    subst done
    exact ⟨⟨Nat.le_refl low, low_le_next, next_le_high, Nat.le_refl high⟩,
      fun _ _ _ _ => by omega⟩

/-- A division leaves less to do: an item is at the pivot, and is pending one byte deeper. -/
theorem weights_divide {bench : Bench} {frame : Frame} {order after : Array Nat}
    {parts : List Frame} (long : frame.lo < frame.hi) (shallow : frame.depth ≤ Bucket.deepest)
    (done : bench.divide frame order = some (parts, after)) :
    Frame.weights parts < frame.weight := by
  obtain ⟨lo, hi, depth⟩ := frame
  simp only at long shallow
  simp only [divide, Option.bind_eq_bind, Option.bind_eq_some_iff] at done
  obtain ⟨a, aKey, b, bKey, c, cKey, zones, scanned, done⟩ := done
  obtain ⟨bounds, ahead⟩ := scan_zones (Nat.le_refl lo) (by omega) (Nat.le_refl hi) scanned
  have found : lo < zones.low ∨ zones.high < hi := by
    rcases Bucket.median_mem a b c with same | same | same
    · exact ahead lo (by omega) (by omega) (by rw [same, aKey])
    · exact ahead (hi - 1) (by omega) (by omega) (by rw [same, bKey])
    · exact ahead ((lo + (hi - 1)) / 2) (by omega) (by omega) (by rw [same, cKey])
  obtain ⟨rest, now⟩ : ∃ rest, Bucket.deepest + 1 - depth = rest + 1 :=
    ⟨Bucket.deepest - depth, by omega⟩
  have later : Bucket.deepest + 1 - (depth + 1) = rest := by omega
  split at done
  · obtain ⟨rfl, -⟩ : _ = parts ∧ _ := by simpa using done
    simp only [Frame.weights, Frame.weight, now, later, Nat.mul_succ]
    omega
  · simp only [Option.bind_eq_some_iff] at done
    obtain ⟨_, -, _, -, done⟩ := done
    obtain ⟨rfl, -⟩ : _ = parts ∧ _ := by simpa using done
    have whole : hi - lo = (hi - (hi - (zones.high - zones.middle))) +
        (hi - (zones.high - zones.middle) - (lo + (zones.middle - zones.low))) +
        (lo + (zones.middle - zones.low) - lo) := by omega
    simp only [Frame.weights, Frame.weight, now, later, whole, Nat.mul_succ, Nat.mul_add,
      Nat.add_mul]
    omega

/-- Sorts pending ranges, the first one first, until none is left or the budget is overspent. What
is pending then stays so. -/
def drain (bench : Bench) (pending : List Frame) (order : Array Nat) (work : Nat) :
    Option (List Frame × Array Nat × Nat) :=
  match pending with
  | [] => some ([], order, work)
  | frame :: rest =>
    if long : Bucket.smallRange < frame.hi - frame.lo ∧ frame.depth ≤ Bucket.deepest then
      match divided : bench.divide frame order with
      | none => none
      | some (parts, order) => drain bench (parts ++ rest) order work
    else do
      let (order, work) ← insertionSort bench frame order work
      if bench.overspent work then some (rest, order, work) else drain bench rest order work
termination_by Frame.weights pending
decreasing_by
  · have less := weights_divide (by omega) long.2 divided
    simp only [Frame.weights_append, Frame.weights]
    omega
  · simp only [Frame.weights, Frame.weight]
    omega

end Bench

end BlockSort
