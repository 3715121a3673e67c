import BlockSort.Proofs.Exchange
import BlockSort.Rotation.Partition

namespace BlockSort.Partition

variable {α : Type} {m lo hi : Nat}

/-- The zones of a scan that has seen the items up to `next` and from `stop` on. -/
structure Zones (key : α → UInt8) (pivot : UInt8) (items : Vector α m)
    (lo low next stop high hi : Nat) : Prop where
  left : Zone (fun item => key item = pivot) lo low items
  below : Zone (fun item => key item < pivot) low next items
  above : Zone (fun item => pivot < key item) stop high items
  right : Zone (fun item => key item = pivot) high hi items

variable {key : α → UInt8} {pivot : UInt8}

section Steps

variable {items : Vector α m} {low next stop high : Nat}

/-- The next item is at the pivot and goes to the left end. -/
theorem Zones.gatherLow (zones : Zones key pivot items lo low next stop high hi)
    (low_le_next : low ≤ next) (next_lt_stop : next < stop) (stop_le_high : stop ≤ high)
    (high_le_hi : high ≤ hi) (fits : hi ≤ m) (found : key items[next] = pivot) :
    Zones key pivot (items.swap next low) lo (low + 1) (next + 1) stop high hi := by
  obtain ⟨left, below, above, right⟩ := zones
  constructor <;> intro place bound after before <;> simp only [Vector.getElem_swap] <;>
    grind [Zone]

/-- The next item is below the pivot and stays. -/
theorem Zones.extendBelow (zones : Zones key pivot items lo low next stop high hi)
    (inside : next < m) (less : key items[next] < pivot) :
    Zones key pivot items lo low (next + 1) stop high hi :=
  ⟨zones.left, by intro place bound after before; grind [Zone, zones.below], zones.above,
    zones.right⟩

/-- The last item is at the pivot and goes to the right end. -/
theorem Zones.gatherHigh (zones : Zones key pivot items lo low next stop high hi)
    (low_le_next : low ≤ next) (apart : next < stop - 1) (stop_le_high : stop ≤ high)
    (high_le_hi : high ≤ hi) (fits : hi ≤ m) (found : key items[stop - 1] = pivot) :
    Zones key pivot (items.swap (stop - 1) (high - 1)) lo low next (stop - 1) (high - 1) hi := by
  obtain ⟨left, below, above, right⟩ := zones
  constructor <;> intro place bound after before <;> simp only [Vector.getElem_swap] <;>
    grind [Zone]

/-- The last item is above the pivot and stays. -/
theorem Zones.extendAbove (zones : Zones key pivot items lo low next stop high hi)
    (inside : stop - 1 < m) (greater : pivot < key items[stop - 1]) :
    Zones key pivot items lo low next (stop - 1) high hi :=
  ⟨zones.left, zones.below, by intro place bound after before; grind [Zone, zones.above],
    zones.right⟩

/-- A greater item and a smaller one behind it change places. -/
theorem Zones.exchange (zones : Zones key pivot items lo low next stop high hi)
    (low_le_next : low ≤ next) (apart : next < stop - 1) (stop_le_high : stop ≤ high)
    (high_le_hi : high ≤ hi) (fits : hi ≤ m) (greater : pivot < key items[next])
    (less : key items[stop - 1] < pivot) :
    Zones key pivot (items.swap next (stop - 1)) lo low (next + 1) (stop - 1) high hi := by
  obtain ⟨left, below, above, right⟩ := zones
  constructor <;> intro place bound after before <;> simp only [Vector.getElem_swap] <;>
    grind [Zone]

end Steps

theorem scan_spec (fits : hi ≤ m) (items : Vector α m) (low next stop high : Nat)
    (lo_le_low : lo ≤ low) (low_le_next : low ≤ next) (next_le_high : next ≤ high)
    (stop_le_high : stop ≤ high) (high_le_hi : high ≤ hi) (ordered : next ≤ stop)
    (zones : Zones key pivot items lo low next stop high hi) :
    let result := scan key pivot fits items low next stop high lo_le_low low_le_next next_le_high
      stop_le_high high_le_hi
    Exchanged lo hi items result.items ∧
      Zones key pivot result.items lo result.low result.middle result.middle result.high hi := by
  fun_induction scan key pivot fits items low next stop high lo_le_low low_le_next next_le_high
    stop_le_high high_le_hi with
  | case1 items low next stop high lo_le_low low_le_next next_le_high stop_le_high high_le_hi unseen
      first found ih =>
    obtain ⟨exchanged, result⟩ := ih (by omega)
      (zones.gatherLow low_le_next unseen stop_le_high high_le_hi fits found)
    refine ⟨Exchanged.trans ?_ exchanged, result⟩
    exact .once items (by omega) (by omega) (by omega) (by omega)
  | case2 items low next stop high lo_le_low low_le_next next_le_high stop_le_high high_le_hi unseen
      first different less ih =>
    exact ih (by omega) (zones.extendBelow (by omega) less)
  | case3 items low next stop high lo_le_low low_le_next next_le_high stop_le_high high_le_hi unseen
      first different notLess last found ih =>
    have apart : next ≠ stop - 1 := by
      rintro rfl
      exact different found
    obtain ⟨exchanged, result⟩ := ih (by omega)
      (zones.gatherHigh low_le_next (by omega) stop_le_high high_le_hi fits found)
    refine ⟨Exchanged.trans ?_ exchanged, result⟩
    exact .once items (by omega) (by omega) (by omega) (by omega)
  | case4 items low next stop high lo_le_low low_le_next next_le_high stop_le_high high_le_hi unseen
      first different notLess last notFound greater ih =>
    exact ih (by omega) (zones.extendAbove (by omega) greater)
  | case5 items low next stop high lo_le_low low_le_next next_le_high stop_le_high high_le_hi unseen
      first different notLess last notFound notGreater ih =>
    have greater : pivot < first :=
      UInt8.lt_of_le_of_ne (UInt8.not_lt.mp notLess) (Ne.symm different)
    have less : last < pivot := UInt8.lt_of_le_of_ne (UInt8.not_lt.mp notGreater) notFound
    have apart : next ≠ stop - 1 := by
      rintro rfl
      exact notLess less
    obtain ⟨exchanged, result⟩ := ih (by omega)
      (zones.exchange low_le_next (by omega) stop_le_high high_le_hi fits greater less)
    refine ⟨Exchanged.trans ?_ exchanged, result⟩
    exact .once items (by omega) (by omega) (by omega) (by omega)
  | case6 items low next stop high lo_le_low low_le_next next_le_high stop_le_high high_le_hi
      done =>
    obtain rfl : next = stop := by omega
    exact ⟨.refl _, zones⟩

theorem swapBlocks_exchanged (count p q : Nat) (pFits : p + count ≤ m) (qFits : q + count ≤ m)
    (items : Vector α m) (pRange : lo ≤ p ∧ p + count ≤ hi) (qRange : lo ≤ q ∧ q + count ≤ hi) :
    Exchanged lo hi items (swapBlocks count p q pFits qFits items) := by
  induction count generalizing p q items with
  | zero => exact .refl _
  | succ count ih =>
    have moved : Exchanged lo hi items (items.swap p q) :=
      .once items (by omega) (by omega) (by omega) (by omega)
    exact moved.trans (ih (p + 1) (q + 1) (by omega) (by omega) _ (by omega) (by omega))

theorem getElem_swapBlocks (count p q : Nat) (pFits : p + count ≤ m) (qFits : q + count ≤ m)
    (items : Vector α m) (apart : p + count ≤ q) (place : Nat) (bound : place < m) :
    (swapBlocks count p q pFits qFits items)[place] =
      if inside : p ≤ place ∧ place < p + count then items[q + (place - p)]
      else if other : q ≤ place ∧ place < q + count then items[p + (place - q)]
      else items[place] := by
  induction count generalizing p q items with
  | zero =>
    rw [dif_neg (by omega), dif_neg (by omega)]
    rfl
  | succ count ih =>
    rw [swapBlocks, ih (p + 1) (q + 1) (by omega) (by omega) _ (by omega)]
    simp only [Vector.getElem_swap]
    grind

/-- Two zones side by side change places when as many items as the shorter one holds are
exchanged between the far ends. -/
theorem swapBlocks_zones {first second : α → Prop} {start middle stop count : Nat}
    {items : Vector α m} (left : Zone first start middle items)
    (right : Zone second middle stop items) (ascending : start ≤ middle) (order : middle ≤ stop)
    (least : count = min (middle - start) (stop - middle))
    (pFits : start + count ≤ m) (qFits : stop - count + count ≤ m) :
    let moved := swapBlocks count start (stop - count) pFits qFits items
    Zone second start (start + (stop - middle)) moved ∧
      Zone first (start + (stop - middle)) stop moved := by
  constructor
  · intro place bound after before
    rw [getElem_swapBlocks _ _ _ _ _ _ (by omega)]
    split
    · exact right _ _ (by omega) (by omega)
    · rw [dif_neg (by omega)]
      exact right place bound (by omega) (by omega)
  · intro place bound after before
    rw [getElem_swapBlocks _ _ _ _ _ _ (by omega), dif_neg (by omega)]
    split
    · exact left _ _ (by omega) (by omega)
    · exact left place bound (by omega) (by omega)

/-- The zones of a range that is partitioned completely. -/
structure Gathered (key : α → UInt8) (pivot : UInt8) (items : Vector α m)
    (lo equalStart equalStop hi : Nat) : Prop where
  below : Zone (fun item => key item < pivot) lo equalStart items
  equal : Zone (fun item => key item = pivot) equalStart equalStop items
  above : Zone (fun item => pivot < key item) equalStop hi items

theorem gather_spec (partition : Partition α m lo hi) (fits : hi ≤ m)
    (zones : Zones key pivot partition.items lo partition.low partition.middle partition.middle
      partition.high hi) :
    Exchanged lo hi partition.items (partition.gather fits) ∧
      Gathered key pivot (partition.gather fits) lo partition.equalStart partition.equalStop
        hi := by
  obtain ⟨items, low, middle, high, lo_le_low, low_le_middle, middle_le_high, high_le_hi⟩ :=
    partition
  obtain ⟨left, below, above, right⟩ := zones
  simp only at left below above right
  have front : Exchanged lo middle _ _ := swapBlocks_exchanged (min (low - lo) (middle - low)) lo
    (middle - min (low - lo) (middle - low)) (by omega) (by omega) items (by omega) (by omega)
  have first := swapBlocks_zones left below lo_le_low low_le_middle rfl
    (by omega) (by omega)
  have back : Exchanged middle hi _ _ := swapBlocks_exchanged (min (hi - high) (high - middle))
    middle (hi - min (hi - high) (high - middle)) (by omega) (by omega)
    (swapBlocks (min (low - lo) (middle - low)) lo (middle - min (low - lo) (middle - low))
      (by omega) (by omega) items) (by omega) (by omega)
  have second := swapBlocks_zones (front.all (.inr (.inl (Nat.le_refl middle))) above)
    (front.all (.inr (.inl middle_le_high)) right) middle_le_high high_le_hi
    (Nat.min_comm (hi - high) (high - middle)) (by omega) (by omega)
  simp only [gather, equalStart, equalStop]
  have whole : lo + (middle - low) ≤ middle := by omega
  refine ⟨(front.mono (Nat.le_refl lo) (by omega)).trans (back.mono (by omega) (Nat.le_refl hi)),
    back.all (.inr (.inr whole)) first.1, ?_, ?_⟩
  · have low := back.all (.inr (.inr (Nat.le_refl middle))) first.2
    intro place bound after before
    by_cases early : place < middle
    · exact low place bound after early
    · exact second.1 place bound (by omega) (by omega)
  · intro place bound after before
    exact second.2 place bound (by omega) before

theorem ofRange_spec (key : α → UInt8) (pivot : UInt8) (items : Vector α m) (lo_le_hi : lo ≤ hi)
    (fits : hi ≤ m) :
    let partition := ofRange key pivot items lo hi lo_le_hi fits
    Exchanged lo hi items partition.items ∧
      Zones key pivot partition.items lo partition.low partition.middle partition.middle
        partition.high hi := by
  refine scan_spec fits items lo lo hi hi _ _ _ _ _ lo_le_hi ?_
  constructor <;> intro place bound after before <;> omega

theorem Zones.all_equal {partition : Partition α m lo hi}
    (zones : Zones key pivot partition.items lo partition.low partition.middle partition.middle
      partition.high hi) (whole : partition.equalCount = hi - lo) :
    Zone (fun item => key item = pivot) lo hi partition.items := by
  have bounds := partition.lo_le_low
  have order := partition.low_le_middle
  have next := partition.middle_le_high
  have last := partition.high_le_hi
  rw [equalCount] at whole
  intro place bound after before
  by_cases early : place < partition.low
  · exact zones.left place bound after early
  · exact zones.right place bound (by omega) before

theorem Zones.equalCount_pos {partition : Partition α m lo hi}
    (zones : Zones key pivot partition.items lo partition.low partition.middle partition.middle
      partition.high hi)
    (occurs : ¬ Zone (fun item => key item ≠ pivot) lo hi partition.items) :
    0 < partition.equalCount := by
  by_contra none
  have bounds := partition.lo_le_low
  have last := partition.high_le_hi
  rw [equalCount] at none
  refine occurs fun place bound after before => ?_
  by_cases early : place < partition.middle
  · exact UInt8.ne_of_lt (zones.below place bound (by omega) early)
  · exact Ne.symm (UInt8.ne_of_lt (zones.above place bound (by omega) (by omega)))

end BlockSort.Partition
