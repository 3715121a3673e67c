import BlockSort.Proofs.Comparisons.Rows

namespace BlockSort

variable {sizes : Nat → Nat} {count first number : Nat} {cells : Nat → List Nat} {rest : List Nat}

/-- Buckets side by side stand between where the first one begins and where the last one ends. -/
theorem Frame.slice_spread (sized : ∀ bucket, (cells bucket).length = sizes bucket)
    (inside : first + number ≤ count) (depth : Nat) :
    Frame.slice ⟨begins sizes first, begins sizes (first + number), depth⟩
      (spread count cells rest) = stretch cells first number := by
  have lead : (stretch cells 0 first).length = begins sizes first := by
    rw [length_stretch sized, Nat.zero_add]
    simp [begins]
  have both : (stretch cells 0 first ++ stretch cells first number).length =
      begins sizes (first + number) := by
    have order := begins_mono sizes (Nat.le_add_right first number)
    rw [List.length_append, lead, length_stretch sized]
    omega
  rw [Frame.slice, spread_cut inside, List.take_left' both, List.drop_left' lead]

namespace SortSpace

open Rotation

/-- The places of a bucket. -/
def Progress.frame (progress : Progress) (first second : UInt8) : Option Frame := do
  let entry ← progress.starts[PairTable.index first second]?
  let next ← progress.starts[PairTable.index first second + 1]?
  return ⟨placeOf entry, placeOf next, 2⟩

/-- The places of a row. -/
def Progress.row (progress : Progress) (first : UInt8) : Option Frame := do
  let low ← progress.starts[first.toNat * 256]?
  let high ← progress.starts[(first.toNat + 1) * 256]?
  return ⟨placeOf low, placeOf high, 1⟩

variable {n : Nat} [Occupied n] {text : Text n} {table : PairTable (List (Fin n))}
variable {marked : Nat → Bool} {progress : Progress}

theorem Points.frame (points : Points text marked progress.starts) (small : n < SortSpace.mark)
    (first second : UInt8) :
    progress.frame first second = some ⟨begins (bucketSize text) (PairTable.index first second),
      begins (bucketSize text) (PairTable.index first second + 1), 2⟩ := by
  have inside := PairTable.index_lt first second
  obtain ⟨entry, entryAt, lead⟩ :=
    Option.map_eq_some_iff.mp (points.placeOf small (Nat.le_of_lt inside))
  obtain ⟨next, nextAt, stop⟩ := Option.map_eq_some_iff.mp (points.placeOf small inside)
  rw [Progress.frame, entryAt, nextAt, ← lead, ← stop]
  rfl

theorem Points.row (points : Points text marked progress.starts) (small : n < SortSpace.mark)
    (first : UInt8) :
    progress.row first = some ⟨begins (bucketSize text) (first.toNat * 256),
      begins (bucketSize text) (first.toNat * 256 + 256), 1⟩ := by
  have bound := UInt8.toNat_lt first
  have inside : (first.toNat + 1) * 256 ≤ pairCount := by
    rw [pairCount]
    omega
  have before := (Nat.mul_le_mul_right 256 (Nat.le_succ first.toNat)).trans inside
  obtain ⟨low, lowAt, lead⟩ := Option.map_eq_some_iff.mp (points.placeOf small before)
  obtain ⟨high, highAt, stop⟩ := Option.map_eq_some_iff.mp (points.placeOf small inside)
  rw [Nat.succ_mul] at stop
  rw [Progress.row, lowAt, highAt, ← lead, ← stop]
  rfl

theorem bucket_slice (filed : Filed text table) (rest : List Nat) (first second : UInt8) :
    Frame.slice ⟨begins (bucketSize text) (PairTable.index first second),
      begins (bucketSize text) (PairTable.index first second + 1), 2⟩
      (spread pairCount (cellsOf table) rest) = (table.get first second).map Fin.val := by
  rw [Frame.slice_spread filed.length_cellsOf (PairTable.index_lt first second), ← cellsOf_index]
  simp [stretch]

theorem row_slice (filed : Filed text table) (rest : List Nat) (first : UInt8) :
    Frame.slice ⟨begins (bucketSize text) (first.toNat * 256),
      begins (bucketSize text) (first.toNat * 256 + 256), 1⟩
      (spread pairCount (cellsOf table) rest) = (table.row first).flatten.map Fin.val := by
  have bound := UInt8.toNat_lt first
  rw [Frame.slice_spread filed.length_cellsOf (by rw [pairCount]; omega), stretch_row]

theorem bucket_perm (filed : Filed text table) (first second : UInt8) :
    ((table.get first second).map Fin.val).Perm ((List.range n).filter fun position =>
      text.byteAt position = first ∧ text.byteAt (position + 1) = second) := by
  rw [← map_filter_finRange fun position =>
    decide (text.byteAt position = first ∧ text.byteAt (position + 1) = second)]
  refine List.Perm.map _ ((List.perm_ext_iff_of_nodup (filed.nodup first second)
    ((List.nodup_finRange n).filter _)).mpr fun position => ?_)
  rw [filed.mem, List.mem_filter, decide_eq_true_eq, Text.byteAt_fin]
  constructor
  · intro leads
    exact ⟨List.mem_finRange position, leads.first, leads.second⟩
  · rintro ⟨-, one, other⟩
    exact ⟨one, other⟩

theorem front_perm (filed : Filed text table) (rest : List Nat) :
    ((spread pairCount (cellsOf table) rest).toList.take n).Perm (List.range n) := by
  have length : ((listed table).map Fin.val).length = n := by
    rw [List.length_map, filed.listed_perm.length_eq, List.length_finRange]
  rw [spread, flatMap_cellsOf, List.take_left' length, ← List.map_coe_finRange_eq_range]
  exact filed.listed_perm.map _

theorem length_row (filed : Filed text table) (first : UInt8) :
    (table.row first).flatten.length = text.toList.count first := by
  have perm : (table.row first).flatten.Perm
      ((List.finRange n).filter fun position => text.get position = first) := by
    refine (List.perm_ext_iff_of_nodup (filed.nodup_row first)
      ((List.nodup_finRange n).filter _)).mpr fun position => ?_
    rw [filed.mem_row, List.mem_filter, decide_eq_true_eq]
    exact ⟨fun leads => ⟨List.mem_finRange position, leads⟩, And.right⟩
  have items : text.toList = (List.finRange n).map text.get := by
    refine List.ext_getElem (by simp) fun place _ _ => ?_
    rw [Vector.getElem_toList, List.getElem_map, List.getElem_finRange]
    rfl
  rw [perm.length_eq, items, List.count, List.countP_map, List.countP_eq_length_filter]
  rfl

end SortSpace

end BlockSort
