import BlockSort.Proofs.Comparisons.Ranges

namespace BlockSort

variable {n : Nat} [Occupied n] {text : Text n} {frame : Frame} {order before after : Array Nat}
variable {parts : List Frame}

namespace Frame

/-- The pivot of a range is the median of three bytes at the depth: of the first rotation, of the
last one, and of the one halfway. -/
def Pivot (frame : Frame) (text : Text n) (order : Array Nat) (pivot : UInt8) : Prop :=
  ∃ first last inner, order[frame.lo]? = some first ∧ order[frame.hi - 1]? = some last ∧
    order[(frame.lo + (frame.hi - 1)) / 2]? = some inner ∧
    pivot = Bucket.median (text.byteAt (first + frame.depth)) (text.byteAt (last + frame.depth))
      (text.byteAt (inner + frame.depth))

/-- A range in three zones, by the bytes at the depth. At least one of them is the pivot. -/
structure Zoned (frame : Frame) (text : Text n) (pivot : UInt8) (start stop : Nat)
    (order : Array Nat) : Prop where
  lo_le_start : frame.lo ≤ start
  start_lt_stop : start < stop
  stop_le_hi : stop ≤ frame.hi
  below : ∀ position ∈ slice ⟨frame.lo, start, frame.depth⟩ order,
    text.byteAt (position + frame.depth) < pivot
  equal : ∀ position ∈ slice ⟨start, stop, frame.depth + 1⟩ order,
    text.byteAt (position + frame.depth) = pivot
  above : ∀ position ∈ slice ⟨stop, frame.hi, frame.depth⟩ order,
    pivot < text.byteAt (position + frame.depth)

/-- What a division makes of a range. -/
structure Divided (frame : Frame) (text : Text n) (before : Array Nat) (parts : List Frame)
    (after : Array Nat) : Prop where
  outside : frame.Outside before after
  perm : (frame.slice after).Perm (frame.slice before)
  fits : ∀ part ∈ parts, part.Fits text after
  zones : ∃ pivot start stop, frame.Pivot text before pivot ∧
    frame.Zoned text pivot start stop after ∧
    (start = frame.lo ∧ stop = frame.hi ∧ parts = [⟨frame.lo, frame.hi, frame.depth + 1⟩] ∨
      start - frame.lo < frame.hi - frame.lo ∧ frame.hi - stop < frame.hi - frame.lo ∧
        parts = [⟨stop, frame.hi, frame.depth⟩, ⟨start, stop, frame.depth + 1⟩,
          ⟨frame.lo, start, frame.depth⟩])

theorem Divided.within (divided : frame.Divided text before parts after) :
    ∀ part ∈ parts, frame.lo ≤ part.lo ∧ part.hi ≤ frame.hi := by
  obtain ⟨pivot, start, stop, -, zoned, ⟨rfl, rfl, rfl⟩ | ⟨-, -, rfl⟩⟩ := divided.zones
  · simp
  · have ascending := zoned.lo_le_start
    have proper := zoned.start_lt_stop
    have bounded := zoned.stop_le_hi
    simp only [List.mem_cons, List.not_mem_nil, or_false, forall_eq_or_imp, forall_eq]
    omega

theorem Divided.apart (divided : frame.Divided text before parts after) :
    parts.Pairwise Frame.Apart := by
  obtain ⟨pivot, start, stop, -, zoned, ⟨-, -, rfl⟩ | ⟨-, -, rfl⟩⟩ := divided.zones
  · exact List.pairwise_singleton _ _
  · have proper := zoned.start_lt_stop
    simp only [List.pairwise_cons, List.mem_cons, List.not_mem_nil, or_false, forall_eq_or_imp,
      forall_eq, Apart]
    simp
    omega

end Frame

theorem Pending.divided {rest : List Frame} (pending : Pending text (frame :: rest) before)
    (divided : frame.Divided text before parts after) : Pending text (parts ++ rest) after :=
  pending.replace divided.outside divided.fits divided.within divided.apart

section Embed

variable {m start stop depth : Nat} {left right : List Nat} {items : Vector (Fin n) m}

omit [Occupied n] in
/-- What holds of the items between two places of a vector holds of what stands at those of an
order. -/
theorem Frame.slice_zone (property : Nat → Prop)
    (zone : Zone (fun position : Fin n => property position) start stop items) (inside : stop ≤ m)
    (depth : Nat) : ∀ position ∈ slice ⟨left.length + start, left.length + stop, depth⟩
      (embed left items right), property position := by
  intro position member
  obtain ⟨place, above, below, found⟩ := mem_slice.mp member
  obtain ⟨i, rfl⟩ := Nat.exists_eq_add_of_le (Nat.le_of_add_right_le above)
  dsimp only at above below
  have near : i < m := by omega
  rw [getElem?_embed items near, Option.some.injEq] at found
  rw [← found]
  exact zone i near (by omega) (by omega)

/-- The zones of a vector are those of an order that holds it. -/
theorem Frame.Zoned.embed {pivot : UInt8}
    (zones : Partition.Gathered (fun position : Fin n => text.byteAt (position + depth)) pivot
      items 0 start stop m) (proper : start < stop) (inside : stop ≤ m) :
    Zoned ⟨left.length, left.length + m, depth⟩ text pivot (left.length + start)
      (left.length + stop) (embed left items right) where
  lo_le_start := Nat.le_add_right _ start
  start_lt_stop := Nat.add_lt_add_left proper _
  stop_le_hi := Nat.add_le_add_left inside _
  below := slice_zone (fun position => text.byteAt (position + depth) < pivot)
    zones.below (proper.le.trans inside) depth
  equal := slice_zone (fun position => text.byteAt (position + depth) = pivot)
    zones.equal inside (depth + 1)
  above := slice_zone (fun position => pivot < text.byteAt (position + depth))
    zones.above (Nat.le_refl m) depth

omit [Occupied n] in
/-- Exchanges only move items of the range. -/
theorem Exchanged.slice_perm {after : Vector (Fin n) m} (exchanged : Exchanged 0 m items after)
    (depth : Nat) :
    (Frame.slice ⟨left.length, left.length + m, depth⟩ (embed left after right)).Perm
      (Frame.slice ⟨left.length, left.length + m, depth⟩ (embed left items right)) := by
  rw [Frame.slice_embed, Frame.slice_embed]
  exact exchanged.perm.toList.map Fin.val

theorem Frame.Pivot.embed (items : Vector (Fin n) m) (several : 0 < m) (depth : Nat) :
    Pivot ⟨left.length, left.length + m, depth⟩ text (embed left items right)
      (Bucket.median (text.byteAt (items[0] + depth)) (text.byteAt (items[m - 1] + depth))
        (text.byteAt (items[(0 + (m - 1)) / 2] + depth))) := by
  have last : left.length + m - 1 = left.length + (m - 1) := Nat.add_sub_assoc several _
  have half : (left.length + (left.length + m - 1)) / 2 = left.length + (0 + (m - 1)) / 2 := by
    omega
  refine ⟨_, _, _, getElem?_embed items several, ?_, ?_, rfl⟩
  · rw [last]
    exact getElem?_embed items (Nat.sub_lt several Nat.one_pos)
  · rw [half]
    exact getElem?_embed items (by omega)

section Divided

variable {base : Fin n} {moved : Vector (Fin n) m} {pivot : UInt8}

/-- A range whose rotations all have the pivot as their byte is sorted on, one byte deeper. -/
theorem Frame.Divided.embed_whole (aligned : Bucket.Aligned text depth base 0 m items)
    (exchanged : Exchanged 0 m items moved) (several : 0 < m) (shallow : depth ≤ Bucket.deepest)
    (chosen : Pivot ⟨left.length, left.length + m, depth⟩ text (embed left items right) pivot)
    (equal : Zone (fun position : Fin n => text.byteAt (position + depth) = pivot) 0 m moved) :
    Divided ⟨left.length, left.length + m, depth⟩ text (embed left items right)
      [⟨left.length, left.length + m, depth + 1⟩] (embed left moved right) := by
  have kept := aligned.exchanged exchanged (.inl ⟨Nat.le_refl 0, Nat.le_refl m⟩)
  have zoned := @Zoned.embed _ _ text _ _ _ depth left right _ pivot
    ⟨fun _ _ _ before => by omega, equal, fun _ _ above below => by omega⟩ several (Nat.le_refl m)
  refine ⟨.embed items _ depth, exchanged.slice_perm depth, ?_,
    pivot, left.length, left.length + m, chosen, zoned, .inl ⟨rfl, rfl, rfl⟩⟩
  simp only [List.mem_singleton, forall_eq]
  exact .embed (Bucket.Aligned.deeper kept several (Nat.le_refl m) equal) (Nat.zero_le m)
    (Nat.le_refl m) (Nat.succ_le_succ shallow)

/-- A range in three zones around the pivot is sorted on zone by zone, those with other bytes at the
same depth. -/
theorem Frame.Divided.embed_zones (aligned : Bucket.Aligned text depth base 0 m items)
    (exchanged : Exchanged 0 m items moved) (shallow : depth ≤ Bucket.deepest)
    (chosen : Pivot ⟨left.length, left.length + m, depth⟩ text (embed left items right) pivot)
    (zones : Partition.Gathered (fun position : Fin n => text.byteAt (position + depth)) pivot
      moved 0 start stop m) (proper : start < stop) (inside : stop ≤ m) (fewer : stop - start < m) :
    Divided ⟨left.length, left.length + m, depth⟩ text (embed left items right)
      [⟨left.length + stop, left.length + m, depth⟩,
        ⟨left.length + start, left.length + stop, depth + 1⟩,
        ⟨left.length, left.length + start, depth⟩] (embed left moved right) := by
  have kept := aligned.exchanged exchanged (.inl ⟨Nat.le_refl 0, Nat.le_refl m⟩)
  refine ⟨.embed items _ depth, exchanged.slice_perm depth, ?_,
    pivot, _, _, chosen, .embed zones proper inside, .inr ⟨?_, ?_, rfl⟩⟩
  · simp only [List.mem_cons, List.not_mem_nil, or_false, forall_eq_or_imp, forall_eq]
    exact ⟨.embed (kept.part (Nat.zero_le _) (Nat.le_refl m)) inside (Nat.le_refl m)
        (Nat.le_succ_of_le shallow),
      .embed (Bucket.Aligned.deeper (kept.part (Nat.zero_le _) inside) proper inside zones.equal)
        proper.le inside (Nat.succ_le_succ shallow),
      .embed (kept.part (Nat.le_refl 0) (proper.le.trans inside)) (Nat.zero_le _)
        (proper.le.trans inside) (Nat.le_succ_of_le shallow)⟩
  · dsimp only
    omega
  · dsimp only
    omega

end Divided

end Embed

theorem Bench.divide_spec {bench : Bench} (cyclic : Cyclic text bench.slots)
    (fits : frame.Fits text before)
    (long : Bucket.smallRange < frame.hi - frame.lo ∧ frame.depth ≤ Bucket.deepest) :
    ∃ parts after, bench.divide frame before = some (parts, after) ∧
      frame.Divided text before parts after := by
  obtain ⟨lo, hi, depth⟩ := frame
  obtain ⟨lo_le_hi, room, -, base, lined⟩ := fits
  dsimp only at lo_le_hi room lined long ⊢
  obtain ⟨left, m, items, right, rfl, rfl, rfl, aligned⟩ := lined.embed lo_le_hi room
  rw [Nat.add_sub_cancel_left] at long
  obtain ⟨long, shallow⟩ := long
  have several : 0 < m := Nat.zero_lt_of_lt long
  have computed := divide_embed left right cyclic several (Nat.zero_le m) (Nat.le_refl m) items
    shallow (Vector.getElem?_eq_getElem several)
    (Vector.getElem?_eq_getElem (Nat.sub_lt several Nat.one_pos))
    (Vector.getElem?_eq_getElem (by omega))
  have pivot := @Frame.Pivot.embed _ _ text _ left right items several depth
  have found := Bucket.equalCount_pos (fun position : Fin n => text.byteAt (position + depth))
    several (Nat.le_refl m) items
  dsimp only at computed found
  generalize Bucket.median _ _ _ = middle at computed pivot found
  obtain ⟨scanned, zones⟩ := Partition.ofRange_spec
    (fun position : Fin n => text.byteAt (position + depth)) middle items (Nat.zero_le m)
    (Nat.le_refl m)
  generalize Partition.ofRange _ _ items 0 m _ _ = partition at scanned zones computed found
  by_cases all : partition.equalCount = m - 0
  · rw [if_pos all] at computed
    exact ⟨_, _, computed, .embed_whole aligned scanned several shallow pivot (zones.all_equal all)⟩
  · rw [if_neg all] at computed
    obtain ⟨gathered, zones⟩ := Partition.gather_spec partition (Nat.le_refl m) zones
    have width := partition.equalStop_sub_equalStart
    have bounded := partition.equalStop_le
    exact ⟨_, _, computed, .embed_zones aligned (scanned.trans gathered) shallow pivot zones
      (by omega) bounded (by omega)⟩

end BlockSort
