import BlockSort.ByteSet
import BlockSort.Proofs.Reading

namespace BlockSort

namespace ByteSet

/-- The members of a range of sixteen byte values. -/
def members (set : ByteSet) (high : Nat) : List UInt8 :=
  ((List.range 16).map fun low => UInt8.ofNat (16 * high + low)).filter set.contains

theorem flatMap_members (set : ByteSet) :
    (List.range 16).flatMap set.members = set.toList := by
  have ranges : allBytes =
      (List.range 16).flatMap fun high =>
        (List.range 16).map fun low => UInt8.ofNat (16 * high + low) := by decide +kernel
  rw [toList, ranges, List.filter_flatMap]
  rfl

theorem members_eq_nil {set : ByteSet} {high : Nat}
    (unused : (set.range high).contains true = false) : set.members high = [] := by
  have absent : ∀ low < 16, set.contains (UInt8.ofNat (16 * high + low)) = false := by
    simpa [range] using unused
  rw [members, List.filter_eq_nil_iff]
  rintro byte member found
  obtain ⟨low, bound, rfl⟩ := List.mem_map.mp member
  rw [absent low (List.mem_range.mp bound)] at found
  contradiction

private theorem zip_map_self {α β : Type} (items : List α) (function : α → β) :
    items.zip (items.map function) = items.map fun item => (item, function item) := by
  induction items with
  | nil => rfl
  | cons item rest ih => rw [List.map_cons, List.zip_cons_cons, ih, List.map_cons]

theorem filterMap_range (set : ByteSet) (high : Nat) :
    (((List.range 16).zip (set.range high)).filterMap fun (low, present) =>
      if present then some (UInt8.ofNat (16 * high + low)) else none) = set.members high := by
  rw [range, zip_map_self, members]
  generalize List.range 16 = lows
  induction lows with
  | nil => rfl
  | cons low rest ih =>
    rw [List.map_cons, List.map_cons, List.filterMap_cons, ih, List.filter_cons]
    cases set.contains (UInt8.ofNat (16 * high + low)) <;> rfl

@[simp]
theorem length_range (set : ByteSet) (high : Nat) : (set.range high).length = 16 := by
  simp [range]

/-- What the symbol map holds for a range: nothing if it has no members. -/
def rangeBits (set : ByteSet) (high : Nat) : List Bool :=
  if (set.range high).contains true then set.range high else []

theorem bits_mapFields (set : ByteSet) :
    fieldBits set.mapFields =
      ((List.range 16).map fun high => (set.range high).contains true) ++
        (List.range 16).flatMap set.rangeBits := by
  rw [mapFields, fieldBits_cons, Field.bits_ofBits (by simp), List.map_map]
  congr 1
  generalize List.range 16 = highs
  induction highs with
  | nil => rfl
  | cons high rest ih =>
    rw [List.map_cons, List.filter_cons, List.flatMap_cons, ← ih, rangeBits]
    by_cases used : (set.range high).contains true = true
    · rw [if_pos used, if_pos used, List.map_cons, fieldBits_cons, Field.bits_ofBits (by simp)]
    · rw [if_neg used, if_neg used, List.nil_append]

end ByteSet

namespace Decoder

theorem reads_symbolMap (set : ByteSet) :
    Reads symbolMap (fieldBits set.mapFields) set.toList := by
  have ranges : (List.range 16).zip
      ((List.range 16).map fun high => (set.range high).contains true) =
      (List.range 16).map fun high => (high, (set.range high).contains true) :=
    ByteSet.zip_map_self _ _
  rw [set.bits_mapFields, symbolMap, ← set.flatMap_members, List.flatMap_def]
  refine (Reads.flags _ (by simp)).bind (Reads.map List.flatten ?_)
  rw [ranges, List.mapM_map]
  refine Reads.mapM fun high _ => ?_
  rw [ByteSet.rangeBits]
  simp only [Function.comp_apply]
  cases used : (set.range high).contains true with
  | true =>
    have flags := Reads.flags (set.range high) (set.length_range high)
    rw [← set.filterMap_range high]
    exact flags.map _
  | false =>
    rw [ByteSet.members_eq_nil used]
    exact Reads.pure []

end Decoder

end BlockSort
