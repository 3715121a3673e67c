import BlockSort.ByteSet
import Mathlib

namespace BlockSort

theorem mem_allBytes (byte : UInt8) : byte ∈ allBytes := by
  refine List.mem_map.mpr ⟨byte.toNat, List.mem_range.mpr (UInt8.toNat_lt byte), ?_⟩
  exact UInt8.ofNat_toNat

theorem allBytes_ascending : allBytes.Pairwise (· < ·) := by
  refine List.pairwise_map.mpr (List.Pairwise.imp_of_mem ?_ List.pairwise_lt_range)
  intro first second one other less
  rw [List.mem_range] at one other
  rw [UInt8.lt_iff_toNat_lt, UInt8.toNat_ofNat', UInt8.toNat_ofNat']
  omega

theorem allBytes_nodup : allBytes.Nodup :=
  allBytes_ascending.imp fun less => UInt8.ne_of_lt less

namespace ByteSet

@[simp]
theorem contains_empty (byte : UInt8) : ({} : ByteSet).contains byte = false := by
  simp [contains]

@[simp]
theorem contains_insert (set : ByteSet) (byte other : UInt8) :
    (set.insert byte).contains other = (decide (byte = other) || set.contains other) := by
  simp only [insert, contains, Vector.getElem_set]
  by_cases same : byte = other
  · simp [same]
  · have different : byte.toNat ≠ other.toNat := fun equal => same (UInt8.toNat_inj.mp equal)
    simp [same, different]

theorem mem_toList (set : ByteSet) (byte : UInt8) : byte ∈ set.toList ↔ set.contains byte := by
  simp [toList, mem_allBytes]

theorem length_toList_le (set : ByteSet) : set.toList.length ≤ 256 := by
  have bound := List.length_filter_le set.contains allBytes
  simpa [toList, allBytes] using bound

end ByteSet

end BlockSort
