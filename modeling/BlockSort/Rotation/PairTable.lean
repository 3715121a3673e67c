import BlockSort.ByteSet

namespace BlockSort

structure PairTable (α : Type) where
  cells : Vector α 65536

namespace PairTable

variable {α : Type}

def index (first second : UInt8) : Nat := first.toNat * 256 + second.toNat

theorem index_lt (first second : UInt8) : index first second < 65536 := by
  have := UInt8.toNat_lt first
  have := UInt8.toNat_lt second
  simp only [index]
  omega

theorem index_inj {first second other last : UInt8}
    (same : index first second = index other last) : first = other ∧ second = last := by
  have := UInt8.toNat_lt second
  have := UInt8.toNat_lt last
  simp only [index] at same
  exact ⟨UInt8.toNat_inj.mp (by omega), UInt8.toNat_inj.mp (by omega)⟩

def fill (value : α) : PairTable α := ⟨Vector.replicate 65536 value⟩

def get (table : PairTable α) (first second : UInt8) : α :=
  have bound := index_lt first second
  table.cells[index first second]

def set (table : PairTable α) (first second : UInt8) (value : α) : PairTable α :=
  ⟨table.cells.set (index first second) value (index_lt first second)⟩

/-- The entries whose pair has the given first byte, by ascending second byte. -/
def row (table : PairTable α) (first : UInt8) : List α := allBytes.map (table.get first)

/-- Puts an item in front of a list. -/
def push (table : PairTable (List α)) (first second : UInt8) (item : α) : PairTable (List α) :=
  table.set first second (item :: table.get first second)

theorem get_fill (value : α) (first second : UInt8) :
    (fill value).get first second = value := by
  simp [get, fill]

theorem get_set (table : PairTable α) (first second other last : UInt8) (value : α) :
    (table.set first second value).get other last =
      if first = other ∧ second = last then value else table.get other last := by
  simp only [get, set, Vector.getElem_set]
  split
  · rename_i same
    rw [ite_cond_eq_true _ _ (eq_true (index_inj same))]
  · rename_i different
    rw [ite_cond_eq_false]
    exact eq_false fun ⟨same, equal⟩ => different (by rw [same, equal])

end PairTable

end BlockSort
