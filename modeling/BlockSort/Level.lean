import BlockSort.Fault

namespace BlockSort

/-- A block size in units of 100000 bytes. -/
structure Level where
  value : Nat
  one_le : 1 ≤ value
  le_nine : value ≤ 9
  deriving DecidableEq

namespace Level

/-- Smallest blocks, least memory. -/
def least : Level := ⟨1, by decide, by decide⟩

/-- Largest blocks, most context for the sort. -/
def greatest : Level := ⟨9, by decide, by decide⟩

instance : Inhabited Level := ⟨greatest⟩

/-- Accepts the levels 1 to 9 and no other number. -/
def ofNat (value : Nat) : Except Fault Level :=
  if range : 1 ≤ value ∧ value ≤ 9 then .ok ⟨value, range.1, range.2⟩
  else .error (.invalidSetting "compression level"
    ("must be between 1 and 9, got " ++ value.repr))

def blockSize (level : Level) : Nat := level.value * 100000

/-- The decimal digit that stands for the level in a member's header. -/
def digit (level : Level) : UInt8 := 48 + UInt8.ofNat level.value

end Level

end BlockSort
