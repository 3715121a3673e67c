import BlockSort.BitWriter

namespace BlockSort

/-- All byte values in ascending order. -/
def allBytes : List UInt8 := (List.range 256).map UInt8.ofNat

structure ByteSet where
  flags : Vector Bool 256 := Vector.replicate 256 false

namespace ByteSet

def contains (set : ByteSet) (byte : UInt8) : Bool :=
  have bound := UInt8.toNat_lt byte
  set.flags[byte.toNat]

def insert : ByteSet → UInt8 → ByteSet
  | ⟨flags⟩, byte => ⟨flags.set byte.toNat true (UInt8.toNat_lt byte)⟩

/-- The members in ascending order. -/
def toList (set : ByteSet) : List UInt8 := allBytes.filter set.contains

/-- The flags of the sixteen byte values with the given high half. -/
def range (set : ByteSet) (high : Nat) : List Bool :=
  (List.range 16).map fun low => set.contains (UInt8.ofNat (16 * high + low))

/-- A set in two levels: which ranges have members, and the flags of those that have. -/
def mapFields (set : ByteSet) : List Field :=
  let ranges := (List.range 16).map set.range
  .ofBits (ranges.map (·.contains true)) :: (ranges.filter (·.contains true)).map .ofBits

end ByteSet

end BlockSort
