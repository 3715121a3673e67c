/-!
The checksum of raw bytes: a 32-bit cyclic redundancy check whose register shifts towards its high
end, so that a byte enters at the top and the table is read at the high byte.
-/
namespace BlockSort

/-- The register of a checksum in progress. -/
structure Crc where
  register : UInt32 := 0xFFFFFFFF
  deriving DecidableEq

namespace Crc

/-- The generator polynomial without its leading term. -/
def polynomial : UInt32 := 0x04C11DB7

/-- Shifts one bit out of the register and folds the polynomial in if the bit was set. -/
def shift (register : UInt32) : UInt32 :=
  if register &&& 0x80000000 ≠ 0 then (register <<< 1) ^^^ polynomial else register <<< 1

/-- What eight shifts make of a register that holds one byte at its top. -/
def table : Vector UInt32 256 :=
  Vector.ofFn fun byte => Nat.repeat shift 8 (UInt32.ofNat byte.val <<< 24)

/-- Takes one byte into the checksum, by one look at the table for its eight shifts. -/
def push (crc : Crc) (byte : UInt8) : Crc :=
  let top := (crc.register >>> 24).toUInt8 ^^^ byte
  have bound := UInt8.toNat_lt top
  ⟨(crc.register <<< 8) ^^^ table[top.toNat]⟩

/-- Takes `count` copies of a byte. -/
def pushCopies (crc : Crc) (byte : UInt8) (count : Nat) : Crc :=
  Nat.repeat (fun crc => crc.push byte) count crc

def pushAll (crc : Crc) (bytes : List UInt8) : Crc := bytes.foldl push crc

/-- The checksum of all bytes taken so far. -/
def value (crc : Crc) : UInt32 := ~~~crc.register

def ofBytes (bytes : List UInt8) : UInt32 := (pushAll {} bytes).value

/-- Folds a block's checksum into that of the blocks before it. -/
def chain (combined block : UInt32) : UInt32 :=
  ((combined <<< 1) ||| (combined >>> 31)) ^^^ block

end Crc

end BlockSort
