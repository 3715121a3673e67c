import BlockSort.CodedStream
import BlockSort.SortedBlock

/-!
The series of blocks that make up a member. Runs collect in the current block; a block that is
complete is sorted, coded and laid out with its header, and its checksum is chained to those of the
blocks before it.
-/
namespace BlockSort

namespace Mark

/-- The first two bytes of a member. -/
def member : List UInt8 := [0x42, 0x5A]

/-- The byte after them, for the coding in use. -/
def coding : UInt8 := 0x68

/-- The six bytes before each block. -/
def block : List UInt8 := [0x31, 0x41, 0x59, 0x26, 0x53, 0x59]

/-- The six bytes before the checksum at the end of a member. -/
def trailer : List UInt8 := [0x17, 0x72, 0x45, 0x38, 0x50, 0x90]

end Mark

namespace SortedBlock

/-- The symbols of the block's last column, with tables chosen for them. -/
def coded (sorted : SortedBlock) : CodedStream :=
  .ofSymbols (.ofColumn sorted.block.present sorted.column)

/-- What precedes the coded symbols of a block. -/
def headerFields (sorted : SortedBlock) : List Field :=
  Mark.block.map .byte ++ Field.word sorted.block.crc.value ++
    [.bit sorted.block.perturbed, ⟨UInt32.ofNat sorted.origin, 24⟩] ++
    sorted.block.present.mapFields

/-- The event of a sort that was given up. -/
def overrunEvent (sorted : SortedBlock) : Option Event :=
  sorted.overrun.map fun overrun => .sortOverrun overrun.work overrun.limit sorted.block.size

/-- The event of a block that was written, with its number in the series. -/
def writtenEvent (sorted : SortedBlock) (coded : CodedStream) (number : Nat) : Event :=
  .blockWritten number sorted.block.size sorted.block.crc.value sorted.origin
    sorted.block.perturbed coded.symbolCount coded.choice.tables.length
    coded.choice.selectors.length

/-- All that is emitted for a block with the given number. -/
def emissions (sorted : SortedBlock) (number : Nat) : List Emission :=
  let coded := sorted.coded
  sorted.overrunEvent.toList.map .note ++ [.fields sorted.headerFields] ++ coded.emissions ++
    [.note (sorted.writtenEvent coded number)]

end SortedBlock

structure Series where
  level : Level
  /-- The block that takes the next run. -/
  block : Block
  /-- The chained checksum of the member's complete blocks. -/
  combined : UInt32 := 0
  written : Nat := 0
  /-- How many of the blocks written were perturbed. -/
  perturbed : Nat := 0

namespace Series

def ofLevel (level : Level) : Series := { level, block := .ofSize level.blockSize }

/-- Forgets an earlier member. The counts go on. -/
def restart (series : Series) : Series :=
  { series with combined := 0, block := series.block.cleared }

def append (series : Series) (run : Run) : Series :=
  { series with block := series.block.append run }

/-- The series while its sorted block is written, and after that has failed. -/
def withSorted (series : Series) (sorted : SortedBlock) : Series :=
  { series with
    block := sorted.block
    combined := Crc.chain series.combined series.block.crc.value }

/-- The series when its block is written: the block is counted, and a new one begins. -/
def advance (series : Series) : Series :=
  { series with
    block := series.block.cleared
    written := series.written + 1
    perturbed := if series.block.perturbed then series.perturbed + 1 else series.perturbed }

/-- What follows the first mark of a member. -/
def headerFields (series : Series) : List Field := [.byte Mark.coding, .byte series.level.digit]

/-- What a member ends with. -/
def trailerEmissions (series : Series) : List Emission :=
  [.fields (Mark.trailer.map .byte ++ Field.word series.combined),
    .note (.trailerWritten series.combined)]

end Series

end BlockSort
