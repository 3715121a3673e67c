import BlockSort.ByteSet
import BlockSort.Crc
import BlockSort.Run

namespace BlockSort

structure Block where
  /-- No run is added once the block is larger than this. -/
  allowed : Nat
  bytes : Array UInt8 := #[]
  /-- The values that occur in `bytes`. -/
  present : ByteSet := {}
  /-- The checksum of the bytes before they were encoded as runs. -/
  crc : Crc := {}
  /-- Whether the bytes were perturbed to be sorted. -/
  perturbed : Bool := false

namespace Block

/-- The margin kept free at the end of a block. -/
def margin : Nat := 20

/-- An empty block that may hold nearly `size` bytes. -/
def ofSize (size : Nat) : Block := { allowed := size - margin }

/-- An empty block of the same allowed size. -/
def cleared (block : Block) : Block := { allowed := block.allowed }

def size (block : Block) : Nat := block.bytes.size

def isEmpty (block : Block) : Bool := block.bytes.isEmpty

def isFull (block : Block) : Bool := block.allowed < block.size

/-- Adds a run: its encoded form to the bytes, its expansion to the checksum. -/
def append (block : Block) (run : Run) : Block :=
  let present := block.present.insert run.byte
  { block with
    bytes := block.bytes ++ run.encode
    present := if run.length < 4 then present else present.insert (run.length - 4)
    crc := block.crc.pushCopies run.byte run.length.toNat }

/-- Adds a run unless the block is full, and tells whether it did. -/
def offer (block : Block) (run : Run) : Bool × Block :=
  if block.isFull then (false, block) else (true, block.append run)

/-- Adds runs in order until one is refused; gives the number of runs added. A full block stays
full, so the runs after a refused one are refused as well. -/
def fill (block : Block) (runs : List Run) : Nat × Block :=
  runs.foldl (fun (added, block) run =>
    match block.offer run with
    | (accepted, block) => (if accepted then added + 1 else added, block)) (0, block)

end Block

end BlockSort
