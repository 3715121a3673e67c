import BlockSort.Block
import BlockSort.Perturbation
import BlockSort.Rotation.Order

/-!
A block together with the sorted order of its rotations. A block whose sort takes too much work is
perturbed first and then sorted at any cost.
-/
namespace BlockSort

/-- The work of a sort that was given up, and the limit that it exceeded. -/
structure Overrun where
  work : Nat
  limit : Nat
  deriving DecidableEq

structure SortedBlock where
  block : Block
  /-- The positions of the block's bytes, sorted by the rotations that start there. -/
  order : List (Fin block.bytes.size)
  /-- Present if the block was perturbed by this sort. -/
  overrun : Option Overrun

namespace SortedBlock

/-- The work allowed for each byte of a block but the first. -/
def workPerByte : Nat := 30

/-- The last bytes of the sorted rotations. -/
def column (sorted : SortedBlock) : List UInt8 :=
  sorted.order.map (Text.lastByte sorted.block.bytes.toVector)

/-- The rank of the unrotated block. -/
def origin (sorted : SortedBlock) : Nat := sorted.order.findIdx (·.val = 0)

end SortedBlock

namespace Block

/-- Perturbs the bytes and takes stock of their values anew. The checksum stays that of the raw
bytes. -/
def perturb (block : Block) : Block :=
  let bytes := Perturbation.apply block.bytes
  { block with bytes, present := bytes.foldl ByteSet.insert {}, perturbed := true }

/-- The sorted order of a block's rotations, and the work it took. -/
def sortRotations (block : Block) (budget : Option Nat) : List (Fin block.bytes.size) × Nat :=
  if empty : block.bytes.size = 0 then ([], 0)
  else
    have : Occupied block.bytes.size := ⟨Nat.pos_of_ne_zero empty⟩
    Rotation.sort block.bytes.toVector budget

/-- Sorts a block, or perturbs it and sorts that if the first sort exceeds its limit. -/
def sort (block : Block) : SortedBlock :=
  let limit := SortedBlock.workPerByte * (block.size - 1)
  match block.sortRotations (some limit) with
  | (order, work) =>
    if limit < work then
      let block := block.perturb
      ⟨block, (block.sortRotations none).1, some ⟨work, limit⟩⟩
    else ⟨block, order, none⟩

end Block

end BlockSort
