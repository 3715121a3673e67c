import BlockSort.SortedBlock
import BlockSort.Storage.SortSpace

namespace BlockSort

structure BlockStore where
  slots : Array UInt8
  /-- The number of bytes held. -/
  size : Nat := 0
  present : ByteSet := {}
  crc : Crc := {}
  /-- No run is added once more bytes are held than this. -/
  allowed : Nat
  perturbed : Bool := false

namespace BlockStore

/-- The storage of an empty block that may hold nearly `size` bytes. -/
def ofSize (size : Nat) : BlockStore :=
  { slots := Array.replicate (size + 1 + Block.margin) 0, allowed := size - Block.margin }

/-- The storage of an empty block. What is stored stays where it is. -/
def cleared (store : BlockStore) : BlockStore := { slots := store.slots, allowed := store.allowed }

/-- Adds a run unless the block is full, and tells whether it did. -/
def offer (store : BlockStore) (run : Run) : Option (Bool × BlockStore) :=
  if store.allowed < store.size then some (false, store)
  else do
    let ⟨slots, size, present, crc, allowed, perturbed⟩ := store
    let crc := crc.pushCopies run.byte run.length.toNat
    let present := present.insert run.byte
    let present := if run.length < 4 then present else present.insert (run.length - 4)
    let slots ← Cells.putAll slots (size + 1) run.encode
    return (true, ⟨slots, size + run.encode.length, present, crc, allowed, perturbed⟩)

theorem size_pos_of_offer {store after : BlockStore} {run : Run}
    (full : store.offer run = some (false, after)) : 0 < store.size := by
  rw [offer] at full
  split at full
  · rename_i more
    exact Nat.zero_lt_of_lt more
  · simp only [Option.bind_eq_bind, Option.bind_eq_some_iff] at full
    obtain ⟨slots, -, full⟩ := full
    cases full

/-- Repeats the first bytes past the end. -/
def mirror (size : Nat) : (count place : Nat) → Array UInt8 → Option (Array UInt8)
  | 0, _, slots => some slots
  | count + 1, place, slots => do
    let byte ← slots[place % size + 1]?
    mirror size count (place + 1) (← Cells.put slots (size + place + 1) byte)

/-- Makes bytes ready to be read cyclically. -/
def prepare (size : Nat) (slots : Array UInt8) : Option (Array UInt8) := do
  let slots ← mirror size Block.margin 0 slots
  Cells.put slots 0 (← slots[size]?)

/-- Forgets the ranks of all positions, those past the end included. -/
def clearRanks (size : Nat) (ranks : Array Nat) : Option (Array Nat) :=
  Cells.putAll ranks 0 (List.replicate (size + Block.margin) 0)

/-- Flips the bytes of a perturbation in place, and takes stock of the values anew. -/
def perturbFrom : (count place : Nat) → Perturbation → Array UInt8 → ByteSet →
    Option (Array UInt8 × ByteSet)
  | 0, _, _, slots, present => some (slots, present)
  | count + 1, place, clock, slots, present => do
    let (flip, clock) := clock.advance
    let slots ← if flip then Cells.update slots (place + 1) (some <| · ^^^ 1) else some slots
    perturbFrom count (place + 1) clock slots (present.insert (← slots[place + 1]?))

/-- Sorts the block in the given space, after a perturbation if the first sort exceeds its limit.
Gives the place of the unrotated block in the order, and the overrun if there was one. -/
def sort (store : BlockStore) (space : SortSpace) :
    Option (Nat × Option Overrun × BlockStore × SortSpace) := do
  let last ← Cells.minus store.size 1
  let limit := SortedBlock.workPerByte * last
  let ⟨slots, size, present, crc, allowed, perturbed⟩ := store
  let slots ← prepare size slots
  let ranks ← clearRanks size space.ranks
  let (space, work) ← SortSpace.sortRotations slots size (some limit) { space with ranks }
  if limit < work then
    let (slots, present) ← perturbFrom size 0 .initial slots {}
    let slots ← prepare size slots
    let ranks ← clearRanks size space.ranks
    let (space, _) ← SortSpace.sortRotations slots size none { space with ranks }
    let origin ← (← Cells.front space.order size).findIdx? (· = 0)
    return (origin, some ⟨work, limit⟩, ⟨slots, size, present, crc, allowed, true⟩, space)
  else
    let origin ← (← Cells.front space.order size).findIdx? (· = 0)
    return (origin, none, ⟨slots, size, present, crc, allowed, perturbed⟩, space)

end BlockStore

end BlockSort
