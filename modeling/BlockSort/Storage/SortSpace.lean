import BlockSort.Block
import BlockSort.Rotation.Order
import BlockSort.Storage.Bench

/-!
The storage in which all rotations of a block are sorted. It is kept from block to block, and a sort
finds in it what the sorts before have left, those that were given up included.
-/
namespace BlockSort

structure SortSpace where
  /-- The positions of the rotations, in their order when they are sorted. -/
  order : Array Nat
  /-- For each pair of leading bytes where its rotations begin in the order, with a mark when they
  are sorted, and one more entry at the end. -/
  starts : Array Nat
  /-- The ranks of positions among those with the same byte. -/
  ranks : Array Nat
  /-- The ranges that are still to be sorted. -/
  pending : List Frame

namespace SortSpace

/-- The bit of an entry that marks its pair as sorted. -/
def mark : Nat := 1 <<< 21

/-- All bits of an entry but the mark. -/
def unmarked : Nat := 1 <<< 32 - 1 - mark

def isMarked (entry : Nat) : Bool := entry &&& mark ≠ 0

/-- Where the rotations of an entry begin. -/
def placeOf (entry : Nat) : Nat := entry &&& unmarked

/-- Counts the pairs of leading bytes, each by the place of its second byte. -/
def countPairs (slots : Array UInt8) :
    (count place : Nat) → (previous : UInt8) → Array Nat → Option (Array Nat)
  | 0, _, _, starts => some starts
  | count + 1, place, previous, starts => do
    let byte ← slots[place]?
    let starts ← Cells.update starts (PairTable.index previous byte) (some <| · + 1)
    countPairs slots count (place + 1) byte starts

/-- Adds to each entry the one before it. -/
def accumulate : (count place : Nat) → Array Nat → Option (Array Nat)
  | 0, _, starts => some starts
  | count + 1, place, starts => do
    let before ← starts[place - 1]?
    accumulate count (place + 1) (← Cells.update starts place (some <| · + before))

/-- Puts a position in front of those of its pair. -/
def file (pair position : Nat) (order starts : Array Nat) : Option (Array Nat × Array Nat) := do
  let start ← Cells.minus (← starts[pair]?) 1
  return (← Cells.put order start position, ← Cells.put starts pair start)

/-- Files positions by their first two bytes, in ascending order. -/
def fileAll (slots : Array UInt8) :
    (count position : Nat) → (first : UInt8) → Array Nat → Array Nat →
      Option (Array Nat × Array Nat)
  | 0, _, _, order, starts => some (order, starts)
  | count + 1, position, first, order, starts => do
    let second ← slots[position + 2]?
    let (order, starts) ← file (PairTable.index first second) position order starts
    fileAll slots count (position + 1) second order starts

/-- Files all positions. The pair of the last one begins anew with the first byte. -/
def collect (slots : Array UInt8) (size : Nat) (order starts : Array Nat) :
    Option (Array Nat × Array Nat) := do
  let starts ← countPairs slots size 1 (← slots[0]?) (Array.replicate starts.size 0)
  let starts ← accumulate (starts.size - 1) 1 starts
  let (order, starts) ← fileAll slots (size - 1) 0 (← slots[1]?) order starts
  file (PairTable.index (← slots[size]?) (← slots[1]?)) (size - 1) order starts

/-- How many rotations start with a byte. -/
def rowSize (starts : Array Nat) (first : Nat) : Option Nat := do
  Cells.minus (← starts[(first + 1) * 256]?) (← starts[first * 256]?)

/-- A sort under way: its storage but for the ranks, and its work. -/
structure Progress where
  order : Array Nat
  starts : Array Nat
  pending : List Frame
  work : Nat

/-- Sorts the buckets of a row that are not marked, until the budget is overspent. -/
def sortRow (bench : Bench) (first : UInt8) : List UInt8 → Progress → Option Progress
  | [], progress => some progress
  | second :: rest, ⟨order, starts, pending, work⟩ => do
    let bucket := PairTable.index first second
    let entry ← starts[bucket]?
    if isMarked entry then sortRow bench first rest ⟨order, starts, pending, work⟩
    else
      let lo := placeOf entry
      let hi := placeOf (← starts[bucket + 1]?)
      if lo + 1 < hi then
        let (pending, order, work) ← bench.drain [⟨lo, hi, 2⟩] order work
        if bench.overspent work then some ⟨order, starts, pending, work⟩
        else
          sortRow bench first rest
            ⟨order, ← Cells.put starts bucket (entry ||| mark), pending, work⟩
      else
        sortRow bench first rest
          ⟨order, ← Cells.put starts bucket (entry ||| mark), pending, work⟩

/-- Records the ranks of the rotations from `start` on, also past the end for the first positions.
A rank has sixteen bits. -/
def recordRanks (order : Array Nat) (size start shift : Nat) :
    (count place : Nat) → Array Nat → Option (Array Nat)
  | 0, _, ranks => some ranks
  | count + 1, place, ranks => do
    let position ← order[start + place]?
    let rank := (place >>> shift) % 65536
    let ranks ← Cells.put ranks position rank
    if position < Block.margin then
      recordRanks order size start shift count (place + 1)
        (← Cells.put ranks (position + size) rank)
    else recordRanks order size start shift count (place + 1) ranks

/-- Places the predecessors of a row's rotations, each where the next one of its first byte goes.
Those that start with a sorted byte are in their places. -/
def placePredecessors (slots : Array UInt8) (size : Nat) (sorted : ByteSet) :
    (count place : Nat) → (order next : Array Nat) → Option (Array Nat)
  | 0, _, order, _ => some order
  | count + 1, place, order, next => do
    let position ← order[place]?
    let first ← slots[position]?
    if sorted.contains first then placePredecessors slots size sorted count (place + 1) order next
    else
      let free ← next[first.toNat]?
      let earlier := if position = 0 then size - 1 else position - 1
      placePredecessors slots size sorted count (place + 1) (← Cells.put order free earlier)
        (← Cells.put next first.toNat (free + 1))

/-- Marks all buckets with a given second byte. -/
def markColumn (second : UInt8) : List UInt8 → Array Nat → Option (Array Nat)
  | [], starts => some starts
  | first :: rest, starts => do
    markColumn second rest
      (← Cells.update starts (PairTable.index first second) (some <| · ||| mark))

/-- Where the buckets with a given second byte begin. -/
def columnStarts (starts : Array Nat) (second : UInt8) : Option (List Nat) :=
  allBytes.mapM fun first => do return placeOf (← starts[PairTable.index first second]?)

/-- Visits leading bytes in order, the one at the given index of the visiting order first. The row
of the last one needs no ranks, as nothing is sorted after it. -/
def visitAll (slots : Array UInt8) (size : Nat) (budget : Option Nat) :
    (index : Nat) → List UInt8 → ByteSet → (ranks : Array Nat) → Progress →
      Option (Array Nat × Progress)
  | _, [], _, ranks, progress => some (ranks, progress)
  | index, first :: rest, sorted, ranks, progress => do
    let bench : Bench := { slots, ranks, size, budget }
    let progress ← sortRow bench first allBytes progress
    if bench.overspent progress.work then some (ranks, progress)
    else
      let ⟨order, starts, pending, work⟩ := progress
      let sorted := sorted.insert first
      let lo := placeOf (← starts[first.toNat * 256]?)
      let hi := placeOf (← starts[(first.toNat + 1) * 256]?)
      let length ← Cells.minus hi lo
      let ranks ←
        if index < 255 then
          recordRanks order size lo (Rotation.rankShift length) length 0 ranks
        else some ranks
      let next ← columnStarts starts first
      let order ← placePredecessors slots size sorted length lo order next.toArray
      let starts ← markColumn first allBytes starts
      visitAll slots size budget (index + 1) rest sorted ranks ⟨order, starts, pending, work⟩

/-- Sorts all rotations of the stored bytes, and tells the work that was done. -/
def sortRotations (slots : Array UInt8) (size : Nat) (budget : Option Nat) (space : SortSpace) :
    Option (SortSpace × Nat) := do
  let ⟨order, starts, ranks, pending⟩ := space
  let (order, starts) ← collect slots size order starts
  let sizes ← (List.range 256).mapM (rowSize starts)
  let visits := Rotation.visitOrder (Vector.ofFn fun first => sizes.getD first 0)
  let (ranks, ⟨order, starts, pending, work⟩) ←
    visitAll slots size budget 0 visits {} ranks ⟨order, starts, pending, 0⟩
  return (⟨order, starts, ranks, pending⟩, work)

end SortSpace

end BlockSort
