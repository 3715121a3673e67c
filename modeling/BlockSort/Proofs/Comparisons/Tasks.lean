import BlockSort.Storage.BlockStore
import Mathlib

namespace BlockSort

/-- A call of a function that takes part in a sort, with what it is given. -/
inductive Task where
  | sort (store : BlockStore) (space : SortSpace)
  | rotations (slots : Array UInt8) (size : Nat) (budget : Option Nat) (space : SortSpace)
  | visits (slots : Array UInt8) (size : Nat) (budget : Option Nat) (index : Nat)
      (firsts : List UInt8) (sorted : ByteSet) (ranks : Array Nat) (progress : SortSpace.Progress)
  | row (bench : Bench) (first : UInt8) (seconds : List UInt8) (progress : SortSpace.Progress)
  | ranges (bench : Bench) (pending : List Frame) (order : Array Nat) (work : Nat)
  | insertion (bench : Bench) (frame : Frame) (order : Array Nat) (work : Nat)
  | gaps (bench : Bench) (depth first size : Nat) (gaps : List Nat) (order : Array Nat) (work : Nat)
  | pass (bench : Bench) (depth gap first count place : Nat) (order : Array Nat) (work : Nat)
  | sink (bench : Bench) (depth gap first item : Nat) (order : Array Nat) (work place : Nat)
  | comparison (bench : Bench) (depth p q work : Nat)

namespace Task

open SortSpace (isMarked placeOf mark)

/-- The first task calls the second. -/
inductive Calls : Task → Task → Prop where
  /-- All rotations are sorted within a limit. -/
  | first {store space last slots ranks}
      (positive : Cells.minus store.size 1 = some last)
      (prepared : BlockStore.prepare store.size store.slots = some slots)
      (cleared : BlockStore.clearRanks store.size space.ranks = some ranks) :
      Calls (.sort store space) (.rotations slots store.size
        (some (SortedBlock.workPerByte * last)) { space with ranks })
  /-- After too much work they are sorted once more, perturbed and without a limit. -/
  | again {store space last slots ranks left work flipped present twice others}
      (positive : Cells.minus store.size 1 = some last)
      (prepared : BlockStore.prepare store.size store.slots = some slots)
      (cleared : BlockStore.clearRanks store.size space.ranks = some ranks)
      (given : SortSpace.sortRotations slots store.size
        (some (SortedBlock.workPerByte * last)) { space with ranks } = some (left, work))
      (exceeded : SortedBlock.workPerByte * last < work)
      (perturbed : BlockStore.perturbFrom store.size 0 .initial slots {} = some (flipped, present))
      (ready : BlockStore.prepare store.size flipped = some twice)
      (forgotten : BlockStore.clearRanks store.size left.ranks = some others) :
      Calls (.sort store space) (.rotations twice store.size none { left with ranks := others })
  | visits {slots size budget order starts ranks pending filed next sizes}
      (collected : SortSpace.collect slots size order starts = some (filed, next))
      (counted : (List.range 256).mapM (SortSpace.rowSize next) = some sizes) :
      Calls (.rotations slots size budget ⟨order, starts, ranks, pending⟩)
        (.visits slots size budget 0
          (Rotation.visitOrder (Vector.ofFn fun first => sizes.getD first 0)) {} ranks
          ⟨filed, next, pending, 0⟩)
  | row {slots size budget index first rest sorted ranks progress} :
      Calls (.visits slots size budget index (first :: rest) sorted ranks progress)
        (.row { slots, ranks, size, budget } first allBytes progress)
  /-- The next leading byte is visited when conclusions are drawn from the sorted row. -/
  | onward {slots size budget index first rest sorted ranks progress}
      {order starts pending work low high length recorded next placed marked}
      (given : SortSpace.sortRow { slots, ranks, size, budget } first allBytes progress =
        some ⟨order, starts, pending, work⟩)
      (running : Bench.overspent { slots, ranks, size, budget } work = false)
      (lowAt : starts[first.toNat * 256]? = some low)
      (highAt : starts[(first.toNat + 1) * 256]? = some high)
      (span : Cells.minus (placeOf high) (placeOf low) = some length)
      (records : (if index < 255 then
          SortSpace.recordRanks order size (placeOf low) (Rotation.rankShift length) length 0 ranks
        else some ranks) = some recorded)
      (column : SortSpace.columnStarts starts first = some next)
      (places : SortSpace.placePredecessors slots size (sorted.insert first) length (placeOf low)
        order next.toArray = some placed)
      (marks : SortSpace.markColumn first allBytes starts = some marked) :
      Calls (.visits slots size budget index (first :: rest) sorted ranks progress)
        (.visits slots size budget (index + 1) rest (sorted.insert first) recorded
          ⟨placed, marked, pending, work⟩)
  | bucket {bench first second rest order starts pending work entry next}
      (entryAt : starts[PairTable.index first second]? = some entry)
      (unmarked : isMarked entry = false)
      (nextAt : starts[PairTable.index first second + 1]? = some next)
      (several : placeOf entry + 1 < placeOf next) :
      Calls (.row bench first (second :: rest) ⟨order, starts, pending, work⟩)
        (.ranges bench [⟨placeOf entry, placeOf next, 2⟩] order work)
  /-- A marked bucket is left as it is. -/
  | skip {bench first second rest order starts pending work entry}
      (entryAt : starts[PairTable.index first second]? = some entry)
      (marked : isMarked entry = true) :
      Calls (.row bench first (second :: rest) ⟨order, starts, pending, work⟩)
        (.row bench first rest ⟨order, starts, pending, work⟩)
  /-- A bucket of several rotations is marked when it is sorted. -/
  | settle {bench first second rest order starts pending work entry next left after done marks}
      (entryAt : starts[PairTable.index first second]? = some entry)
      (unmarked : isMarked entry = false)
      (nextAt : starts[PairTable.index first second + 1]? = some next)
      (several : placeOf entry + 1 < placeOf next)
      (given : bench.drain [⟨placeOf entry, placeOf next, 2⟩] order work =
        some (left, after, done))
      (running : bench.overspent done = false)
      (marked : Cells.put starts (PairTable.index first second) (entry ||| mark) = some marks) :
      Calls (.row bench first (second :: rest) ⟨order, starts, pending, work⟩)
        (.row bench first rest ⟨after, marks, left, done⟩)
  /-- A bucket of at most one rotation is marked at once. -/
  | mark {bench first second rest order starts pending work entry next marks}
      (entryAt : starts[PairTable.index first second]? = some entry)
      (unmarked : isMarked entry = false)
      (nextAt : starts[PairTable.index first second + 1]? = some next)
      (few : ¬placeOf entry + 1 < placeOf next)
      (marked : Cells.put starts (PairTable.index first second) (entry ||| mark) = some marks) :
      Calls (.row bench first (second :: rest) ⟨order, starts, pending, work⟩)
        (.row bench first rest ⟨order, marks, pending, work⟩)
  /-- The parts of a long range are sorted in its place. -/
  | divide {bench frame rest order work parts after}
      (long : Bucket.smallRange < frame.hi - frame.lo ∧ frame.depth ≤ Bucket.deepest)
      (given : bench.divide frame order = some (parts, after)) :
      Calls (.ranges bench (frame :: rest) order work) (.ranges bench (parts ++ rest) after work)
  | insertion {bench frame rest order work}
      (short : ¬(Bucket.smallRange < frame.hi - frame.lo ∧ frame.depth ≤ Bucket.deepest)) :
      Calls (.ranges bench (frame :: rest) order work) (.insertion bench frame order work)
  | others {bench frame rest order work after done}
      (short : ¬(Bucket.smallRange < frame.hi - frame.lo ∧ frame.depth ≤ Bucket.deepest))
      (given : bench.insertionSort frame order work = some (after, done))
      (running : bench.overspent done = false) :
      Calls (.ranges bench (frame :: rest) order work) (.ranges bench rest after done)
  | gaps {bench frame order work} :
      Calls (.insertion bench frame order work)
        (.gaps bench frame.depth frame.lo (frame.hi - frame.lo)
          (Shell.gaps (frame.hi - frame.lo)) order work)
  | pass {bench depth first size gap rest order work} :
      Calls (.gaps bench depth first size (gap :: rest) order work)
        (.pass bench depth gap first (size - gap) (first + gap) order work)
  | narrow {bench depth first size gap rest order work after done}
      (given : bench.pass depth gap first (size - gap) (first + gap) order work =
        some (after, done))
      (running : bench.overspent done = false) :
      Calls (.gaps bench depth first size (gap :: rest) order work)
        (.gaps bench depth first size rest after done)
  | sink {bench depth gap first count place order work item}
      (itemAt : order[place]? = some item) :
      Calls (.pass bench depth gap first (count + 1) place order work)
        (.sink bench depth gap first item order work place)
  | advance {bench depth gap first count place order work item after done}
      (itemAt : order[place]? = some item)
      (given : bench.sink depth gap first item order work place = some (after, done))
      (running : bench.overspent done = false) :
      Calls (.pass bench depth gap first (count + 1) place order work)
        (.pass bench depth gap first count (place + 1) after done)
  | comparison {bench depth gap first item order work place earlier}
      (room : 0 < gap ∧ first + gap ≤ place)
      (earlierAt : order[place - gap]? = some earlier) :
      Calls (.sink bench depth gap first item order work place)
        (.comparison bench depth earlier item work)
  /-- An item that exceeds the sinking one is moved up. -/
  | move {bench depth gap first item order work place earlier done after}
      (room : 0 < gap ∧ first + gap ≤ place)
      (earlierAt : order[place - gap]? = some earlier)
      (given : bench.exceeds depth earlier item work = some (true, done))
      (written : Cells.put order place earlier = some after) :
      Calls (.sink bench depth gap first item order work place)
        (.sink bench depth gap first item after done (place - gap))

/-- The first task leads to the second by some calls, each made by the task before it. -/
def Leads : Task → Task → Prop := Relation.ReflTransGen Calls

end Task

end BlockSort
