import BlockSort.Proofs.Safety.Bench
import BlockSort.Storage.SortSpace

namespace BlockSort.Watched

open SortSpace (isMarked placeOf mark)

section Order

variable {α : Type} {n : Nat}

theorem back_lt {place : Nat} (gap : Nat) (bound : place < n) : place - gap < n :=
  (Nat.sub_le place gap).trans_lt bound

def sinkItem (exceeds : α → α → Bool) (gap first : Nat) (items : Vector α n) (place : Nat)
    (bound : place < n) : Watched (Vector α n) :=
  have back := back_lt gap bound
  if room : 0 < gap ∧ first + gap ≤ place then do
    note (.difference place gap)
    if exceeds items[place - gap] items[place] then
      sinkItem exceeds gap first (items.swap (place - gap) place) (place - gap) back
    else return items
  else return items
termination_by place

def passItems (exceeds : α → α → Bool) (gap first : Nat) :
    (count place : Nat) → place + count ≤ n → Vector α n → Watched (Vector α n)
  | 0, _, _, items => return items
  | count + 1, place, bound, items => do
    let items ← sinkItem exceeds gap first items place (by omega)
    passItems exceeds gap first count (place + 1) (by omega) items

theorem gaps_le {first size gap : Nat} (bound : first + size ≤ n) (narrow : gap ≤ size) :
    first + gap + (size - gap) ≤ n := by
  omega

def sortItems (exceeds : α → α → Bool) (first size : Nat) (bound : first + size ≤ n) :
    List Nat → Vector α n → Watched (Vector α n)
  | [], items => return items
  | gap :: gaps, items =>
    if narrow : gap ≤ size then do
      let items ← passItems exceeds gap first (size - gap) (first + gap) (gaps_le bound narrow) items
      sortItems exceeds first size bound gaps items
    else sortItems exceeds first size bound gaps items

theorem bytes_le : 0 + 256 ≤ 256 := Nat.le_refl 256

/-- Orders the leading bytes by the sizes of their buckets. -/
def visitOrder (sizes : Vector Nat 256) : Watched (List UInt8) := do
  let size (first : UInt8) : Nat :=
    have bound := UInt8.toNat_lt first
    sizes[first.toNat]
  let items ← sortItems (fun a b => size b < size a) 0 256 bytes_le (Shell.gaps 256)
    (Vector.ofFn fun first => UInt8.ofNat first.val)
  return items.toList

/-- A sort with shrinking gaps only looks back to where its range begins. -/
theorem sinkItem_performs (exceeds : α → α → Bool) (gap first : Nat) (items : Vector α n)
    (place : Nat) (bound : place < n) :
    Performs (sinkItem exceeds gap first items place bound)
      (Shell.sink (fun a b _ => (exceeds a b, ())) gap first items () place bound).1 := by
  fun_induction sinkItem exceeds gap first items place bound with
  | case1 items place bound back room ih =>
    refine (Performs.note (.difference _ _) (Nat.le_trans (Nat.le_add_left ..) room.2)).bind ?_
    rw [Shell.sink, dif_pos room]
    cases more : exceeds items[place - gap] items[place] with
    | true => simpa [more] using ih
    | false => simpa [more] using Performs.pure items
  | case2 items place bound back narrow =>
    rw [Shell.sink, dif_neg narrow]
    exact .pure items

theorem passItems_performs (exceeds : α → α → Bool) (gap first count place : Nat)
    (bound : place + count ≤ n) (items : Vector α n) :
    Performs (passItems exceeds gap first count place bound items)
      (Shell.pass (fun a b _ => (exceeds a b, ())) (fun _ => false) gap first count place bound
        items ()).1 := by
  induction count generalizing place items with
  | zero => exact .pure items
  | succ count ih => exact (sinkItem_performs ..).bind (ih ..)

theorem sortItems_performs (exceeds : α → α → Bool) (first size : Nat) (bound : first + size ≤ n)
    (gaps : List Nat) (items : Vector α n) :
    Performs (sortItems exceeds first size bound gaps items)
      (Shell.sortBy (fun a b _ => (exceeds a b, ())) (fun _ => false) first size bound gaps
        items ()).1 := by
  induction gaps generalizing items with
  | nil => exact .pure items
  | cons gap gaps ih =>
    rw [sortItems, Shell.sortBy]
    split
    · exact (passItems_performs ..).bind (ih _)
    · exact ih items

theorem visitOrder_performs (sizes : Vector Nat 256) :
    Performs (visitOrder sizes) (Rotation.visitOrder sizes) :=
  (sortItems_performs ..).bind (.pure _)

end Order

section Filing

def countPairs (slots : Array UInt8) (size : Nat) :
    (count place : Nat) → (previous : UInt8) → Array Nat → Watched (Array Nat)
  | 0, _, _, starts => return starts
  | count + 1, place, previous, starts => do
    let current ← byte slots size place
    let starts ← update starts (PairTable.index previous current) (some <| · + 1)
    countPairs slots size count (place + 1) current starts

def accumulate : (count place : Nat) → Array Nat → Watched (Array Nat)
  | 0, _, starts => return starts
  | count + 1, place, starts => do
    note (.difference place 1)
    let before ← cell starts (place - 1)
    accumulate count (place + 1) (← update starts place (some <| · + before))

def file (pair position : Nat) (order starts : Array Nat) : Watched (Array Nat × Array Nat) := do
  let start ← minus (← cell starts pair) 1
  return (← put order start position, ← put starts pair start)

def fileAll (slots : Array UInt8) (size : Nat) :
    (count position : Nat) → (first : UInt8) → Array Nat → Array Nat →
      Watched (Array Nat × Array Nat)
  | 0, _, _, order, starts => return (order, starts)
  | count + 1, position, first, order, starts => do
    let second ← byte slots size (position + 2)
    let (order, starts) ← file (PairTable.index first second) position order starts
    fileAll slots size count (position + 1) second order starts

def collect (slots : Array UInt8) (size : Nat) (order starts : Array Nat) :
    Watched (Array Nat × Array Nat) := do
  let starts ← countPairs slots size size 1 (← byte slots size 0) (Array.replicate starts.size 0)
  note (.difference starts.size 1)
  let starts ← accumulate (starts.size - 1) 1 starts
  note (.difference size 1)
  let (order, starts) ← fileAll slots size (size - 1) 0 (← byte slots size 1) order starts
  file (PairTable.index (← byte slots size size) (← byte slots size 1)) (size - 1) order starts

def rowSize (starts : Array Nat) (first : Nat) : Watched Nat := do
  minus (← cell starts ((first + 1) * 256)) (← cell starts (first * 256))

end Filing

section Visits

def sortRow (bench : Bench) (first : UInt8) :
    List UInt8 → SortSpace.Progress → Watched SortSpace.Progress
  | [], progress => return progress
  | second :: rest, ⟨order, starts, pending, work⟩ => do
    let bucket := PairTable.index first second
    let entry ← cell starts bucket
    if isMarked entry then sortRow bench first rest ⟨order, starts, pending, work⟩
    else
      let lo := placeOf entry
      let hi := placeOf (← cell starts (bucket + 1))
      if lo + 1 < hi then
        note (.difference hi 1)
        let (pending, order, work) ← drain bench [⟨lo, hi, 2⟩] order work
        if bench.overspent work then return ⟨order, starts, pending, work⟩
        else
          sortRow bench first rest ⟨order, ← put starts bucket (entry ||| mark), pending, work⟩
      else sortRow bench first rest ⟨order, ← put starts bucket (entry ||| mark), pending, work⟩

def recordRanks (order : Array Nat) (size start shift : Nat) :
    (count place : Nat) → Array Nat → Watched (Array Nat)
  | 0, _, ranks => return ranks
  | count + 1, place, ranks => do
    let position ← cell order (start + place)
    let rank := (place >>> shift) % 65536
    let ranks ← put ranks position rank
    if position < Block.margin then
      recordRanks order size start shift count (place + 1) (← put ranks (position + size) rank)
    else recordRanks order size start shift count (place + 1) ranks

def placePredecessors (slots : Array UInt8) (size : Nat) (sorted : ByteSet) :
    (count place : Nat) → (order next : Array Nat) → Watched (Array Nat)
  | 0, _, order, _ => return order
  | count + 1, place, order, next => do
    let position ← cell order place
    let first ← byte slots size position
    if sorted.contains first then placePredecessors slots size sorted count (place + 1) order next
    else
      let free ← cell next first.toNat
      note (if position = 0 then .difference size 1 else .difference position 1)
      let earlier := if position = 0 then size - 1 else position - 1
      placePredecessors slots size sorted count (place + 1) (← put order free earlier)
        (← put next first.toNat (free + 1))

def markColumn (second : UInt8) : List UInt8 → Array Nat → Watched (Array Nat)
  | [], starts => return starts
  | first :: rest, starts => do
    markColumn second rest (← update starts (PairTable.index first second) (some <| · ||| mark))

def columnStarts (starts : Array Nat) (second : UInt8) : Watched (List Nat) :=
  allBytes.mapM fun first => do return placeOf (← cell starts (PairTable.index first second))

def visitAll (slots : Array UInt8) (size : Nat) (budget : Option Nat) :
    (index : Nat) → List UInt8 → ByteSet → (ranks : Array Nat) → SortSpace.Progress →
      Watched (Array Nat × SortSpace.Progress)
  | _, [], _, ranks, progress => return (ranks, progress)
  | index, first :: rest, sorted, ranks, progress => do
    let bench : Bench := { slots, ranks, size, budget }
    let progress ← sortRow bench first allBytes progress
    if bench.overspent progress.work then return (ranks, progress)
    else
      let ⟨order, starts, pending, work⟩ := progress
      let sorted := sorted.insert first
      let lo := placeOf (← cell starts (first.toNat * 256))
      let hi := placeOf (← cell starts ((first.toNat + 1) * 256))
      let length ← minus hi lo
      let ranks ←
        if index < 255 then
          recordRanks order size lo (Rotation.rankShift length) length 0 ranks
        else pure ranks
      let next ← columnStarts starts first
      let order ← placePredecessors slots size sorted length lo order next.toArray
      let starts ← markColumn first allBytes starts
      visitAll slots size budget (index + 1) rest sorted ranks ⟨order, starts, pending, work⟩

def sortRotations (slots : Array UInt8) (size : Nat) (budget : Option Nat) (space : SortSpace) :
    Watched (SortSpace × Nat) := do
  let ⟨order, starts, ranks, pending⟩ := space
  let (order, starts) ← collect slots size order starts
  let sizes ← (List.range 256).mapM (rowSize starts)
  let visits ← visitOrder (Vector.ofFn fun first => sizes.getD first 0)
  let (ranks, ⟨order, starts, pending, work⟩) ←
    visitAll slots size budget 0 visits {} ranks ⟨order, starts, pending, 0⟩
  return (⟨order, starts, ranks, pending⟩, work)

end Visits

section Value

theorem value_countPairs (slots : Array UInt8) (size count place : Nat) (previous : UInt8)
    (starts : Array Nat) :
    (countPairs slots size count place previous starts).value =
      SortSpace.countPairs slots count place previous starts := by
  induction count generalizing place previous starts with
  | zero => rfl
  | succ count ih =>
    rw [countPairs, SortSpace.countPairs]
    simp only [value_bind, value_byte, value_update, ih]
    rfl

theorem value_accumulate (count place : Nat) (starts : Array Nat) :
    (accumulate count place starts).value = SortSpace.accumulate count place starts := by
  induction count generalizing place starts with
  | zero => rfl
  | succ count ih =>
    rw [accumulate, SortSpace.accumulate]
    simp only [value_bind, value_note, value_cell, value_update, ih, Option.bind_some]
    rfl

theorem value_file (pair position : Nat) (order starts : Array Nat) :
    (file pair position order starts).value = SortSpace.file pair position order starts := by
  rw [file, SortSpace.file]
  simp only [value_bind, value_cell, value_minus, value_put, value_pure]
  rfl

theorem value_fileAll (slots : Array UInt8) (size count position : Nat) (first : UInt8)
    (order starts : Array Nat) :
    (fileAll slots size count position first order starts).value =
      SortSpace.fileAll slots count position first order starts := by
  induction count generalizing position first order starts with
  | zero => rfl
  | succ count ih =>
    rw [fileAll, SortSpace.fileAll]
    simp only [value_bind, value_byte, value_file, ih]
    rfl

theorem value_collect (slots : Array UInt8) (size : Nat) (order starts : Array Nat) :
    (collect slots size order starts).value = SortSpace.collect slots size order starts := by
  rw [collect, SortSpace.collect]
  simp only [value_bind, value_note, value_byte, value_countPairs, value_accumulate,
    value_fileAll, value_file, Option.bind_some]
  rfl

theorem value_rowSize (starts : Array Nat) (first : Nat) :
    (rowSize starts first).value = SortSpace.rowSize starts first := by
  rw [rowSize, SortSpace.rowSize]
  simp only [value_bind, value_cell, value_minus]
  rfl

theorem value_sortRow (bench : Bench) (first : UInt8) (seconds : List UInt8)
    (progress : SortSpace.Progress) :
    (sortRow bench first seconds progress).value =
      SortSpace.sortRow bench first seconds progress := by
  induction seconds generalizing progress with
  | nil => rfl
  | cons second rest ih =>
    obtain ⟨order, starts, pending, work⟩ := progress
    rw [sortRow, SortSpace.sortRow, value_bind]
    refine Option.bind_congr fun entry _ => ?_
    split
    · exact ih _
    rw [value_bind]
    refine Option.bind_congr fun last _ => ?_
    dsimp only
    split
    · rw [value_bind, value_note, Option.bind_some, value_bind, value_drain]
      refine Option.bind_congr fun ⟨pending, order, work⟩ _ => ?_
      dsimp only
      split
      · rfl
      · rw [value_bind]
        exact Option.bind_congr fun after _ => ih _
    · rw [value_bind]
      exact Option.bind_congr fun after _ => ih _

theorem value_recordRanks (order : Array Nat) (size start shift count place : Nat)
    (ranks : Array Nat) :
    (recordRanks order size start shift count place ranks).value =
      SortSpace.recordRanks order size start shift count place ranks := by
  induction count generalizing place ranks with
  | zero => rfl
  | succ count ih =>
    rw [recordRanks, SortSpace.recordRanks]
    simp only [value_bind, value_cell, value_put]
    refine Option.bind_congr fun position _ => Option.bind_congr fun ranks _ => ?_
    split
    · rw [value_bind]
      exact Option.bind_congr fun after _ => ih _ after
    · exact ih _ ranks

theorem value_placePredecessors (slots : Array UInt8) (size : Nat) (sorted : ByteSet)
    (count place : Nat) (order next : Array Nat) :
    (placePredecessors slots size sorted count place order next).value =
      SortSpace.placePredecessors slots size sorted count place order next := by
  induction count generalizing place order next with
  | zero => rfl
  | succ count ih =>
    rw [placePredecessors, SortSpace.placePredecessors]
    simp only [value_bind, value_cell, value_byte]
    refine Option.bind_congr fun position _ => Option.bind_congr fun first _ => ?_
    split
    · exact ih _ _ _
    · simp only [value_bind, value_note, value_cell, value_put, ih, Option.bind_some]
      rfl

theorem value_markColumn (second : UInt8) (firsts : List UInt8) (starts : Array Nat) :
    (markColumn second firsts starts).value = SortSpace.markColumn second firsts starts := by
  induction firsts generalizing starts with
  | nil => rfl
  | cons first rest ih =>
    rw [markColumn, SortSpace.markColumn]
    simp only [value_bind, value_update, ih]
    rfl

theorem value_columnStarts (starts : Array Nat) (second : UInt8) :
    (columnStarts starts second).value = SortSpace.columnStarts starts second := by
  rw [columnStarts, SortSpace.columnStarts, value_mapM]
  simp only [value_bind, value_cell, value_pure]
  rfl

theorem value_visitAll (slots : Array UInt8) (size : Nat) (budget : Option Nat) (index : Nat)
    (firsts : List UInt8) (sorted : ByteSet) (ranks : Array Nat) (progress : SortSpace.Progress) :
    (visitAll slots size budget index firsts sorted ranks progress).value =
      SortSpace.visitAll slots size budget index firsts sorted ranks progress := by
  induction firsts generalizing index sorted ranks progress with
  | nil => rfl
  | cons first rest ih =>
    rw [visitAll, SortSpace.visitAll, value_bind, value_sortRow]
    refine Option.bind_congr fun ⟨order, starts, pending, work⟩ _ => ?_
    dsimp only
    split
    · rfl
    simp only [value_bind, value_cell, value_minus]
    refine Option.bind_congr fun low _ => Option.bind_congr fun high _ =>
      Option.bind_congr fun length _ => ?_
    split
    all_goals
      simp only [value_bind, value_recordRanks, value_pure, value_columnStarts,
        value_placePredecessors, value_markColumn, ih]
      rfl

theorem value_sortRotations (slots : Array UInt8) (size : Nat) (budget : Option Nat)
    (space : SortSpace) :
    (sortRotations slots size budget space).value =
      SortSpace.sortRotations slots size budget space := by
  obtain ⟨order, starts, ranks, pending⟩ := space
  rw [sortRotations, SortSpace.sortRotations, value_bind, value_collect]
  refine Option.bind_congr fun filed _ => ?_
  obtain ⟨order, starts⟩ := filed
  rw [value_bind, value_mapM, funext (value_rowSize starts)]
  refine Option.bind_congr fun sizes _ => ?_
  rw [value_bind, (visitOrder_performs _).value, Option.bind_some, value_bind, value_visitAll]
  rfl

end Value

section Safe

variable {slots : Array UInt8} {size : Nat} (mirrored : Mirrored slots size) (occupied : 0 < size)

include mirrored in
theorem countPairs_safe {count place : Nat} {previous : UInt8} {starts after : Array Nat}
    (done : SortSpace.countPairs (readable slots size) count place previous starts = some after) :
    Performs (countPairs slots size count place previous starts) after ∧
      after.size = starts.size := by
  induction count generalizing place previous starts with
  | zero =>
    cases done
    exact ⟨.pure _, rfl⟩
  | succ count ih =>
    obtain ⟨current, read, done⟩ := Option.bind_eq_some_iff.mp done
    obtain ⟨counted, updated, done⟩ := Option.bind_eq_some_iff.mp done
    obtain ⟨rest, same⟩ := ih done
    exact ⟨(mirrored.byte read).bind ((Performs.update updated).bind rest),
      same.trans (Cells.size_update updated)⟩

theorem accumulate_safe {count place : Nat} (later : 1 ≤ place) {starts after : Array Nat}
    (done : SortSpace.accumulate count place starts = some after) :
    Performs (accumulate count place starts) after := by
  induction count generalizing place starts with
  | zero =>
    exact .given done
  | succ count ih =>
    obtain ⟨before, read, done⟩ := Option.bind_eq_some_iff.mp done
    obtain ⟨summed, updated, done⟩ := Option.bind_eq_some_iff.mp done
    exact (Performs.note (.difference _ _) later).bind ((Performs.cell read).bind
      ((Performs.update updated).bind (ih (Nat.le_succ_of_le later) done)))

theorem file_safe {pair position : Nat} {order starts : Array Nat} {result : Array Nat × Array Nat}
    (done : SortSpace.file pair position order starts = some result) :
    Performs (file pair position order starts) result := by
  obtain ⟨entry, read, done⟩ := Option.bind_eq_some_iff.mp done
  obtain ⟨start, left, done⟩ := Option.bind_eq_some_iff.mp done
  obtain ⟨filed, one, done⟩ := Option.bind_eq_some_iff.mp done
  obtain ⟨next, other, done⟩ := Option.bind_eq_some_iff.mp done
  cases done
  exact (Performs.cell read).bind ((Performs.minus left).bind ((Performs.put one).bind
    ((Performs.put other).bind (.pure _))))

include mirrored in
theorem fileAll_safe {count position : Nat} {first : UInt8} {order starts : Array Nat}
    {result : Array Nat × Array Nat}
    (done : SortSpace.fileAll (readable slots size) count position first order starts =
      some result) :
    Performs (fileAll slots size count position first order starts) result := by
  induction count generalizing position first order starts with
  | zero =>
    exact .given done
  | succ count ih =>
    obtain ⟨second, read, done⟩ := Option.bind_eq_some_iff.mp done
    obtain ⟨filed, one, done⟩ := Option.bind_eq_some_iff.mp done
    exact (mirrored.byte read).bind ((file_safe one).bind (ih done))

include mirrored occupied in
theorem collect_safe {order starts : Array Nat} (positive : 0 < starts.size)
    {result : Array Nat × Array Nat}
    (done : SortSpace.collect (readable slots size) size order starts = some result) :
    Performs (collect slots size order starts) result := by
  obtain ⟨last, lastRead, done⟩ := Option.bind_eq_some_iff.mp done
  obtain ⟨counts, counted, done⟩ := Option.bind_eq_some_iff.mp done
  obtain ⟨sums, summed, done⟩ := Option.bind_eq_some_iff.mp done
  obtain ⟨first, firstRead, done⟩ := Option.bind_eq_some_iff.mp done
  obtain ⟨⟨filed, next⟩, filing, done⟩ := Option.bind_eq_some_iff.mp done
  obtain ⟨end_, endRead, done⟩ := Option.bind_eq_some_iff.mp done
  obtain ⟨again, againRead, done⟩ := Option.bind_eq_some_iff.mp done
  obtain ⟨counting, same⟩ := countPairs_safe mirrored counted
  rw [Array.size_replicate] at same
  have room : 1 ≤ counts.size := same ▸ positive
  exact (mirrored.byte lastRead).bind (counting.bind
    ((Performs.note (.difference _ _) room).bind ((accumulate_safe (Nat.le_refl 1) summed).bind
      ((Performs.note (.difference _ _) occupied).bind ((mirrored.byte firstRead).bind
        ((fileAll_safe mirrored filing).bind ((mirrored.byte endRead).bind
          ((mirrored.byte againRead).bind (file_safe done)))))))))

theorem rowSize_safe {starts : Array Nat} {first rows : Nat}
    (done : SortSpace.rowSize starts first = some rows) :
    Performs (rowSize starts first) rows := by
  obtain ⟨stop, stopRead, done⟩ := Option.bind_eq_some_iff.mp done
  obtain ⟨start, startRead, done⟩ := Option.bind_eq_some_iff.mp done
  exact (Performs.cell stopRead).bind ((Performs.cell startRead).bind (.minus done))

/-- Buckets are sorted from a depth of two, and only if they are not empty. -/
theorem sortRow_safe {bench : Bench} (mirrored : Mirrored bench.slots bench.size) {first : UInt8}
    {seconds : List UInt8} {progress result : SortSpace.Progress}
    (done : SortSpace.sortRow (cut bench) first seconds progress = some result) :
    Performs (sortRow bench first seconds progress) result := by
  induction seconds generalizing progress with
  | nil =>
    exact .given done
  | cons second rest ih =>
    obtain ⟨order, starts, pending, work⟩ := progress
    obtain ⟨entry, entryRead, done⟩ := Option.bind_eq_some_iff.mp done
    refine (Performs.cell entryRead).bind ?_
    refine .ite done (fun _ done => ih done) fun _ done => ?_
    obtain ⟨last, lastRead, done⟩ := Option.bind_eq_some_iff.mp done
    refine (Performs.cell lastRead).bind ?_
    dsimp only at done ⊢
    refine .ite done (fun several done => ?_) fun _ done => ?_
    · obtain ⟨⟨left, filed, spent⟩, drained, done⟩ := Option.bind_eq_some_iff.mp done
      have sound : Sound ⟨placeOf entry, placeOf last, 2⟩ :=
        ⟨show placeOf entry ≤ placeOf last by omega, show 2 ≤ Bucket.deepest + 1 by decide⟩
      refine (Performs.note (.difference _ _) (Nat.one_le_of_lt several)).bind
        ((drain_safe mirrored (by simpa using sound) drained).bind ?_)
      dsimp only at done ⊢
      rw [overspent_cut] at done
      refine .ite done (fun _ done => .given done) fun _ done => ?_
      obtain ⟨marked, written, done⟩ := Option.bind_eq_some_iff.mp done
      exact (Performs.put written).bind (ih done)
    · obtain ⟨marked, written, done⟩ := Option.bind_eq_some_iff.mp done
      exact (Performs.put written).bind (ih done)

theorem recordRanks_safe {order : Array Nat} {size start shift count place : Nat}
    {ranks after : Array Nat}
    (done : SortSpace.recordRanks order size start shift count place ranks = some after) :
    Performs (recordRanks order size start shift count place ranks) after := by
  induction count generalizing place ranks with
  | zero =>
    exact .given done
  | succ count ih =>
    obtain ⟨position, read, done⟩ := Option.bind_eq_some_iff.mp done
    obtain ⟨once, written, done⟩ := Option.bind_eq_some_iff.mp done
    refine (Performs.cell read).bind ((Performs.put written).bind ?_)
    refine .ite done (fun _ done => ?_) fun _ done => ih done
    obtain ⟨twice, written, done⟩ := Option.bind_eq_some_iff.mp done
    exact (Performs.put written).bind (ih done)

include mirrored occupied in
theorem placePredecessors_safe {sorted : ByteSet} {count place : Nat}
    {order next after : Array Nat}
    (done : SortSpace.placePredecessors (readable slots size) size sorted count place order next =
      some after) :
    Performs (placePredecessors slots size sorted count place order next) after := by
  induction count generalizing place order next with
  | zero =>
    exact .given done
  | succ count ih =>
    obtain ⟨position, positionRead, done⟩ := Option.bind_eq_some_iff.mp done
    obtain ⟨first, firstRead, done⟩ := Option.bind_eq_some_iff.mp done
    refine (Performs.cell positionRead).bind ((mirrored.byte firstRead).bind ?_)
    refine .ite done (fun _ done => ih done) fun _ done => ?_
    obtain ⟨free, freeRead, done⟩ := Option.bind_eq_some_iff.mp done
    obtain ⟨placed, placing, done⟩ := Option.bind_eq_some_iff.mp done
    obtain ⟨cursor, moving, done⟩ := Option.bind_eq_some_iff.mp done
    refine (Performs.cell freeRead).bind ((Performs.note _ ?_).bind ((Performs.put placing).bind
      ((Performs.put moving).bind (ih done))))
    split
    · exact occupied
    · exact Nat.pos_of_ne_zero ‹_›

theorem markColumn_safe {second : UInt8} {firsts : List UInt8} {starts after : Array Nat}
    (done : SortSpace.markColumn second firsts starts = some after) :
    Performs (markColumn second firsts starts) after := by
  induction firsts generalizing starts with
  | nil =>
    exact .given done
  | cons first rest ih =>
    obtain ⟨marked, updated, done⟩ := Option.bind_eq_some_iff.mp done
    exact (Performs.update updated).bind (ih done)

theorem columnStarts_safe {starts : Array Nat} {second : UInt8} {places : List Nat}
    (done : SortSpace.columnStarts starts second = some places) :
    Performs (columnStarts starts second) places := by
  refine Performs.mapM (fun first _ place found => ?_) done
  obtain ⟨entry, read, found⟩ := Option.bind_eq_some_iff.mp found
  cases found
  exact (Performs.cell read).bind (.pure _)

include mirrored occupied in
theorem visitAll_safe {budget : Option Nat} {index : Nat} {firsts : List UInt8} {sorted : ByteSet}
    {ranks : Array Nat} {progress : SortSpace.Progress}
    {result : Array Nat × SortSpace.Progress}
    (done : SortSpace.visitAll (readable slots size) size budget index firsts sorted ranks
      progress = some result) :
    Performs (visitAll slots size budget index firsts sorted ranks progress) result := by
  induction firsts generalizing index sorted ranks progress with
  | nil =>
    exact .given done
  | cons first rest ih =>
    obtain ⟨⟨order, starts, pending, work⟩, row, done⟩ := Option.bind_eq_some_iff.mp done
    refine (@sortRow_safe ⟨slots, ranks, size, budget⟩ mirrored _ _ _ _ row).bind ?_
    dsimp only at done ⊢
    have same : Bench.overspent ⟨readable slots size, ranks, size, budget⟩ work =
        Bench.overspent ⟨slots, ranks, size, budget⟩ work :=
      overspent_cut ⟨slots, ranks, size, budget⟩ work
    rw [same] at done
    refine .ite done (fun _ done => .given done) fun _ done => ?_
    obtain ⟨low, lowRead, done⟩ := Option.bind_eq_some_iff.mp done
    obtain ⟨high, highRead, done⟩ := Option.bind_eq_some_iff.mp done
    obtain ⟨length, span, done⟩ := Option.bind_eq_some_iff.mp done
    have onward {ranks : Array Nat}
        (done : (do
          let next ← SortSpace.columnStarts starts first
          let order ← SortSpace.placePredecessors (readable slots size) size (sorted.insert first)
            length (placeOf low) order next.toArray
          let starts ← SortSpace.markColumn first allBytes starts
          SortSpace.visitAll (readable slots size) size budget (index + 1) rest
            (sorted.insert first) ranks ⟨order, starts, pending, work⟩) = some result) :
        Performs (do
          let next ← columnStarts starts first
          let order ← placePredecessors slots size (sorted.insert first) length (placeOf low) order
            next.toArray
          let starts ← markColumn first allBytes starts
          visitAll slots size budget (index + 1) rest (sorted.insert first) ranks
            ⟨order, starts, pending, work⟩) result := by
      obtain ⟨next, starting, done⟩ := Option.bind_eq_some_iff.mp done
      obtain ⟨placed, placing, done⟩ := Option.bind_eq_some_iff.mp done
      obtain ⟨marked, marking, done⟩ := Option.bind_eq_some_iff.mp done
      exact (columnStarts_safe starting).bind
        ((placePredecessors_safe mirrored occupied placing).bind
          ((markColumn_safe marking).bind (ih done)))
    refine (Performs.cell lowRead).bind ((Performs.cell highRead).bind
      ((Performs.minus span).bind ?_))
    refine .ite done (fun _ done => ?_) fun _ done => (Performs.pure _).bind (onward done)
    obtain ⟨recorded, recording, done⟩ := Option.bind_eq_some_iff.mp done
    exact (recordRanks_safe recording).bind (onward done)

include mirrored occupied in
/-- A sort of rotations that has a result in the slots that may be read has the same one in all
slots, and on the way to it every access is safe. -/
theorem sortRotations_safe {budget : Option Nat} {space : SortSpace} (positive : 0 < space.starts.size)
    {result : SortSpace × Nat}
    (done : SortSpace.sortRotations (readable slots size) size budget space = some result) :
    Performs (sortRotations slots size budget space) result := by
  obtain ⟨order, starts, ranks, pending⟩ := space
  obtain ⟨⟨filed, next⟩, collected, done⟩ := Option.bind_eq_some_iff.mp done
  obtain ⟨sizes, counted, done⟩ := Option.bind_eq_some_iff.mp done
  obtain ⟨⟨ranked, last⟩, visited, done⟩ := Option.bind_eq_some_iff.mp done
  cases done
  exact (collect_safe mirrored occupied positive collected).bind
    ((Performs.mapM (fun first _ rows found => rowSize_safe found) counted).bind
      ((visitOrder_performs _).bind ((visitAll_safe mirrored occupied visited).bind (.pure _))))

end Safe

end BlockSort.Watched
