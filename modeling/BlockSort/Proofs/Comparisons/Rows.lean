import BlockSort.Proofs.Comparisons.Ranges
import BlockSort.Proofs.Storage.Visit

namespace BlockSort.SortSpace

open Rotation

variable {n : Nat} [Occupied n] {text : Text n} {table : PairTable (List (Fin n))}
variable {rest : List Nat} {first second : UInt8} {marked : Nat → Bool} {starts : Array Nat}

theorem Points.bounds (points : Points text marked starts) (small : n < SortSpace.mark)
    {entry next : Nat} (entryAt : starts[PairTable.index first second]? = some entry)
    (nextAt : starts[PairTable.index first second + 1]? = some next) :
    SortSpace.placeOf entry = begins (bucketSize text) (PairTable.index first second) ∧
      SortSpace.placeOf next = begins (bucketSize text) (PairTable.index first second + 1) := by
  have inside := PairTable.index_lt first second
  have one := points.placeOf small (Nat.le_of_lt inside)
  have other := points.placeOf small inside
  rw [entryAt, Option.map_some, Option.some.injEq] at one
  rw [nextAt, Option.map_some, Option.some.injEq] at other
  exact ⟨one, other⟩

theorem Points.isMarked (points : Points text marked starts) (small : n < SortSpace.mark)
    {entry : Nat} (entryAt : starts[PairTable.index first second]? = some entry) :
    SortSpace.isMarked entry = marked (PairTable.index first second) := by
  rw [points.get _ (Nat.lt_succ_of_lt (PairTable.index_lt first second)),
    Option.some.injEq] at entryAt
  rw [← entryAt, isMarked_entry _ ((begins_le text _).trans_lt small)]

theorem Points.put (points : Points text marked starts) {entry : Nat}
    (entryAt : starts[PairTable.index first second]? = some entry) {after : Array Nat}
    (written : Cells.put starts (PairTable.index first second) (entry ||| SortSpace.mark) =
      some after) :
    Points text (Function.update marked (PairTable.index first second) true) after := by
  have inside := PairTable.index_lt first second
  obtain ⟨next, writes, result⟩ := points.mark inside
  obtain rfl : entry = _ := Option.some.inj
    (entryAt.symm.trans (points.get _ (Nat.lt_succ_of_lt inside)))
  obtain rfl : after = next := Option.some.inj (written.symm.trans writes)
  exact result

variable (rest) in
/-- The rotations of a bucket may be sorted: they agree on their first two bytes. -/
theorem bucket_fits (filed : Filed text table) (first second : UInt8) :
    Frame.Fits ⟨begins (bucketSize text) (PairTable.index first second),
      begins (bucketSize text) (PairTable.index first second + 1), 2⟩ text
      (spread pairCount (cellsOf table) rest) := by
  obtain ⟨left, right, lead, stop, cut⟩ := spread_bucket rest filed first second
  have whole := cut (table.get first second)
  rw [set_get, ← embed_toVector] at whole
  rw [lead, stop, whole]
  cases positions : table.get first second with
  | nil =>
    have base : Fin n := ⟨0, Occupied.positive⟩
    exact .empty base rfl (Nat.zero_le _) (by decide)
  | cons base others =>
    have known : base ∈ table.get first second := by simp [positions]
    have aligned : Bucket.Aligned text 2 base 0 (base :: others).length
        (base :: others).toArray.toVector := by
      intro place inside _ _
      have member : (base :: others).toArray.toVector[place] ∈ table.get first second := by
        rw [positions]
        simp
      exact ((filed.mem first second _).mp member).agree ((filed.mem first second base).mp known)
    exact .embed aligned (Nat.zero_le _) (Nat.le_refl _) (by decide)

variable {bench : Bench} {comparer : Comparer n}

variable (rest) in
theorem drain_filed (models : bench.Models comparer) (filed : Filed comparer.text table)
    (several : begins (bucketSize comparer.text) (PairTable.index first second) + 1 <
      begins (bucketSize comparer.text) (PairTable.index first second + 1))
    {work done : Nat} (running : bench.overspent work = false) {left : List Frame}
    {after : Array Nat}
    (drained : bench.drain
        [⟨begins (bucketSize comparer.text) (PairTable.index first second),
          begins (bucketSize comparer.text) (PairTable.index first second + 1), 2⟩]
        (spread pairCount (cellsOf table) rest) work = some (left, after, done)) :
    ∃ next, Filed comparer.text next ∧ after = spread pairCount (cellsOf next) rest := by
  have size := filed.length_cellsOf (PairTable.index first second)
  rw [cellsOf_index, List.length_map] at size
  rw [begins_succ, ← size] at several
  rw [models.overspent] at running
  obtain ⟨pending, run⟩ := drain_bucket rest models filed
    (Nat.lt_of_add_lt_add_left several) running
  rw [run, Option.some.injEq, Prod.mk.injEq, Prod.mk.injEq] at drained
  exact ⟨_, filed.set (Bucket.sort_perm comparer _ work), drained.2.1.symm⟩

variable {slots : Array UInt8} {budget : Option Nat} {index : Nat} {firsts : List UInt8}
variable {progress : Rotation.Progress n} {ranks : Array Nat}

/-- Comparisons in the row that is visited read the text and the ranks of the rows before. -/
theorem Visiting.models (visiting : Visiting text (first :: firsts) index progress ranks starts)
    (cyclic : Cyclic text slots) (budget : Option Nat) :
    Bench.Models { slots, ranks, size := n, budget }
      (⟨text, progress.ranks, budget⟩ : Comparer n) :=
  ⟨rfl, cyclic, visiting.kept (List.cons_ne_nil first firsts), rfl⟩

variable (rest) in
/-- A visit that draws its conclusions leaves everything ready for the next one. -/
theorem Visiting.onward (cyclic : Cyclic text slots) (small : n < mark)
    (visiting : Visiting text (first :: firsts) index progress ranks starts)
    (visited : Visited text progress) (within : exhausted budget progress.work = false)
    {pending left : List Frame} {order settled recorded placed marks : Array Nat}
    {column : List Nat} {work low high length : Nat}
    (given : sortRow { slots, ranks, size := n, budget } first allBytes
      ⟨spread pairCount (cellsOf progress.table) rest, starts, pending, progress.work⟩ =
        some ⟨order, settled, left, work⟩)
    (running : Bench.overspent { slots, ranks, size := n, budget } work = false)
    (lowAt : settled[first.toNat * 256]? = some low)
    (highAt : settled[(first.toNat + 1) * 256]? = some high)
    (span : Cells.minus (placeOf high) (placeOf low) = some length)
    (records : (if index < 255 then
        recordRanks order n (placeOf low) (rankShift length) length 0 ranks
      else some ranks) = some recorded)
    (columnIs : columnStarts settled first = some column)
    (places : placePredecessors slots n (progress.sorted.insert first) length (placeOf low) order
      column.toArray = some placed)
    (marking : markColumn first allBytes settled = some marks) :
    ∃ after : Rotation.Progress n, Visiting text firsts (index + 1) after recorded marks ∧
      Visited text after ∧ after.sorted = progress.sorted.insert first ∧
      placed = spread pairCount (cellsOf after.table) rest ∧ after.work = work ∧
      exhausted budget after.work = false := by
  have models := visiting.models cyclic budget
  obtain ⟨marked, points, known⟩ := visiting.marked
  obtain ⟨after, stale, run, -, filed, result⟩ := sortRow_spec rest models small progress.sorted
    first allBytes_nodup visiting.filed points
    (fun second _ => by rw [known, visiting.fresh first (by simp), Bool.false_or]) within pending
  have conclusions := @visit_visited n _ text budget _ visited first
  obtain ⟨table, numbers, sorted, spent⟩ := progress
  rw [visit_eq] at conclusions
  rw [← sortRow_eq] at run filed result
  dsimp only at *
  generalize Rotation.sortRow ⟨text, numbers, budget⟩ sorted first table spent = row at *
  obtain ⟨table, done⟩ := row
  rw [run, Option.some.injEq, Progress.mk.injEq] at given
  obtain ⟨rfl, rfl, -, rfl⟩ := given
  rw [models.overspent, overspent_eq] at running
  rw [running] at conclusions
  obtain ⟨low', high', recorded', column', marks', one, two, three, four, five, six, seven, -, -, -,
    onward⟩ := visiting.conclude rest cyclic small filed known (result running) done
  obtain rfl : low = low' := Option.some.inj (lowAt.symm.trans one)
  obtain rfl : high = high' := Option.some.inj (highAt.symm.trans two)
  obtain rfl := Option.some.inj (span.symm.trans three)
  obtain rfl : recorded = recorded' := Option.some.inj (records.symm.trans four)
  obtain rfl : column = column' := Option.some.inj (columnIs.symm.trans five)
  obtain rfl := Option.some.inj (places.symm.trans six)
  obtain rfl : marks = marks' := Option.some.inj (marking.symm.trans seven)
  exact ⟨_, onward, (conclusions running).1, rfl, rfl, rfl, running⟩

end BlockSort.SortSpace
