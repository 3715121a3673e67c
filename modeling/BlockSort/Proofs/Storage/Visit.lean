import BlockSort.Proofs.Storage.Row

namespace BlockSort.SortSpace

open Rotation

variable {n : Nat} [Occupied n] {text : Text n} {table : PairTable (List (Fin n))}
variable {rest : List Nat}

omit [Occupied n] in
/-- A rank is recorded at its position, and past the end for one of the first positions. -/
theorem record_spec {ranks : Vector Nat n} {cells : Array Nat} (kept : Kept ranks cells)
    (position : Fin n) (rank : Nat) :
    ∃ once after, Cells.put cells position rank = some once ∧
      (if position.val < Block.margin then Cells.put once (position.val + n) rank else some once) =
        some after ∧
      after.size = cells.size ∧ Kept (ranks.set position rank position.isLt) after := by
  have inside (i : Nat) (near : i < n + Block.margin) : i < cells.size := by
    have found := kept i near
    exact (Array.getElem?_eq_some_iff.mp found).1
  have first := inside position (by omega)
  refine ⟨cells.set position rank, if position.val < Block.margin then
    (cells.set position rank).setIfInBounds (position.val + n) rank else cells.set position rank,
    Cells.put_of_lt first rank, ?_, ?_, fun i near => ?_⟩
  · split
    · rename_i early
      have second := inside (position.val + n) (by omega)
      rw [Cells.put_of_lt (by simpa using second), Array.setIfInBounds, dif_pos (by simpa using second)]
    · rfl
  · split <;> simp
  · have old := kept i near
    have here := inside i near
    simp only [Comparer.rankAt, Vector.getElem_set] at old ⊢
    split
    · rw [Array.getElem?_setIfInBounds, Array.getElem?_set]
      grind
    · rw [Array.getElem?_set]
      grind

omit [Occupied n] in
theorem recordRanks_spec {ranks : Vector Nat n} {cells order : Array Nat} (kept : Kept ranks cells)
    {start shift : Nat} (row : List (Fin n)) (place : Nat)
    (reads : ∀ i (inside : i < row.length), order[start + (place + i)]? = some row[i].val)
    (narrow : ∀ i < row.length, (place + i) >>> shift < 2 ^ 16) :
    ∃ after, recordRanks order n start shift row.length place cells = some after ∧
      after.size = cells.size ∧
      Kept (row.foldl (fun (state : Vector Nat n × Nat) (position : Fin n) =>
        (state.1.set position (state.2 >>> shift) position.isLt, state.2 + 1)) (ranks, place)).1
        after := by
  induction row generalizing ranks cells place with
  | nil => exact ⟨cells, rfl, rfl, kept⟩
  | cons position row ih =>
    have read := reads 0 (by simp)
    have small : place >>> shift < 65536 := narrow 0 (by simp)
    rw [Nat.add_zero] at read
    obtain ⟨once, written, one, two, size, step⟩ := record_spec kept position (place >>> shift)
    obtain ⟨after, run, total, result⟩ := ih step (place + 1)
      (fun i inside => by
        have next := reads (i + 1) (by simpa using inside)
        rwa [Nat.add_assoc, Nat.add_comm 1])
      (fun i inside => by
        have next := narrow (i + 1) (by simpa using inside)
        rwa [Nat.add_assoc, Nat.add_comm 1])
    refine ⟨after, ?_, total.trans size, result⟩
    rw [List.length_cons, recordRanks, read]
    simp only [List.getElem_cons_zero, Option.bind_eq_bind, Option.bind_some,
      Nat.mod_eq_of_lt small, one]
    split
    · rename_i early
      rw [if_pos early] at two
      rw [two]
      exact run
    · rename_i late
      rw [if_neg late, Option.some.injEq] at two
      rwa [two]

/-- A row's size is halved until it is a rank. -/
theorem shiftRight_rankShift_le (size : Nat) : size >>> rankShift size ≤ largestRank := by
  fun_induction rankShift size with
  | case1 size large ih => rwa [Nat.add_comm, Nat.shiftRight_add, Nat.shiftRight_one]
  | case2 size small => exact Nat.not_lt.mp small

theorem place_narrow {size place : Nat} (inside : place < size) :
    place >>> rankShift size < 2 ^ 16 := by
  have order : place >>> rankShift size ≤ size >>> rankShift size := by
    rw [Nat.shiftRight_eq_div_pow, Nat.shiftRight_eq_div_pow]
    exact Nat.div_le_div_right inside.le
  exact (order.trans (shiftRight_rankShift_le size)).trans_lt (by decide)

variable (rest) in
theorem row_read (sized : ∀ pair, (cellsOf table pair).length = bucketSize text pair)
    (first : UInt8) {i : Nat} (inside : i < (table.row first).flatten.length) :
    (spread pairCount (cellsOf table) rest)[begins (bucketSize text) (first.toNat * 256) + i]? =
      some (table.row first).flatten[i].val := by
  have bound := UInt8.toNat_lt first
  have fits : first.toNat * 256 + 256 ≤ pairCount := by
    rw [pairCount]
    omega
  have near : i < (stretch (cellsOf table) (first.toNat * 256) 256).length := by
    rwa [stretch_row, List.length_map]
  rw [getElem?_spread sized fits near, stretch_row, List.getElem?_map,
    List.getElem?_eq_getElem inside, Option.map_some]

theorem row_length (sized : ∀ pair, (cellsOf table pair).length = bucketSize text pair)
    (first : UInt8) :
    begins (bucketSize text) ((first.toNat + 1) * 256) =
      begins (bucketSize text) (first.toNat * 256) + (table.row first).flatten.length := by
  have length := length_stretch sized (first.toNat * 256) 256
  have order := begins_mono (bucketSize text) (Nat.le_add_right (first.toNat * 256) 256)
  rw [stretch_row, List.length_map] at length
  rw [Nat.succ_mul]
  omega

/-- The predecessors of some rotations that start with a given byte. -/
def placed (text : Text n) (done : List (Fin n)) (first : UInt8) : List (Fin n) :=
  (done.map Text.before).filter fun position => text.get position = first

omit [Occupied n] in
theorem placed_concat (text : Text n) (done : List (Fin n)) (position : Fin n) (first : UInt8) :
    placed text (done ++ [position]) first =
      placed text done first ++
        if text.get (Text.before position) = first then [Text.before position] else [] := by
  simp [placed, List.filter_cons]

/-- How far the predecessors of a row are placed: they stand at the front of their buckets, and
behind them the buckets are as they were. -/
structure Placing (text : Text n) (sorted : ByteSet) (second : UInt8)
    (table : PairTable (List (Fin n))) (done : List (Fin n)) (current : PairTable (List (Fin n)))
    (next : Array Nat) : Prop where
  cells : ∀ first last, current.get first last =
    if sorted.contains first = false ∧ second = last then
      placed text done first ++ (table.get first last).drop (placed text done first).length
    else table.get first last
  next : ∀ first, sorted.contains first = false → next[first.toNat]? =
    some (begins (bucketSize text) (PairTable.index first second) +
      (placed text done first).length)

namespace Placing

variable {sorted : ByteSet} {second : UInt8} {done : List (Fin n)}
variable {current : PairTable (List (Fin n))} {next : Array Nat}

theorem sized (placing : Placing text sorted second table done current next)
    (filed : Filed text table)
    (fits : ∀ first, sorted.contains first = false →
      (placed text done first).length ≤ (table.get first second).length) (pair : Nat) :
    (cellsOf current pair).length = bucketSize text pair := by
  rw [← filed.length_cellsOf]
  by_cases inside : pair < pairCount
  · obtain ⟨first, last, rfl⟩ := exists_index inside
    rw [cellsOf_index, cellsOf_index, List.length_map, List.length_map, placing.cells]
    split
    · rename_i here
      obtain ⟨unsorted, rfl⟩ := here
      have room := fits first unsorted
      rw [List.length_append, List.length_drop]
      omega
    · rfl
  · rw [cellsOf, dif_neg inside, cellsOf, dif_neg inside]

variable (rest) in
theorem step (placing : Placing text sorted second table done current next)
    (filed : Filed text table) {position : Fin n}
    (fits : ∀ first, sorted.contains first = false →
      (placed text (done ++ [position]) first).length ≤ (table.get first second).length)
    (unsorted : sorted.contains (text.get (Text.before position)) = false) :
    ∃ after cursor,
      Cells.put (spread pairCount (cellsOf current) rest)
          (begins (bucketSize text) (PairTable.index (text.get (Text.before position)) second) +
            (placed text done (text.get (Text.before position))).length)
          (Text.before position).val = some (spread pairCount (cellsOf after) rest) ∧
        Cells.put next (text.get (Text.before position)).toNat
          (begins (bucketSize text) (PairTable.index (text.get (Text.before position)) second) +
            (placed text done (text.get (Text.before position))).length + 1) = some cursor ∧
        Placing text sorted second table (done ++ [position]) after cursor := by
  have sized := placing.sized filed fun first known => by
    have room := fits first known
    rw [placed_concat, List.length_append] at room
    omega
  have room := fits _ unsorted
  have cursor := placing.next _ unsorted
  have others (first : UInt8) (different : text.get (Text.before position) ≠ first) :
      placed text (done ++ [position]) first = placed text done first := by
    rw [placed_concat, if_neg different, List.append_nil]
  have grown := placed_concat text done position (text.get (Text.before position))
  rw [if_pos rfl] at grown
  generalize text.get (Text.before position) = first at *
  have old := placing.cells first second
  rw [if_pos ⟨unsorted, rfl⟩] at old
  rw [grown, List.length_append, List.length_singleton] at room
  rw [List.drop_eq_getElem_cons (by omega)] at old
  have cells := cellsOf_index current first second
  rw [old, List.map_append, List.map_cons] at cells
  have put := put_spread rest sized (PairTable.index_lt first second)
    (Text.before position).val (cellsOf (current.set first second
      (placed text done first ++ Text.before position ::
        (table.get first second).drop ((placed text done first).length + 1)))) cells
    (by rw [cellsOf_set, if_pos rfl, List.map_append, List.map_cons])
    (fun pair different => by rw [cellsOf_set, if_neg different])
  rw [List.length_map] at put
  have bound := (Array.getElem?_eq_some_iff.mp cursor).1
  refine ⟨_, _, put, Cells.put_of_lt bound _, fun one last => ?_, fun one known => ?_⟩
  · rw [PairTable.get_set]
    by_cases same : first = one ∧ second = last
    · obtain ⟨rfl, rfl⟩ := same
      rw [if_pos ⟨rfl, rfl⟩, if_pos ⟨unsorted, rfl⟩, grown, List.append_assoc,
        List.length_append, List.length_singleton, List.singleton_append]
    · rw [if_neg same, placing.cells]
      by_cases here : sorted.contains one = false ∧ second = last
      · rw [if_pos here, if_pos here, others one fun equal => same ⟨equal, here.2⟩]
      · rw [if_neg here, if_neg here]
  · rw [Array.getElem?_set]
    by_cases same : first = one
    · subst same
      rw [if_pos rfl, grown, List.length_append, List.length_singleton, Nat.add_assoc]
    · rw [if_neg fun equal => same (UInt8.toNat_inj.mp equal), placing.next one known,
        others one same]

theorem skip (placing : Placing text sorted second table done current next) {position : Fin n}
    (known : sorted.contains (text.get (Text.before position)) = true) :
    Placing text sorted second table (done ++ [position]) current next := by
  have same (first : UInt8) (unsorted : sorted.contains first = false) :
      placed text (done ++ [position]) first = placed text done first := by
    rw [placed_concat, if_neg, List.append_nil]
    intro equal
    rw [equal, unsorted] at known
    cases known
  refine ⟨fun first last => ?_, fun first unsorted => ?_⟩
  · rw [placing.cells]
    by_cases here : sorted.contains first = false ∧ second = last
    · rw [if_pos here, if_pos here, same first here.1]
    · rw [if_neg here, if_neg here]
  · rw [placing.next first unsorted, same first unsorted]

end Placing

/-- The predecessors of a row fill their buckets. -/
theorem length_placed (filed : Filed text table) (second first : UInt8) :
    (placed text (table.row second).flatten first).length = (table.get first second).length := by
  have whole : placed text (table.row second).flatten first =
      (Rotation.placePredecessors text {} second (table.row second).flatten table).get first
        second := by
    rw [get_placePredecessors, if_pos ⟨ByteSet.contains_empty first, rfl⟩]
    rfl
  have size := (placePredecessors_filed filed {} second).length_cellsOf
    (PairTable.index first second)
  rwa [← filed.length_cellsOf, cellsOf_index, cellsOf_index, List.length_map, List.length_map,
    ← whole] at size

theorem placed_fits (filed : Filed text table) {second : UInt8} {done : List (Fin n)}
    (front : done <+: (table.row second).flatten) (first : UInt8) :
    (placed text done first).length ≤ (table.get first second).length := by
  rw [← length_placed filed]
  exact ((front.sublist.map Text.before).filter _).length_le

omit [Occupied n] in
theorem ext_get {one other : PairTable (List (Fin n))}
    (same : ∀ first second, one.get first second = other.get first second) : one = other := by
  obtain ⟨one⟩ := one
  obtain ⟨other⟩ := other
  congr 1
  refine Vector.ext fun pair inside => ?_
  obtain ⟨first, second, rfl⟩ := exists_index inside
  exact same first second

/-- When all of a row is gone through, its predecessors are placed as in the table. -/
theorem Placing.complete (filed : Filed text table) {sorted : ByteSet} {second : UInt8}
    {current : PairTable (List (Fin n))} {next : Array Nat}
    (placing : Placing text sorted second table (table.row second).flatten current next) :
    current =
      Rotation.placePredecessors text sorted second (table.row second).flatten table := by
  refine ext_get fun first last => ?_
  rw [placing.cells, get_placePredecessors]
  split
  · rename_i here
    rw [← here.2, List.drop_eq_nil_of_le (length_placed filed second first).ge, List.append_nil]
    rfl
  · rfl

variable (rest) in
theorem placePredecessors_spec {slots : Array UInt8} (cyclic : Cyclic text slots)
    (filed : Filed text table) {sorted : ByteSet} {second : UInt8}
    (leads : sorted.contains second = true) {row done : List (Fin n)}
    (whole : (table.row second).flatten = done ++ row) {current : PairTable (List (Fin n))}
    {next : Array Nat} (placing : Placing text sorted second table done current next) :
    placePredecessors slots n sorted row.length
        (begins (bucketSize text) (second.toNat * 256) + done.length)
        (spread pairCount (cellsOf current) rest) next =
      some (spread pairCount (cellsOf
        (Rotation.placePredecessors text sorted second (table.row second).flatten table)) rest) := by
  induction row generalizing done current next with
  | nil =>
    rw [List.append_nil] at whole
    subst whole
    rw [placing.complete filed]
    rfl
  | cons position row ih =>
    have front : done <+: (table.row second).flatten := ⟨position :: row, whole.symm⟩
    have further : done ++ [position] <+: (table.row second).flatten := ⟨row, by simp [whole]⟩
    have sized := placing.sized filed fun first _ => placed_fits filed front first
    have kept : current.row second = table.row second := by
      refine List.map_congr_left fun last _ => ?_
      rw [placing.cells, if_neg fun here => ?_]
      rw [leads] at here
      exact absurd here.1 (by simp)
    have read := row_read rest sized second (i := done.length)
      (by rw [kept, whole]; simp)
    simp only [kept, whole, List.getElem_append_right (Nat.le_refl _), Nat.sub_self,
      List.getElem_cons_zero] at read
    rw [List.length_cons, placePredecessors, read]
    simp only [Option.bind_eq_bind, Option.bind_some, cyclic.before position]
    have onward : begins (bucketSize text) (second.toNat * 256) + done.length + 1 =
        begins (bucketSize text) (second.toNat * 256) + (done ++ [position]).length := by
      rw [List.length_append, List.length_singleton, Nat.add_assoc]
    have onto : (table.row second).flatten = done ++ [position] ++ row := by simp [whole]
    cases known : sorted.contains (text.get (Text.before position)) with
    | true =>
      simp only [if_true, onward]
      exact ih onto (placing.skip known)
    | false =>
      obtain ⟨after, cursor, put, moved, placing'⟩ := placing.step rest filed
        (fun first _ => placed_fits filed further first) known
      rw [Text.val_before] at put
      rw [if_neg Bool.false_ne_true, placing.next _ known, Option.bind_some, put, Option.bind_some,
        moved, Option.bind_some, onward]
      exact ih onto placing'

/-- The entries of a column tell where the predecessors of a row go. -/
theorem columnStarts_spec (small : n < mark) {marked : Nat → Bool} {starts : Array Nat}
    (points : Points text marked starts) (second : UInt8) :
    columnStarts starts second = some (allBytes.map fun first =>
      begins (bucketSize text) (PairTable.index first second)) := by
  rw [columnStarts]
  refine mapM_of_forall _ fun first _ => ?_
  have inside := PairTable.index_lt first second
  rw [points.get _ (Nat.lt_succ_of_lt inside)]
  exact congrArg some (placeOf_entry _ ((begins_le text _).trans_lt small))

theorem markColumn_spec {marked : Nat → Bool} {starts : Array Nat}
    (points : Points text marked starts) (second : UInt8) (firsts : List UInt8) :
    ∃ after, markColumn second firsts starts = some after ∧
      Points text (fun pair => marked pair ||
        firsts.any (PairTable.index · second = pair)) after := by
  induction firsts generalizing marked starts with
  | nil => exact ⟨starts, rfl, by simpa using points⟩
  | cons first firsts ih =>
    have inside := PairTable.index_lt first second
    obtain ⟨written, writes, marking⟩ := points.mark inside
    obtain ⟨after, run, result⟩ := ih marking
    refine ⟨after, ?_, ?_⟩
    · rw [markColumn, Cells.update, points.get _ (Nat.lt_succ_of_lt inside)]
      simp only [Option.bind_eq_bind, Option.bind_some, writes]
      exact run
    · refine Tabulates.congr result fun pair _ => ?_
      congr 1
      exact update_any (PairTable.index · second) marked first firsts pair

/-- The buckets of a sorted byte are marked, and no others. -/
def Marked (text : Text n) (sorted : ByteSet) (starts : Array Nat) : Prop :=
  ∃ marked : Nat → Bool, Points text marked starts ∧ ∀ first second,
    marked (PairTable.index first second) = (sorted.contains first || sorted.contains second)

theorem Marked.insert {sorted : ByteSet} {first : UInt8} {starts : Array Nat}
    {marked : Nat → Bool} (known : ∀ one other,
      marked (PairTable.index one other) = (sorted.contains one || sorted.contains other))
    (points : Points text (fun pair => (marked pair ||
      allBytes.any (PairTable.index first · = pair)) ||
        allBytes.any (PairTable.index · first = pair)) starts) :
    Marked text (sorted.insert first) starts := by
  refine ⟨_, points, fun one other => ?_⟩
  have row : allBytes.any (PairTable.index first · = PairTable.index one other) =
      decide (first = one) := by
    rw [Bool.eq_iff_iff, List.any_eq_true]
    simp only [decide_eq_true_eq]
    exact ⟨fun ⟨_, _, same⟩ => (PairTable.index_inj same).1,
      fun same => ⟨other, mem_allBytes other, by rw [same]⟩⟩
  have column : allBytes.any (PairTable.index · first = PairTable.index one other) =
      decide (first = other) := by
    rw [Bool.eq_iff_iff, List.any_eq_true]
    simp only [decide_eq_true_eq]
    exact ⟨fun ⟨_, _, same⟩ => (PairTable.index_inj same).2,
      fun same => ⟨one, mem_allBytes one, by rw [same]⟩⟩
  rw [row, column, known, ByteSet.contains_insert, ByteSet.contains_insert]
  generalize decide (first = one) = a
  generalize decide (first = other) = b
  cases a <;> cases b <;> simp

theorem visit_eq (text : Text n) (budget : Option Nat)
    (table : PairTable (List (Fin n))) (ranks : Vector Nat n) (sorted : ByteSet) (work : Nat)
    (first : UInt8) :
    visit text budget ⟨table, ranks, sorted, work⟩ first =
      let row := Rotation.sortRow ⟨text, ranks, budget⟩ sorted first table work
      if exhausted budget row.2 then ⟨row.1, ranks, sorted, row.2⟩
      else ⟨Rotation.placePredecessors text (sorted.insert first) first (row.1.row first).flatten
        row.1, Rotation.recordRanks ranks (row.1.row first).flatten, sorted.insert first, row.2⟩ := by
  rw [visit]
  generalize Rotation.sortRow ⟨text, ranks, budget⟩ sorted first table work = row
  rfl

theorem row_span (filed : Filed text table) (first : UInt8) :
    Cells.minus (begins (bucketSize text) ((first.toNat + 1) * 256))
        (begins (bucketSize text) (first.toNat * 256)) =
      some (table.row first).flatten.length := by
  rw [row_length filed.length_cellsOf, Cells.minus, if_pos (Nat.le_add_right _ _),
    Nat.add_sub_cancel_left]

variable (rest) in
theorem recordRow_spec (filed : Filed text table) {ranks : Vector Nat n} {cells : Array Nat}
    (kept : Kept ranks cells) (first : UInt8) :
    ∃ after, recordRanks (spread pairCount (cellsOf table) rest) n
          (begins (bucketSize text) (first.toNat * 256))
          (rankShift (table.row first).flatten.length) (table.row first).flatten.length 0 cells =
        some after ∧
      after.size = cells.size ∧ Kept (Rotation.recordRanks ranks (table.row first).flatten) after :=
  recordRanks_spec kept _ 0
    (fun i inside => by
      rw [Nat.zero_add]
      exact row_read rest filed.length_cellsOf first inside)
    (fun i inside => by
      rw [Nat.zero_add]
      exact place_narrow inside)

variable (rest) in
/-- The last row needs no ranks. -/
theorem recordRow_unless_last (filed : Filed text table) {ranks : Vector Nat n}
    {cells : Array Nat} (kept : Kept ranks cells) (first : UInt8) {index : Nat}
    {firsts : List UInt8} (left : index + 1 + firsts.length = 256) :
    ∃ after, (if index < 255 then
          recordRanks (spread pairCount (cellsOf table) rest) n
            (begins (bucketSize text) (first.toNat * 256))
            (rankShift (table.row first).flatten.length) (table.row first).flatten.length 0 cells
        else some cells) = some after ∧
      after.size = cells.size ∧
      (firsts ≠ [] → Kept (Rotation.recordRanks ranks (table.row first).flatten) after) := by
  split
  · obtain ⟨after, recorded, size, next⟩ := recordRow_spec rest filed kept first
    exact ⟨after, recorded, size, fun _ => next⟩
  · refine ⟨cells, rfl, rfl, fun more => absurd (List.length_pos_iff.mpr more) ?_⟩
    omega

variable (text) in
theorem placing_nil (sorted : ByteSet) (second : UInt8) (table : PairTable (List (Fin n))) :
    Placing text sorted second table [] table (allBytes.map fun first =>
      begins (bucketSize text) (PairTable.index first second)).toArray := by
  refine ⟨fun first last => ?_, fun first _ => ?_⟩
  · simp [placed]
  · have here : allBytes[first.toNat]? = some first := by
      simp [allBytes, UInt8.toNat_lt first]
    rw [List.getElem?_toArray, List.getElem?_map, here]
    rfl

/-- The arrays before the visits of the bytes that are left. Ranks are kept up to the last visit,
which needs to record none. -/
structure Visiting (text : Text n) (firsts : List UInt8) (index : Nat)
    (progress : Rotation.Progress n) (cells starts : Array Nat) : Prop where
  left : index + firsts.length = 256
  distinct : firsts.Nodup
  fresh : ∀ first ∈ firsts, progress.sorted.contains first = false
  filed : Filed text progress.table
  kept : firsts ≠ [] → Kept progress.ranks cells
  marked : Marked text progress.sorted starts

variable (rest) in
/-- What a visit in place finds in the entries and writes once its row is sorted. -/
theorem Visiting.conclude {slots : Array UInt8} (cyclic : Cyclic text slots) (small : n < mark)
    {first : UInt8} {firsts : List UInt8} {index : Nat} {progress : Rotation.Progress n}
    {cells starts : Array Nat}
    (visiting : Visiting text (first :: firsts) index progress cells starts)
    (filed : Filed text table) {marked : Nat → Bool}
    (known : ∀ one other, marked (PairTable.index one other) =
      (progress.sorted.contains one || progress.sorted.contains other))
    {settled : Array Nat} (points : Points text (fun pair => marked pair ||
      allBytes.any (PairTable.index first · = pair)) settled) (work : Nat) :
    let row := (table.row first).flatten
    let sorted := progress.sorted.insert first
    let next := Rotation.placePredecessors text sorted first row table
    ∃ low high recorded column marks,
      settled[first.toNat * 256]? = some low ∧ settled[(first.toNat + 1) * 256]? = some high ∧
      Cells.minus (placeOf high) (placeOf low) = some row.length ∧
      (if index < 255 then
          recordRanks (spread pairCount (cellsOf table) rest) n (placeOf low)
            (rankShift row.length) row.length 0 cells
        else some cells) = some recorded ∧
      columnStarts settled first = some column ∧
      placePredecessors slots n sorted row.length (placeOf low)
          (spread pairCount (cellsOf table) rest) column.toArray =
        some (spread pairCount (cellsOf next) rest) ∧
      markColumn first allBytes settled = some marks ∧ marks.size = pairCount + 1 ∧
      recorded.size = cells.size ∧ Filed text next ∧
      Visiting text firsts (index + 1)
        ⟨next, Rotation.recordRanks progress.ranks row, sorted, work⟩ recorded marks := by
  obtain ⟨left, distinct, fresh, -, kept, -⟩ := visiting
  obtain ⟨absent, distinct⟩ := List.nodup_cons.mp distinct
  have bound := UInt8.toNat_lt first
  have start {pair : Nat} (inside : pair ≤ pairCount) :=
    Option.map_eq_some_iff.mp (points.placeOf small inside)
  obtain ⟨low, lowAt, lowIs⟩ := start (show first.toNat * 256 ≤ pairCount by
    rw [pairCount]; omega)
  obtain ⟨high, highAt, highIs⟩ := start (show (first.toNat + 1) * 256 ≤ pairCount by
    rw [pairCount]; omega)
  rw [List.length_cons, ← Nat.add_assoc, Nat.add_right_comm] at left
  obtain ⟨recorded, records, size, next⟩ :=
    recordRow_unless_last rest filed (kept (by simp)) first left
  have leads : (progress.sorted.insert first).contains first = true := by simp
  have placement := placePredecessors_spec rest cyclic filed leads (List.nil_append _).symm
    (placing_nil text (progress.sorted.insert first) first table)
  rw [List.length_nil, Nat.add_zero] at placement
  obtain ⟨marks, marking, further⟩ := markColumn_spec points first allBytes
  have filed' := placePredecessors_filed filed (progress.sorted.insert first) first
  rw [← lowIs] at records placement
  refine ⟨low, high, recorded, _, marks, lowAt, highAt, ?_, records,
    columnStarts_spec small points first, placement, marking, further.extent, size, filed', left,
    distinct, fun other member => ?_, filed', next, .insert known further⟩
  · rw [lowIs, highIs, row_span filed]
  · rw [ByteSet.contains_insert, fresh other (by simp [member]), Bool.or_false,
      decide_eq_false_iff_not]
    exact fun same => absent (same ▸ member)

variable (rest) in
/-- A visit in place comes as far as the visit of a table does. The others follow, unless too much
work was done. -/
theorem Visiting.step {slots : Array UInt8} (cyclic : Cyclic text slots) (small : n < mark)
    {budget : Option Nat} {first : UInt8} {firsts : List UInt8} {index : Nat}
    {progress : Rotation.Progress n} {cells starts : Array Nat}
    (visiting : Visiting text (first :: firsts) index progress cells starts)
    (running : exhausted budget progress.work = false) (pending : List Frame) :
    let next := visit text budget progress first
    ∃ cells' starts' pending',
      visitAll slots n budget index (first :: firsts) progress.sorted cells
          ⟨spread pairCount (cellsOf progress.table) rest, starts, pending, progress.work⟩ =
        (if exhausted budget next.work then some (cells',
          ⟨spread pairCount (cellsOf next.table) rest, starts', pending', next.work⟩)
        else visitAll slots n budget (index + 1) firsts next.sorted cells'
          ⟨spread pairCount (cellsOf next.table) rest, starts', pending', next.work⟩) ∧
      cells'.size = cells.size ∧ starts'.size = pairCount + 1 ∧ Filed text next.table ∧
      (exhausted budget next.work = false →
        Visiting text firsts (index + 1) next cells' starts') := by
  obtain ⟨table, ranks, sorted, work⟩ := progress
  obtain ⟨marked, points, known⟩ := visiting.marked
  have models : Bench.Models { slots, ranks := cells, size := n, budget }
    (⟨text, ranks, budget⟩ : Comparer n) := ⟨rfl, cyclic, visiting.kept (by simp), rfl⟩
  obtain ⟨after, stale, run, extent, filed, result⟩ := sortRow_spec rest models small sorted
    first allBytes_nodup visiting.filed points
    (fun second _ => by rw [known, visiting.fresh first (by simp), Bool.false_or]) running pending
  rw [← sortRow_eq] at run filed result
  rw [visit_eq]
  generalize Rotation.sortRow ⟨text, ranks, budget⟩ sorted first table work = row at *
  obtain ⟨settled, work⟩ := row
  dsimp only at run filed result ⊢
  rw [visitAll, run]
  simp only [Option.bind_eq_bind, Option.bind_some, models.overspent, overspent_eq]
  by_cases spent : exhausted budget work = true
  · simp only [if_pos spent]
    exact ⟨cells, after, stale, rfl, rfl, extent, filed, fun going => by simp [spent] at going⟩
  · have points := result (Bool.not_eq_true _ ▸ spent)
    obtain ⟨low, high, recorded, column, marks, lowAt, highAt, span, records, columnIs, placement,
      marking, long, size, filed', next⟩ :=
        visiting.conclude rest cyclic small filed known points work
    simp only [if_neg spent, lowAt, highAt, Option.bind_some, span, columnIs, placement, marking]
    refine ⟨recorded, marks, stale, ?_, size, long, filed', fun _ => next⟩
    -- the rest of the visit is the same with and without a record of the row
    split at records
    · rename_i early
      rw [if_pos early, records]
      rfl
    · rename_i last
      rw [if_neg last, Option.some.inj records]

variable (rest) in
/-- Visits in place come as far as visits of a table do. -/
theorem visitAll_spec {slots : Array UInt8} (cyclic : Cyclic text slots) (small : n < mark)
    {budget : Option Nat} {firsts : List UInt8} {index : Nat} {progress : Rotation.Progress n}
    {cells starts : Array Nat} (visiting : Visiting text firsts index progress cells starts)
    (running : exhausted budget progress.work = false) (pending : List Frame) :
    let final := firsts.foldl (visit text budget) progress
    ∃ cells' starts' pending',
      visitAll slots n budget index firsts progress.sorted cells
          ⟨spread pairCount (cellsOf progress.table) rest, starts, pending, progress.work⟩ =
        some (cells', ⟨spread pairCount (cellsOf final.table) rest, starts', pending',
          final.work⟩) ∧
        cells'.size = cells.size ∧ starts'.size = pairCount + 1 ∧ Filed text final.table := by
  induction firsts generalizing index progress cells starts pending with
  | nil =>
    obtain ⟨_, points, _⟩ := visiting.marked
    exact ⟨cells, starts, pending, rfl, rfl, points.extent, visiting.filed⟩
  | cons first firsts ih =>
    obtain ⟨cells', starts', pending', run, size, extent, filed, onward⟩ :=
      visiting.step rest cyclic small running pending
    rw [List.foldl_cons, run]
    cases spent : exhausted budget (visit text budget progress first).work with
    | true =>
      rw [foldl_visit_spent firsts spent, if_pos rfl]
      exact ⟨cells', starts', pending', rfl, size, extent, filed⟩
    | false =>
      rw [if_neg Bool.false_ne_true]
      obtain ⟨cells'', starts'', pending'', others, total, result⟩ :=
        ih (onward spent) spent pending'
      exact ⟨cells'', starts'', pending'', others, total.trans size, result⟩

theorem rowSizes_spec (filed : Filed text table) {starts : Array Nat}
    (begun : Tabulates (pairCount + 1) (begins (bucketSize text)) starts) :
    (List.range 256).mapM (rowSize starts) = some (rowSizes table).toList := by
  have each : ∀ first ∈ List.range 256, rowSize starts first =
      some (((table.row (UInt8.ofNat first)).map List.length).foldl (· + ·) 0) := by
    intro first member
    have few : first < 256 := List.mem_range.mp member
    have same : (UInt8.ofNat first).toNat = first := by
      rw [UInt8.toNat_ofNat', Nat.mod_eq_of_lt few]
    have span := row_span filed (UInt8.ofNat first)
    rw [same] at span
    rw [rowSize, begun.get _ (by rw [pairCount]; omega), begun.get _ (by rw [pairCount]; omega)]
    simp only [Option.bind_eq_bind, Option.bind_some]
    rw [span, List.length_flatten, List.sum_eq_foldl]
  rw [mapM_of_forall _ each]
  refine congrArg some (List.ext_getElem (by simp) fun first _ _ => ?_)
  simp only [List.getElem_map, List.getElem_range, Vector.getElem_toList, rowSizes,
    Vector.getElem_ofFn]

theorem visitOrder_perm (sizes : Vector Nat 256) : (visitOrder sizes).Perm allBytes := by
  have perm := (Shell.sort_exchanged (n := 256) (fun (a b : UInt8) (_ : Unit) =>
    (decide (sizes.get ⟨b.toNat, UInt8.toNat_lt b⟩ < sizes.get ⟨a.toNat, UInt8.toNat_lt a⟩), ()))
    (fun _ => false) 0 256 (Nat.le_refl 256)
    (Vector.ofFn fun first => UInt8.ofNat first.val) ()).perm.toList
  refine perm.trans (List.Perm.of_eq (List.ext_getElem (by simp [allBytes]) fun first _ _ => ?_))
  simp only [allBytes, Vector.getElem_toList, Vector.getElem_ofFn, List.getElem_map,
    List.getElem_range]

omit [Occupied n] in
theorem kept_zero {cells : Array Nat} (cleared : ∀ i < n + Block.margin, cells[i]? = some 0) :
    Kept (Vector.replicate n 0) cells := by
  intro i near
  rw [cleared i near, Comparer.rankAt]
  split
  · simp
  · split <;> simp

theorem visiting_collect {cells next : Array Nat}
    (cleared : ∀ i < n + Block.margin, cells[i]? = some 0)
    (begun : Tabulates (pairCount + 1) (begins (bucketSize text)) next) :
    Visiting text (visitOrder (rowSizes (Rotation.collect text))) 0
      ⟨Rotation.collect text, Vector.replicate n 0, {}, 0⟩ cells next := by
  have perm := visitOrder_perm (rowSizes (Rotation.collect text))
  refine ⟨?_, perm.nodup_iff.mpr allBytes_nodup, fun first _ => ByteSet.contains_empty first,
    collect_filed text, fun _ => kept_zero cleared, fun _ => false, begun, fun first second => ?_⟩
  · rw [perm.length_eq]
    simp [allBytes]
  · simp

theorem ofFn_getD (sizes : Vector Nat 256) :
    (Vector.ofFn fun first => sizes.toList.getD first 0) = sizes := by
  ext first inside
  simp [List.getD]

omit [Occupied n] in
/-- A sort in place files the rotations, visits the rows by their sizes, and keeps what the visits
leave. -/
theorem sortRotations_of {slots : Array UInt8} {size : Nat} {budget : Option Nat}
    {order starts ranks filed next cells : Array Nat} {pending : List Frame} {sizes : List Nat}
    {progress : Progress} (collected : collect slots size order starts = some (filed, next))
    (counted : (List.range 256).mapM (rowSize next) = some sizes)
    (visited : visitAll slots size budget 0
      (visitOrder (Vector.ofFn fun first => sizes.getD first 0)) {} ranks
      ⟨filed, next, pending, 0⟩ = some (cells, progress)) :
    sortRotations slots size budget ⟨order, starts, ranks, pending⟩ =
      some (⟨progress.order, progress.starts, cells, progress.pending⟩, progress.work) := by
  rw [sortRotations]
  refine Option.bind_eq_some_iff.mpr ⟨_, collected, ?_⟩
  refine Option.bind_eq_some_iff.mpr ⟨_, counted, ?_⟩
  exact Option.bind_eq_some_iff.mpr ⟨_, visited, rfl⟩

/-- A sort in place makes of the front of the order what the sort of rotations gives, whatever was
in the arrays before, and takes as much work. -/
theorem sortRotations_spec {slots : Array UInt8} (cyclic : Cyclic text slots) (small : n < mark)
    (budget : Option Nat) {space : SortSpace} (wide : n ≤ space.order.size)
    (long : space.starts.size = pairCount + 1)
    (cleared : ∀ i < n + Block.margin, space.ranks[i]? = some 0) :
    ∃ after, sortRotations slots n budget space = some (after, (Rotation.sort text budget).2) ∧
      after.order = ((Rotation.sort text budget).1.map Fin.val ++
        space.order.toList.drop n).toArray ∧ after.order.size = space.order.size ∧
      after.starts.size = pairCount + 1 ∧ after.ranks.size = space.ranks.size := by
  obtain ⟨order, starts, ranks, pending⟩ := space
  dsimp only at wide long cleared ⊢
  obtain ⟨next, collected, begun⟩ := collect_spec cyclic wide long
  obtain ⟨cells, last, left, run, size, extent, whole⟩ :=
    visitAll_spec (order.toList.drop n) cyclic small (visiting_collect cleared begun)
      (exhausted_zero budget) pending
  rw [← finished] at run whole
  refine ⟨⟨spread pairCount (cellsOf (finished text budget).table) (order.toList.drop n), last,
    cells, left⟩, ?_, ?_, ?_, extent, size⟩
  · rw [← ofFn_getD (rowSizes _)] at run
    rw [sortRotations_of collected (rowSizes_spec (collect_filed text) begun) run, sort_eq]
  · rw [sort_eq, ← flatMap_cellsOf]
    rfl
  · have length := whole.listed_perm.length_eq
    rw [List.length_finRange] at length
    simp only [spread, flatMap_cellsOf, List.size_toArray, List.length_append, List.length_map,
      length, List.length_drop, Array.length_toList]
    exact Nat.add_sub_cancel' wide

end BlockSort.SortSpace
