import BlockSort.Proofs.Storage.Filing

namespace BlockSort.SortSpace

open Rotation

variable {n : Nat} [Occupied n] {text : Text n} {table : PairTable (List (Fin n))}
variable {rest : List Nat}

/-- The entry of a bucket that begins at a place. -/
def entry (marked : Bool) (place : Nat) : Nat := if marked then place ||| mark else place

private theorem mark_eq : mark = 2 ^ 21 := rfl

private theorem testBit_mark (bit : Nat) : mark.testBit bit = decide (21 = bit) := by
  rw [mark_eq]
  exact Nat.testBit_two_pow

theorem isMarked_entry (marked : Bool) {place : Nat} (small : place < mark) :
    isMarked (entry marked place) = marked := by
  have clear : place.testBit 21 = false := Nat.testBit_lt_two_pow (small.trans_eq mark_eq)
  have flag : (entry marked place).testBit 21 = marked := by
    cases marked <;> simp [entry, Nat.testBit_or, testBit_mark, clear]
  rw [isMarked, mark_eq, Nat.and_two_pow, flag]
  cases marked <;> decide

theorem placeOf_entry (marked : Bool) {place : Nat} (small : place < mark) :
    placeOf (entry marked place) = place := by
  have bits : unmarked = (2 ^ 32 - 1) ^^^ mark := by decide
  refine Nat.eq_of_testBit_eq fun bit => ?_
  have high : 21 ≤ bit → place.testBit bit = false := fun high =>
    Nat.testBit_lt_two_pow
      (small.trans_le (mark_eq.trans_le (Nat.pow_le_pow_right (by decide) high)))
  rw [placeOf, Nat.testBit_and, bits, Nat.testBit_xor, Nat.testBit_two_pow_sub_one, testBit_mark]
  cases marked with
  | true =>
    simp only [entry, if_true, Nat.testBit_or, testBit_mark]
    by_cases low : bit < 21
    · simp [low.ne', Nat.lt_trans low (by decide : 21 < 32)]
    · rw [high (Nat.not_lt.mp low)]
      by_cases same : 21 = bit
      · simp [← same]
      · simp [same]
  | false =>
    simp only [entry, Bool.false_eq_true, if_false]
    by_cases low : bit < 21
    · simp [low.ne', Nat.lt_trans low (by decide : 21 < 32)]
    · rw [high (Nat.not_lt.mp low), Bool.false_and]

theorem entry_or_mark (marked : Bool) (place : Nat) :
    entry marked place ||| mark = entry true place := by
  cases marked with
  | true => simp [entry]
  | false => simp [entry]

/-- The entries of all buckets, and one for the end of the last. -/
def Points (text : Text n) (marked : Nat → Bool) (starts : Array Nat) : Prop :=
  Tabulates (pairCount + 1) (fun pair => entry (marked pair) (begins (bucketSize text) pair)) starts

theorem Points.placeOf {marked : Nat → Bool} {starts : Array Nat}
    (points : Points text marked starts) (small : n < mark) {pair : Nat} (inside : pair ≤ pairCount) :
    starts[pair]?.map placeOf = some (begins (bucketSize text) pair) := by
  rw [points.get pair (Nat.lt_succ_of_le inside), Option.map_some,
    placeOf_entry _ ((begins_le text pair).trans_lt small)]

theorem Points.mark {marked : Nat → Bool} {starts : Array Nat} (points : Points text marked starts)
    {pair : Nat} (inside : pair < pairCount) :
    ∃ after, Cells.put starts pair
        (entry (marked pair) (begins (bucketSize text) pair) ||| SortSpace.mark) = some after ∧
      Points text (Function.update marked pair true) after := by
  obtain ⟨after, written, tabulates⟩ := points.put (Nat.lt_succ_of_lt inside)
    (entry (marked pair) (begins (bucketSize text) pair) ||| SortSpace.mark)
  refine ⟨after, written, tabulates.congr fun place _ => ?_⟩
  rw [Function.update_apply, Function.update_apply]
  by_cases same : place = pair
  · rw [if_pos same, if_pos same, entry_or_mark, same]
  · rw [if_neg same, if_neg same]

omit [Occupied n] in
theorem cellsOf_set (table : PairTable (List (Fin n))) (first second : UInt8)
    (positions : List (Fin n)) (pair : Nat) :
    cellsOf (table.set first second positions) pair =
      if pair = PairTable.index first second then positions.map Fin.val
      else cellsOf table pair := by
  by_cases inside : pair < pairCount
  · obtain ⟨other, last, rfl⟩ := exists_index inside
    rw [cellsOf_index, PairTable.get_set, cellsOf_index]
    by_cases same : first = other ∧ second = last
    · obtain ⟨rfl, rfl⟩ := same
      simp
    · rw [if_neg same, if_neg fun equal => same ?_]
      obtain ⟨one, two⟩ := PairTable.index_inj equal
      exact ⟨one.symm, two.symm⟩
  · rw [cellsOf, dif_neg inside, cellsOf, dif_neg inside,
      if_neg fun same => inside (by
        rw [same]
        exact PairTable.index_lt first second)]

omit [Occupied n] in
theorem spread_set (table : PairTable (List (Fin n))) (first second : UInt8)
    (positions : List (Fin n)) :
    spread pairCount (cellsOf (table.set first second positions)) rest =
      (stretch (cellsOf table) 0 (PairTable.index first second) ++ positions.map Fin.val ++
        (stretch (cellsOf table) (PairTable.index first second + 1)
          (pairCount - (PairTable.index first second + 1)) ++ rest)).toArray := by
  have others (pair : Nat) (different : pair ≠ PairTable.index first second) :
      cellsOf (table.set first second positions) pair = cellsOf table pair := by
    rw [cellsOf_set, if_neg different]
  rw [spread_eq (PairTable.index_lt first second), cellsOf_set, if_pos rfl,
    stretch_congr fun pair _ less => others pair (by omega),
    stretch_congr fun pair more _ => others pair (by omega)]

omit [Occupied n] in
theorem set_get (table : PairTable (List (Fin n))) (first second : UInt8) :
    table.set first second (table.get first second) = table := by
  simp [PairTable.set, PairTable.get]

variable {bench : Bench} {comparer : Comparer n}

omit [Occupied n] in
theorem embed_toVector (left right : List Nat) (positions : List (Fin n)) :
    embed left positions.toArray.toVector right =
      (left ++ positions.map Fin.val ++ right).toArray := by
  simp [embed]

theorem sort_several (comparer : Comparer n) {positions : List (Fin n)}
    (several : 1 < positions.length) (work : Nat) :
    Bucket.sort comparer positions work =
      let sorted := Bucket.sortRange comparer 0 positions.toArray.size 2 (Nat.zero_le _)
        (Nat.le_refl _) positions.toArray.toVector work
      (sorted.1.toList, sorted.2) := by
  match positions with
  | [] => simp at several
  | [_] => simp at several
  | _ :: _ :: _ => rfl

variable (rest) in
/-- A bucket is a vector of positions between two other parts of the order. -/
theorem spread_bucket (filed : Filed text table) (first second : UInt8) :
    ∃ left right : List Nat,
      begins (bucketSize text) (PairTable.index first second) = left.length ∧
      begins (bucketSize text) (PairTable.index first second + 1) =
        left.length + (table.get first second).length ∧
      ∀ positions, spread pairCount (cellsOf (table.set first second positions)) rest =
        (left ++ positions.map Fin.val ++ right).toArray := by
  have size := filed.length_cellsOf (PairTable.index first second)
  rw [cellsOf_index, List.length_map] at size
  have lead : begins (bucketSize text) (PairTable.index first second) =
      (stretch (cellsOf table) 0 (PairTable.index first second)).length := by
    rw [length_stretch filed.length_cellsOf, Nat.zero_add]
    simp [begins]
  exact ⟨_, _, lead, by rw [begins_succ, lead, ← size], spread_set table first second⟩

variable (rest) in
theorem drain_bucket (models : bench.Models comparer) (filed : Filed comparer.text table)
    {first second : UInt8} (several : 1 < (table.get first second).length) {work : Nat}
    (running : comparer.overspent work = false) :
    let sorted := Bucket.sort comparer (table.get first second) work
    ∃ pending,
      bench.drain
          [⟨begins (bucketSize comparer.text) (PairTable.index first second),
            begins (bucketSize comparer.text) (PairTable.index first second + 1), 2⟩]
          (spread pairCount (cellsOf table) rest) work =
        some (pending, spread pairCount (cellsOf (table.set first second sorted.1)) rest,
          sorted.2) := by
  obtain ⟨left, right, lead, stop, cut⟩ := spread_bucket rest filed first second
  obtain ⟨pending, run⟩ := Bench.drain_single left right models (by decide : 2 ≤ Bucket.deepest + 1)
    (Nat.zero_le _) (Nat.le_refl _) (table.get first second).toArray.toVector work running
  rw [embed_toVector, ← cut, set_get] at run
  refine ⟨pending, ?_⟩
  rw [sort_several comparer several, cut, lead, stop]
  simpa only [Nat.add_zero, List.size_toArray, embed] using run

theorem sortBucket_filed {sorted : ByteSet} {first : UInt8} {state : PairTable (List (Fin n)) × Nat}
    (filed : Filed comparer.text state.1) (second : UInt8) :
    Filed comparer.text (sortBucket comparer sorted first state second).1 := by
  unfold sortBucket
  split
  · exact filed
  · exact filed.set (Bucket.sort_perm comparer _ state.2)

theorem sort_short (comparer : Comparer n) {positions : List (Fin n)}
    (short : ¬1 < positions.length) (work : Nat) :
    Bucket.sort comparer positions work = (positions, work) := by
  match positions with
  | [] => rfl
  | [_] => rfl
  | _ :: _ :: _ => simp at short

omit [Occupied n] in
theorem update_any (pairOf : UInt8 → Nat) (marked : Nat → Bool) (byte : UInt8) (bytes : List UInt8)
    (pair : Nat) :
    (Function.update marked (pairOf byte) true pair || bytes.any (pairOf · = pair)) =
      (marked pair || (byte :: bytes).any (pairOf · = pair)) := by
  rw [Function.update_apply, List.any_cons]
  by_cases same : pair = pairOf byte
  · simp [same]
  · simp [same, Ne.symm same]

section Row

variable {marked : Nat → Bool} {starts after order : Array Nat} {first second : UInt8}
variable {pending : List Frame} {work : Nat}

theorem sortRow_marked (points : Points text marked starts) (small : n < mark)
    (settled : marked (PairTable.index first second) = true) (seconds : List UInt8) :
    sortRow bench first (second :: seconds) ⟨order, starts, pending, work⟩ =
      sortRow bench first seconds ⟨order, starts, pending, work⟩ := by
  have start := (begins_le text (PairTable.index first second)).trans_lt small
  rw [sortRow, points.get _ (Nat.lt_succ_of_lt (PairTable.index_lt first second))]
  simp only [Option.bind_eq_bind, Option.bind_some, isMarked_entry _ start, settled, if_true]

/-- Any other bucket is sorted if it holds several rotations, and is marked if the budget lasts. -/
theorem sortRow_unmarked (points : Points text marked starts) (small : n < mark)
    (fresh : marked (PairTable.index first second) = false)
    (written : Cells.put starts (PairTable.index first second)
      (entry (marked (PairTable.index first second))
        (begins (bucketSize text) (PairTable.index first second)) ||| mark) = some after)
    (seconds : List UInt8) :
    let lo := begins (bucketSize text) (PairTable.index first second)
    let hi := begins (bucketSize text) (PairTable.index first second + 1)
    sortRow bench first (second :: seconds) ⟨order, starts, pending, work⟩ =
      if lo + 1 < hi then do
        let (pending, order, work) ← bench.drain [⟨lo, hi, 2⟩] order work
        if bench.overspent work then some ⟨order, starts, pending, work⟩
        else sortRow bench first seconds ⟨order, after, pending, work⟩
      else sortRow bench first seconds ⟨order, after, pending, work⟩ := by
  have inside := PairTable.index_lt first second
  have start := (begins_le text (PairTable.index first second)).trans_lt small
  have stop := (begins_le text (PairTable.index first second + 1)).trans_lt small
  rw [fresh] at written
  rw [sortRow, points.get _ (Nat.lt_succ_of_lt inside)]
  simp only [Option.bind_eq_bind, Option.bind_some, isMarked_entry _ start,
    points.get _ (Nat.succ_lt_succ inside), placeOf_entry _ start, placeOf_entry _ stop, fresh,
    Bool.false_eq_true, if_false, written]

variable {sorted : ByteSet} {seconds : List UInt8}

theorem sortBucket_marked (settled : sorted.contains second = true) :
    sortBucket comparer sorted first (table, work) second = (table, work) := by
  rw [sortBucket, if_pos (by rw [settled, Bool.true_or])]

theorem sortBucket_fresh (fresh : sorted.contains second = false)
    (running : comparer.overspent work = false) :
    let found := Bucket.sort comparer (table.get first second) work
    sortBucket comparer sorted first (table, work) second =
      (table.set first second found.1, found.2) := by
  rw [sortBucket, if_neg (by simp [fresh, running])]

variable (rest) in
/-- A bucket of several rotations that is not marked yet ends the row if it overspends the
budget. -/
theorem sortRow_several (models : bench.Models comparer) (small : n < mark)
    (filed : Filed comparer.text table) (points : Points comparer.text marked starts)
    (fresh : sorted.contains second = false)
    (known : marked (PairTable.index first second) = sorted.contains second)
    (written : Cells.put starts (PairTable.index first second)
      (entry (marked (PairTable.index first second))
        (begins (bucketSize comparer.text) (PairTable.index first second)) ||| mark) = some after)
    (several : 1 < (table.get first second).length) (running : comparer.overspent work = false) :
    let next := sortBucket comparer sorted first (table, work) second
    ∃ left, sortRow bench first (second :: seconds)
        ⟨spread pairCount (cellsOf table) rest, starts, pending, work⟩ =
      if comparer.overspent next.2 then
        some ⟨spread pairCount (cellsOf next.1) rest, starts, left, next.2⟩
      else sortRow bench first seconds
        ⟨spread pairCount (cellsOf next.1) rest, after, left, next.2⟩ := by
  have size := filed.length_cellsOf (PairTable.index first second)
  rw [cellsOf_index, List.length_map] at size
  obtain ⟨left, run⟩ := drain_bucket rest models filed several running
  refine ⟨left, ?_⟩
  rw [sortRow_unmarked points small (known.trans fresh) written, sortBucket_fresh fresh running]
  dsimp only
  rw [if_pos (by rw [begins_succ]; omega), run]
  simp only [Option.bind_eq_bind, Option.bind_some, models.overspent]

theorem sortRow_single (small : n < mark) (filed : Filed comparer.text table)
    (points : Points comparer.text marked starts) (fresh : sorted.contains second = false)
    (known : marked (PairTable.index first second) = sorted.contains second)
    (written : Cells.put starts (PairTable.index first second)
      (entry (marked (PairTable.index first second))
        (begins (bucketSize comparer.text) (PairTable.index first second)) ||| mark) = some after)
    (single : ¬1 < (table.get first second).length) (running : comparer.overspent work = false) :
    sortBucket comparer sorted first (table, work) second = (table, work) ∧
      sortRow bench first (second :: seconds) ⟨order, starts, pending, work⟩ =
        sortRow bench first seconds ⟨order, after, pending, work⟩ := by
  have size := filed.length_cellsOf (PairTable.index first second)
  rw [cellsOf_index, List.length_map] at size
  constructor
  · rw [sortBucket_fresh fresh running, sort_short comparer single]
    dsimp only
    rw [set_get]
  · rw [sortRow_unmarked points small (known.trans fresh) written]
    dsimp only
    rw [if_neg (by rw [begins_succ]; omega)]

variable (rest) in
/-- The step lemma: the bucket in front is sorted, and the row goes on unless it overspends the
budget. -/
theorem sortRow_cons (models : bench.Models comparer) (small : n < mark)
    (filed : Filed comparer.text table) (points : Points comparer.text marked starts)
    (known : marked (PairTable.index first second) = sorted.contains second)
    (running : comparer.overspent work = false) :
    let next := sortBucket comparer sorted first (table, work) second
    ∃ left after, Points comparer.text
        (Function.update marked (PairTable.index first second) true) after ∧
      sortRow bench first (second :: seconds)
          ⟨spread pairCount (cellsOf table) rest, starts, pending, work⟩ =
        if comparer.overspent next.2 then
          some ⟨spread pairCount (cellsOf next.1) rest, starts, left, next.2⟩
        else sortRow bench first seconds
          ⟨spread pairCount (cellsOf next.1) rest, after, left, next.2⟩ := by
  cases settled : sorted.contains second with
  | true =>
    have same : Function.update marked (PairTable.index first second) true = marked := by
      rw [← known.trans settled, Function.update_eq_self]
    refine ⟨pending, starts, by rwa [same], ?_⟩
    rw [sortBucket_marked settled, sortRow_marked points small (known.trans settled), running]
    rfl
  | false =>
    obtain ⟨after, written, marking⟩ := points.mark (PairTable.index_lt first second)
    by_cases several : 1 < (table.get first second).length
    · obtain ⟨left, run⟩ :=
        sortRow_several rest models small filed points settled known written several running
      exact ⟨left, after, marking, run⟩
    · obtain ⟨same, run⟩ :=
        sortRow_single small filed points settled known written several running
      refine ⟨pending, after, marking, ?_⟩
      rw [same, run, running]
      rfl

variable (rest) in
/-- The buckets of a row are sorted in turn, up to the one that overspends the budget. -/
theorem sortRow_spec (models : bench.Models comparer) (small : n < mark) (sorted : ByteSet)
    (first : UInt8) {seconds : List UInt8} (distinct : seconds.Nodup)
    (filed : Filed comparer.text table) {marked : Nat → Bool} {starts : Array Nat}
    (points : Points comparer.text marked starts)
    (known : ∀ second ∈ seconds, marked (PairTable.index first second) = sorted.contains second)
    {work : Nat} (running : comparer.overspent work = false) (pending : List Frame) :
    let row := seconds.foldl (sortBucket comparer sorted first) (table, work)
    ∃ after left,
      sortRow bench first seconds ⟨spread pairCount (cellsOf table) rest, starts, pending, work⟩ =
          some ⟨spread pairCount (cellsOf row.1) rest, after, left, row.2⟩ ∧
        after.size = pairCount + 1 ∧ Filed comparer.text row.1 ∧
        (comparer.overspent row.2 = false → Points comparer.text (fun pair => marked pair ||
          seconds.any (PairTable.index first · = pair)) after) := by
  induction seconds generalizing table marked starts work pending with
  | nil => exact ⟨starts, pending, rfl, points.extent, filed, fun _ => by simpa using points⟩
  | cons second seconds ih =>
    obtain ⟨absent, distinct⟩ := List.nodup_cons.mp distinct
    obtain ⟨left, after, marking, run⟩ :=
      sortRow_cons rest models small filed points (known second (by simp)) running
    have filed := @sortBucket_filed _ _ _ sorted first (table, work) filed second
    rw [List.foldl_cons, run]
    generalize sortBucket comparer sorted first (table, work) second = next at filed ⊢
    obtain ⟨table, work⟩ := next
    cases spent : comparer.overspent work with
    | true =>
      rw [foldl_sortBucket_spent _ _ _ _ _ spent]
      exact ⟨starts, left, rfl, points.extent, filed, fun going => nomatch spent.symm.trans going⟩
    | false =>
      have apart : ∀ other ∈ seconds,
          Function.update marked (PairTable.index first second) true
            (PairTable.index first other) = sorted.contains other := by
        intro other member
        rw [Function.update_apply, if_neg fun same => ?_]
        · exact known other (List.mem_cons_of_mem second member)
        · exact absent ((PairTable.index_inj same).2 ▸ member)
      have others := ih distinct filed marking apart spent left
      simp only [update_any] at others
      exact others

end Row

end BlockSort.SortSpace
