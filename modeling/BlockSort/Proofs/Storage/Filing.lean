import BlockSort.Proofs.Rotation.Sorting
import BlockSort.Proofs.Storage.Bench
import BlockSort.Proofs.Storage.Spread
import BlockSort.Storage.SortSpace

namespace BlockSort.Rotation

variable {n : Nat} [Occupied n] {text : Text n} {table : PairTable (List (Fin n))}

/-- The number of pairs of bytes. -/
abbrev pairCount : Nat := 65536

/-- The pair of bytes that the rotation at a position starts with. -/
def pairAt (text : Text n) (position : Nat) : Nat :=
  PairTable.index (text.byteAt position) (text.byteAt (position + 1))

/-- How many rotations start with a pair. -/
def bucketSize (text : Text n) (pair : Nat) : Nat :=
  ((List.range n).filter (pairAt text · = pair)).length

/-- What the buckets of a table hold. -/
def cellsOf (table : PairTable (List (Fin n))) (pair : Nat) : List Nat :=
  if inside : pair < pairCount then table.cells[pair].map Fin.val else []

omit [Occupied n] in
theorem cellsOf_index (table : PairTable (List (Fin n))) (first second : UInt8) :
    cellsOf table (PairTable.index first second) = (table.get first second).map Fin.val := by
  rw [cellsOf, dif_pos (PairTable.index_lt first second)]
  rfl

theorem pairAt_lt (text : Text n) (position : Nat) : pairAt text position < pairCount :=
  PairTable.index_lt _ _

theorem pairAt_eq_iff (text : Text n) (position : Fin n) (first second : UInt8) :
    pairAt text position = PairTable.index first second ↔ Leads text first second position := by
  constructor
  · intro same
    obtain ⟨one, other⟩ := PairTable.index_inj same
    exact ⟨(Text.byteAt_fin text position).symm.trans one, other⟩
  · intro leads
    rw [pairAt, Text.byteAt_fin, leads.first, leads.second]

omit [Occupied n] in
theorem exists_index {pair : Nat} (inside : pair < pairCount) :
    ∃ first second : UInt8, PairTable.index first second = pair := by
  have few : pair / 256 < 256 := by
    rw [pairCount] at inside
    omega
  refine ⟨UInt8.ofNat (pair / 256), UInt8.ofNat (pair % 256), ?_⟩
  rw [PairTable.index, UInt8.toNat_ofNat', UInt8.toNat_ofNat', Nat.mod_eq_of_lt few]
  omega

theorem bucketSize_of_le {pair : Nat} (outside : pairCount ≤ pair) : bucketSize text pair = 0 := by
  rw [bucketSize, List.length_eq_zero_iff, List.filter_eq_nil_iff]
  intro position _ same
  have inside := pairAt_lt text position
  rw [decide_eq_true_eq] at same
  omega

omit [Occupied n] in
theorem map_filter_finRange (test : Nat → Bool) :
    ((List.finRange n).filter fun position => test position.val).map Fin.val =
      (List.range n).filter test := by
  rw [← List.map_coe_finRange_eq_range, List.filter_map]
  rfl

/-- The buckets of a table that files every rotation have the sizes that the text gives them. -/
theorem Filed.length_cellsOf (filed : Filed text table) (pair : Nat) :
    (cellsOf table pair).length = bucketSize text pair := by
  by_cases inside : pair < pairCount
  · obtain ⟨first, second, rfl⟩ := exists_index inside
    have perm : (table.get first second).Perm ((List.finRange n).filter fun position =>
        pairAt text position = PairTable.index first second) := by
      refine (List.perm_ext_iff_of_nodup (filed.nodup first second)
        ((List.nodup_finRange n).filter _)).mpr fun position => ?_
      rw [filed.mem, List.mem_filter, decide_eq_true_eq, pairAt_eq_iff]
      exact ⟨fun leads => ⟨List.mem_finRange position, leads⟩, And.right⟩
    rw [cellsOf_index, List.length_map, perm.length_eq, bucketSize,
      ← map_filter_finRange (pairAt text · = PairTable.index first second), List.length_map]
  · rw [cellsOf, dif_neg inside, bucketSize_of_le (Nat.not_lt.mp inside)]
    rfl

omit [Occupied n] in
theorem stretch_row (table : PairTable (List (Fin n))) (first : UInt8) :
    stretch (cellsOf table) (first.toNat * 256) 256 =
      (table.row first).flatten.map Fin.val := by
  rw [stretch, List.range'_eq_map_range, List.flatMap_map, PairTable.row, allBytes, List.map_map,
    ← List.flatMap_def, List.map_flatMap]
  refine List.flatMap_congr fun second member => ?_
  have small : second < 256 := List.mem_range.mp member
  have same : first.toNat * 256 + second = PairTable.index first (UInt8.ofNat second) := by
    rw [PairTable.index, UInt8.toNat_ofNat', Nat.mod_eq_of_lt small]
  rw [same, cellsOf_index]
  rfl

omit [Occupied n] in
private theorem range_mul (rows width : Nat) :
    List.range (rows * width) =
      (List.range rows).flatMap fun row => List.range' (row * width) width := by
  induction rows with
  | zero => simp
  | succ rows ih =>
    have tail : 0 + rows * width = rows * width := Nat.zero_add _
    rw [List.range_succ, List.flatMap_append, ← ih, List.flatMap_singleton, Nat.succ_mul,
      List.range_eq_range', List.range_eq_range']
    conv => rhs; arg 2; arg 1; rw [← tail]
    rw [List.range'_append_1]

omit [Occupied n] in
/-- Read in the order of pairs, a table lists its rows one after the other. -/
theorem flatMap_cellsOf (table : PairTable (List (Fin n))) :
    (List.range pairCount).flatMap (cellsOf table) = (listed table).map Fin.val := by
  have rows : List.range pairCount = _ := range_mul 256 256
  rw [rows, List.flatMap_assoc, listed, List.map_flatMap, allBytes, List.flatMap_map]
  refine List.flatMap_congr fun first member => ?_
  have same : (UInt8.ofNat first).toNat = first := by
    rw [UInt8.toNat_ofNat', Nat.mod_eq_of_lt (List.mem_range.mp member)]
  rw [← stretch_row, same]
  rfl

theorem begins_pairCount (filed : Filed text table) :
    begins (bucketSize text) pairCount = n := by
  have lengths : begins (bucketSize text) pairCount =
      ((List.range pairCount).flatMap (cellsOf table)).length := by
    rw [List.length_flatMap, begins]
    congr 2
    funext pair
    exact (filed.length_cellsOf pair).symm
  rw [lengths, flatMap_cellsOf, List.length_map, filed.listed_perm.length_eq,
    List.length_finRange]

theorem begins_le (text : Text n) (pair : Nat) : begins (bucketSize text) pair ≤ n := by
  have whole := begins_pairCount (collect_filed text)
  rcases Nat.le_total pair pairCount with inside | outside
  · exact (begins_mono _ inside).trans whole.le
  · induction outside with
    | refl => exact whole.le
    | @step pair outside ih => rwa [begins_succ, bucketSize_of_le outside]

/-- Every window of the text's length meets every pair as often as it occurs. -/
theorem window_bucketSize (text : Text n) (start pair : Nat) :
    ((List.range' start n).filter (pairAt text · = pair)).length = bucketSize text pair := by
  have periodic : Function.Periodic (pairAt text · = pair) n := by
    intro position
    have first := Text.byteAt_congr text (Nat.add_mod_right position n)
    have second : text.byteAt (position + n + 1) = text.byteAt (position + 1) := by
      rw [Nat.add_right_comm]
      exact Text.byteAt_congr text (Nat.add_mod_right (position + 1) n)
    have same : pairAt text (position + n) = pairAt text position := by
      simp only [pairAt, first, second]
    simp only [same]
  have window (start : Nat) : ((List.range' start n).filter (pairAt text · = pair)).length =
      n.count (pairAt text · = pair) := by
    have card := Nat.filter_multiset_Ico_card_eq_of_periodic start n _ periodic
    change (Multiset.filter _ (Multiset.ofList (List.range' start (start + n - start)))).card = _
      at card
    rwa [Nat.add_sub_cancel_left, Multiset.filter_coe, Multiset.coe_card] at card
  rw [bucketSize, List.range_eq_range', window, window]

end BlockSort.Rotation

namespace BlockSort.SortSpace

open Rotation

variable {n : Nat} [Occupied n] {text : Text n} {slots : Array UInt8} {order starts : Array Nat}

theorem countPairs_spec (cyclic : Cyclic text slots) {counted : Nat → Nat} (count i : Nat)
    (fits : i + count ≤ n) (tabulates : Tabulates (pairCount + 1) counted starts) :
    ∃ after, countPairs slots count (i + 1) (text.byteAt (i + n - 1)) starts = some after ∧
      Tabulates (pairCount + 1) (fun pair => counted pair +
        ((List.range' (i + n - 1) count).filter (pairAt text · = pair)).length) after := by
  induction count generalizing i counted starts with
  | zero => exact ⟨starts, rfl, tabulates⟩
  | succ count ih =>
    have near : i < n + Block.margin := by
      rw [Block.margin]
      omega
    have next : text.byteAt i = text.byteAt (i + 1 + n - 1) := by
      rw [show i + 1 + n - 1 = i + n by omega]
      exact (Text.byteAt_congr text (Nat.add_mod_right i n)).symm
    have follows : i + n - 1 + 1 = i + 1 + n - 1 := by omega
    have pair : PairTable.index (text.byteAt (i + n - 1)) (text.byteAt i) =
        pairAt text (i + n - 1) := by
      rw [pairAt, follows, next]
    have inside := pairAt_lt text (i + n - 1)
    obtain ⟨updated, written, step⟩ := tabulates.update
      (Nat.lt_succ_of_lt inside) (· + 1)
    obtain ⟨after, counts, result⟩ := ih (i + 1) (by omega) step
    refine ⟨after, ?_, result.congr fun place _ => ?_⟩
    · rw [countPairs, cyclic.bytes i near]
      simp only [Option.bind_eq_bind, Option.bind_some, pair, written]
      rwa [next]
    · rw [List.range'_succ, follows, Function.update_apply, List.filter_cons]
      by_cases same : place = pairAt text (i + n - 1)
      · simp only [same, decide_true, if_true, List.length_cons]
        omega
      · simp [same, Ne.symm same]

theorem accumulate_spec {sizes : Nat → Nat} (count place : Nat) (positive : 0 < place)
    (fits : place + count = pairCount + 1)
    (tabulates : Tabulates (pairCount + 1)
      (fun pair => if pair < place then begins sizes (pair + 1) else sizes pair) starts) :
    ∃ after, accumulate count place starts = some after ∧
      Tabulates (pairCount + 1) (fun pair => begins sizes (pair + 1)) after := by
  induction count generalizing place starts with
  | zero =>
    refine ⟨starts, rfl, tabulates.congr fun pair inside => if_pos ?_⟩
    omega
  | succ count ih =>
    have before := tabulates.get (place - 1) (by omega)
    rw [if_pos (by omega), Nat.sub_add_cancel positive] at before
    obtain ⟨updated, written, step⟩ := tabulates.update (show place < pairCount + 1 by omega)
      (· + begins sizes place)
    have next : Tabulates (pairCount + 1) (fun pair =>
        if pair < place + 1 then begins sizes (pair + 1) else sizes pair) updated := by
      refine step.congr fun pair inside => ?_
      rw [Function.update_apply]
      by_cases same : pair = place
      · subst same
        rw [if_pos rfl, if_neg (Nat.lt_irrefl pair), if_pos (Nat.lt_succ_self pair), begins_succ,
          Nat.add_comm]
      · rw [if_neg same]
        by_cases less : pair < place
        · rw [if_pos less, if_pos (by omega)]
        · rw [if_neg less, if_neg (by omega)]
    obtain ⟨after, sums, result⟩ := ih (place + 1) (by omega) (by omega) next
    refine ⟨after, ?_, result⟩
    rw [accumulate, before]
    simpa only [Option.bind_eq_bind, Option.bind_some, written] using sums

/-- The positions that were filed under a pair when those below a given one are filed. -/
def filedUnder (text : Text n) (position pair : Nat) : List Nat :=
  (List.range position).filter (pairAt text · = pair)

theorem filedUnder_succ (text : Text n) (position pair : Nat) :
    filedUnder text (position + 1) pair =
      filedUnder text position pair ++ if pairAt text position = pair then [position] else [] := by
  simp [filedUnder, List.range_succ, List.filter_append, List.filter_cons]

theorem length_filedUnder_le (text : Text n) {position : Nat} (inside : position ≤ n) (pair : Nat) :
    (filedUnder text position pair).length ≤ bucketSize text pair :=
  ((List.range_sublist.mpr inside).filter _).length_le

/-- How far filing has come: each bucket is filled from its end, and its entry tells where the
positions in it begin. The rest of the bucket still holds what was there before. -/
structure Filing (text : Text n) (stale : Nat → List Nat) (rest : List Nat) (position : Nat)
    (order starts : Array Nat) : Prop where
  order : order = spread pairCount (fun pair =>
    (stale pair).take (bucketSize text pair - (filedUnder text position pair).length) ++
      (filedUnder text position pair).reverse) rest
  starts : Tabulates (pairCount + 1) (fun pair => begins (bucketSize text) pair +
    (bucketSize text pair - (filedUnder text position pair).length)) starts

/-- What a bucket holds when the positions below a given one are filed: some of what was there
before, and then the positions filed under it, the last one first. -/
def contents (text : Text n) (stale : Nat → List Nat) (position pair : Nat) : List Nat :=
  (stale pair).take (bucketSize text pair - (filedUnder text position pair).length) ++
    (filedUnder text position pair).reverse

section Contents

variable {stale : Nat → List Nat} (sized : ∀ pair, (stale pair).length = bucketSize text pair)
include sized

theorem length_contents {position : Nat} (inside : position ≤ n) (pair : Nat) :
    (contents text stale position pair).length = bucketSize text pair := by
  have bound := length_filedUnder_le text inside pair
  rw [contents, List.length_append, List.length_take, List.length_reverse, sized]
  omega

theorem contents_zero : contents text stale 0 = stale := by
  funext pair
  simp [contents, filedUnder, List.take_of_length_le (sized pair).le]

omit sized in
theorem contents_succ_of_ne {position pair : Nat} (different : pairAt text position ≠ pair) :
    contents text stale (position + 1) pair = contents text stale position pair := by
  rw [contents, contents, filedUnder_succ, if_neg different, List.append_nil]

/-- Filing a position puts it where the last stale entry of its bucket was. -/
theorem contents_succ {position : Nat} (inside : position < n) :
    ∃ front last,
      front.length = bucketSize text (pairAt text position) -
          (filedUnder text (position + 1) (pairAt text position)).length ∧
      bucketSize text (pairAt text position) -
          (filedUnder text position (pairAt text position)).length = front.length + 1 ∧
      contents text stale position (pairAt text position) =
        front ++ last :: (filedUnder text position (pairAt text position)).reverse ∧
      contents text stale (position + 1) (pairAt text position) =
        front ++ position :: (filedUnder text position (pairAt text position)).reverse := by
  have room := length_filedUnder_le text (Nat.succ_le_of_lt inside) (pairAt text position)
  have more := filedUnder_succ text position (pairAt text position)
  rw [if_pos rfl] at more
  generalize pairAt text position = pair at room more ⊢
  rw [more, List.length_append, List.length_singleton] at room
  have left : bucketSize text pair - (filedUnder text position pair).length =
      (bucketSize text pair - (filedUnder text (position + 1) pair).length) + 1 := by
    rw [more, List.length_append, List.length_singleton]
    omega
  generalize free : bucketSize text pair - (filedUnder text (position + 1) pair).length = count
    at left
  have few : count < (stale pair).length := by
    rw [sized]
    omega
  have length := List.length_take_of_le few.le
  refine ⟨(stale pair).take count, (stale pair)[count], length, by rw [length, left], ?_, ?_⟩
  · rw [contents, left, List.take_succ_eq_append_getElem few, List.append_assoc,
      List.singleton_append]
  · rw [contents, free, more]
    simp

end Contents

theorem file_spec {stale : Nat → List Nat} {rest : List Nat} {position : Nat}
    (sized : ∀ pair, (stale pair).length = bucketSize text pair)
    (filing : Filing text stale rest position order starts) (inside : position < n) :
    ∃ filed next, file (pairAt text position) position order starts = some (filed, next) ∧
      Filing text stale rest (position + 1) filed next := by
  obtain ⟨rfl, starts⟩ := filing
  have pairInside := pairAt_lt text position
  obtain ⟨front, last, free, left, now, later⟩ := contents_succ sized inside
  have put := put_spread rest (length_contents sized inside.le) pairInside position
    (contents text stale (position + 1)) now later
    fun another different => contents_succ_of_ne (Ne.symm different)
  have entry := starts.get _ (Nat.lt_succ_of_lt pairInside)
  obtain ⟨next, written, tabulates⟩ := starts.put (Nat.lt_succ_of_lt pairInside)
    (begins (bucketSize text) (pairAt text position) + front.length)
  refine ⟨_, next, ?_, rfl, tabulates.congr fun another near => ?_⟩
  · rw [left, ← Nat.add_assoc] at entry
    rw [file]
    refine Option.bind_eq_some_iff.mpr ⟨_, entry, ?_⟩
    refine Option.bind_eq_some_iff.mpr ⟨_, if_pos (Nat.le_add_left 1 _), ?_⟩
    refine Option.bind_eq_some_iff.mpr ⟨_, put, ?_⟩
    exact Option.bind_eq_some_iff.mpr ⟨_, written, rfl⟩
  · rw [Function.update_apply]
    by_cases equal : another = pairAt text position
    · rw [if_pos equal, equal, free]
    · rw [if_neg equal, filedUnder_succ, if_neg (Ne.symm equal), List.append_nil]

theorem fileAll_spec (cyclic : Cyclic text slots) {stale : Nat → List Nat} {rest : List Nat}
    (sized : ∀ pair, (stale pair).length = bucketSize text pair) (count position : Nat)
    (fits : position + count ≤ n) (filing : Filing text stale rest position order starts) :
    ∃ filed next,
      fileAll slots count position (text.byteAt position) order starts = some (filed, next) ∧
        Filing text stale rest (position + count) filed next := by
  induction count generalizing position order starts with
  | zero => exact ⟨order, starts, rfl, filing⟩
  | succ count ih =>
    have near : position + 1 < n + Block.margin := by
      rw [Block.margin]
      omega
    obtain ⟨filed, next, step, filing⟩ := file_spec sized filing (by omega)
    obtain ⟨result, last, run, filing⟩ := ih (position + 1) (by omega) filing
    refine ⟨result, last, ?_, ?_⟩
    · rw [fileAll, cyclic.bytes (position + 1) near]
      rw [pairAt] at step
      simp only [Option.bind_eq_bind, Option.bind_some, step]
      exact run
    · rwa [Nat.add_assoc, Nat.add_comm 1] at filing

theorem cellsOf_collect (text : Text n) (pair : Nat) :
    cellsOf (Rotation.collect text) pair = (filedUnder text n pair).reverse := by
  by_cases inside : pair < pairCount
  · obtain ⟨first, second, rfl⟩ := exists_index inside
    rw [cellsOf_index, Rotation.collect, get_foldl_push, PairTable.get_fill, List.append_nil,
      List.map_reverse, filedUnder,
      ← map_filter_finRange (pairAt text · = PairTable.index first second)]
    congr 3
    funext position
    rw [decide_eq_decide, pairAt_eq_iff]
    exact ⟨fun same => ⟨same.1, same.2⟩, fun leads => ⟨leads.first, leads.second⟩⟩
  · have absent : filedUnder text n pair = [] := by
      rw [← List.length_eq_zero_iff]
      exact bucketSize_of_le (Nat.not_lt.mp inside)
    rw [cellsOf, dif_neg inside, absent, List.reverse_nil]

/-- Nothing that was there before is left when all positions are filed. -/
theorem contents_all (text : Text n) (stale : Nat → List Nat) :
    contents text stale n = cellsOf (Rotation.collect text) := by
  funext pair
  have whole : (filedUnder text n pair).length = bucketSize text pair := rfl
  rw [cellsOf_collect, contents, whole, Nat.sub_self, List.take_zero, List.nil_append]

/-- Pairs are counted and added up: the entries of all buckets tell where these end. -/
theorem sums_spec (cyclic : Cyclic text slots) (long : starts.size = pairCount + 1) :
    ∃ counts sums,
      countPairs slots n 1 (text.byteAt (n - 1)) (Array.replicate starts.size 0) = some counts ∧
        accumulate (counts.size - 1) 1 counts = some sums ∧
        Tabulates (pairCount + 1) (fun pair => begins (bucketSize text) (pair + 1)) sums := by
  have cleared : Tabulates (pairCount + 1) (fun _ => 0) (Array.replicate starts.size 0) :=
    ⟨by simpa using long, fun place inside => by simp [long, inside]⟩
  obtain ⟨counts, counting, counted⟩ := countPairs_spec cyclic n 0 (by omega) cleared
  have sizes : Tabulates (pairCount + 1) (fun pair =>
      if pair < 1 then begins (bucketSize text) (pair + 1) else bucketSize text pair) counts := by
    refine counted.congr fun pair _ => ?_
    rw [window_bucketSize, Nat.zero_add]
    split
    · obtain rfl : pair = 0 := by omega
      simp [begins]
    · rfl
  obtain ⟨sums, adding, added⟩ := accumulate_spec pairCount 1 Nat.one_pos (Nat.add_comm 1 pairCount)
    sizes
  have extent : counts.size - 1 = pairCount := by rw [counted.extent, Nat.add_sub_cancel]
  simp only [Nat.zero_add] at counting
  exact ⟨counts, sums, counting, by rw [extent, adding], added⟩

theorem collect_spec (cyclic : Cyclic text slots) (wide : n ≤ order.size)
    (long : starts.size = pairCount + 1) :
    ∃ next, collect slots n order starts =
        some (spread pairCount (cellsOf (Rotation.collect text)) (order.toList.drop n), next) ∧
      Tabulates (pairCount + 1) (begins (bucketSize text)) next := by
  have positive : 0 < n := Occupied.positive
  have margin : n < n + Block.margin := by
    rw [Block.margin]
    omega
  obtain ⟨stale, sized, old⟩ := exists_cells (bucketSize text) pairCount order.toList
    fun pair => (begins_le text pair).trans (by simpa using wide)
  have whole := begins_pairCount (collect_filed text)
  rw [whole] at old
  obtain ⟨counts, sums, counting, adding, added⟩ := sums_spec cyclic long
  have filing : Filing text stale (order.toList.drop n) 0 order sums := by
    refine ⟨?_, added.congr fun pair _ => ?_⟩
    · change order = spread pairCount (contents text stale 0) _
      rw [contents_zero sized, old]
    · simp [filedUnder, begins_succ]
  obtain ⟨most, next, filling, filing⟩ := fileAll_spec cyclic sized (n - 1) 0 (by omega) filing
  rw [Nat.zero_add] at filing
  obtain ⟨filed, last, ending, filing⟩ := file_spec sized filing (by omega)
  rw [Nat.sub_add_cancel positive] at filing
  refine ⟨last, ?_, filing.starts.congr fun pair _ => ?_⟩
  · have first : text.byteAt 0 = text.byteAt (n - 1 + 1) := by
      rw [Nat.sub_add_cancel positive]
      exact (Text.byteAt_congr text (by simp [Nat.ModEq]))
    have byte : slots[n]? = some (text.byteAt (n - 1)) := by
      have found := cyclic.bytes (n - 1) (by omega)
      rwa [Nat.sub_add_cancel positive] at found
    have full : filed = spread pairCount (cellsOf (Rotation.collect text)) (order.toList.drop n) := by
      rw [filing.order, ← contents_all text stale]
      rfl
    rw [pairAt, ← first, full] at ending
    simp only [collect, Option.bind_eq_bind, cyclic.last, cyclic.bytes 0 (by omega), byte,
      Option.bind_some, counting, adding, filling, ending]
  · change _ + (bucketSize text pair - bucketSize text pair) = _
    rw [Nat.sub_self, Nat.add_zero]

end BlockSort.SortSpace
