import BlockSort.Proofs.Rotation.Bucket
import BlockSort.Proofs.Storage.Segment
import BlockSort.Storage.Bench
import BlockSort.Block

namespace BlockSort

open BlockSort.Partition

variable {n m : Nat} [Occupied n]

/-- Slots hold a text for cyclic reading: the first bytes again past the end, and the last byte
before the first. -/
structure Cyclic (text : Text n) (slots : Array UInt8) : Prop where
  last : slots[0]? = some (text.byteAt (n - 1))
  bytes : ∀ i < n + Block.margin, slots[i + 1]? = some (text.byteAt i)

omit [Occupied n] in
theorem Text.val_before (position : Fin n) :
    (Text.before position).val = if position.val = 0 then n - 1 else position.val - 1 := by
  obtain ⟨value, bound⟩ := position
  cases value <;> rfl

theorem Cyclic.before {text : Text n} {slots : Array UInt8} (cyclic : Cyclic text slots)
    (position : Fin n) : slots[position.val]? = some (text.get (Text.before position)) := by
  rw [← Text.byteAt_fin, Text.val_before]
  split
  · rename_i first
    rw [first]
    exact cyclic.last
  · rename_i later
    have found := cyclic.bytes (position.val - 1) (by omega)
    rwa [Nat.sub_add_cancel (Nat.pos_of_ne_zero later)] at found

omit [Occupied n] in
/-- Cells hold ranks, those of the first positions again past the end. -/
def Kept (ranks : Vector Nat n) (cells : Array Nat) : Prop :=
  ∀ i < n + Block.margin, cells[i]? = some (Comparer.rankAt ranks i)

namespace Bench

/-- A bench on which comparisons can be made. -/
structure Models (bench : Bench) (comparer : Comparer n) : Prop where
  size : bench.size = n
  slots : Cyclic comparer.text bench.slots
  ranks : Kept comparer.ranks bench.ranks
  budget : bench.budget = comparer.budget

variable {bench : Bench} {comparer : Comparer n}

theorem Models.overspent (models : bench.Models comparer) (work : Nat) :
    bench.overspent work = comparer.overspent work := by
  cases budget : comparer.budget with
  | none => simp only [Bench.overspent, Comparer.overspent, models.budget, budget]
  | some limit => simp only [Bench.overspent, Comparer.overspent, models.budget, budget]

theorem compareBytes_eq {text : Text n} {slots : Array UInt8} (cyclic : Cyclic text slots)
    {count i j : Nat} (iNear : i + count ≤ n + Block.margin)
    (jNear : j + count ≤ n + Block.margin) :
    compareBytes slots count i j = some (Comparer.compareBytes text count i j) := by
  induction count generalizing i j with
  | zero => rfl
  | succ count ih =>
    rw [compareBytes, Comparer.compareBytes, cyclic.bytes i (by omega), cyclic.bytes j (by omega)]
    simp only [Option.bind_eq_bind, Option.bind_some]
    cases compare (text.byteAt i) (text.byteAt j) with
    | eq => exact ih (by omega) (by omega)
    | lt => rfl
    | gt => rfl

theorem compareRanked_eq {text : Text n} {slots : Array UInt8} (cyclic : Cyclic text slots)
    {ranks : Vector Nat n} {cells : Array Nat} (kept : Kept ranks cells) {count i j : Nat}
    (iNear : i + count ≤ n + Block.margin) (jNear : j + count ≤ n + Block.margin) :
    compareRanked slots cells count i j = some (Comparer.compareRanked text ranks count i j) := by
  induction count generalizing i j with
  | zero => rfl
  | succ count ih =>
    rw [compareRanked, Comparer.compareRanked, cyclic.bytes i (by omega),
      cyclic.bytes j (by omega)]
    simp only [Option.bind_eq_bind, Option.bind_some]
    cases compare (text.byteAt i) (text.byteAt j) with
    | lt => rfl
    | gt => rfl
    | eq =>
      simp only [kept i (by omega), kept j (by omega), Option.bind_some]
      cases compare (Comparer.rankAt ranks i) (Comparer.rankAt ranks j) with
      | eq => exact ih (by omega) (by omega)
      | lt => rfl
      | gt => rfl

/-- A round ends where the next one may start, unless the text is too short for two rounds. -/
theorem compareRounds_eq (models : bench.Models comparer) {rounds i j : Nat} (work : Nat)
    (few : rounds ≤ 1 ∨ 4 ≤ n) (iNear : i + 4 ≤ n + Block.margin)
    (jNear : j + 4 ≤ n + Block.margin) :
    bench.compareRounds rounds i j work =
      some (Comparer.compareRounds comparer.text comparer.ranks rounds i j work) := by
  induction rounds generalizing i j work with
  | zero => rfl
  | succ rounds ih =>
    rw [compareRounds, Comparer.compareRounds,
      compareRanked_eq models.slots models.ranks iNear jNear]
    simp only [Option.bind_eq_bind, Option.bind_some, models.size]
    cases Comparer.compareRanked comparer.text comparer.ranks 4 i j with
    | lt => rfl
    | gt => rfl
    | eq =>
      rcases Nat.eq_zero_or_pos rounds with rfl | more
      · rfl
      · have wide : 4 ≤ n := by omega
        refine ih _ (.inr wide) ?_ ?_
        all_goals
          simp only [Comparer.wrap, Block.margin] at *
          split <;> omega

/-- Comparisons stay near enough to the text as long as they do not start too deep. -/
theorem exceeds_eq (models : bench.Models comparer) {depth : Nat}
    (shallow : depth ≤ Bucket.deepest + 1) (p q : Fin n) (work : Nat) :
    bench.exceeds depth p q work = some (comparer.exceeds depth p q work) := by
  simp only [Bucket.deepest] at shallow
  have near : ∀ r : Fin n, r.val + depth + 6 + 4 ≤ n + Block.margin := by
    intro r
    simp only [Block.margin]
    omega
  have pNear := near p
  have qNear := near q
  rw [exceeds, Comparer.exceeds, Comparer.compareFrom,
    compareBytes_eq models.slots (by omega) (by omega), models.size]
  simp only [Option.bind_eq_bind, Option.bind_some]
  cases Comparer.compareBytes comparer.text 6 (p + depth) (q + depth) with
  | lt => rfl
  | gt => rfl
  | eq =>
    simp only
    rw [compareRounds_eq models work (by omega) pNear qNear, Option.bind_some]
    split <;> simp_all

/-- A bench answers what an algorithm asks that sorts by insertion. -/
structure Answers (bench : Bench) (depth : Nat) (exceeds : Fin n → Fin n → Nat → Bool × Nat)
    (stop : Nat → Bool) : Prop where
  exceeds : ∀ (p q : Fin n) work, bench.exceeds depth p q work = some (exceeds p q work)
  stops : ∀ work, bench.overspent work = stop work

theorem Models.answers (models : bench.Models comparer) {depth : Nat}
    (shallow : depth ≤ Bucket.deepest + 1) :
    bench.Answers depth (comparer.exceeds depth) comparer.overspent :=
  ⟨exceeds_eq models shallow, models.overspent⟩

variable {left right : List Nat}

section Insertion

variable {depth : Nat} {exceeds : Fin n → Fin n → Nat → Bool × Nat} {stop : Nat → Bool}

omit [Occupied n]

variable (left right) in
/-- The item that sinks is written only where it comes to rest, so until then its place may hold
anything. -/
theorem sink_embed (answers : bench.Answers depth exceeds stop) (gap first : Nat)
    (items : Vector (Fin n) m) (work place : Nat) (bound : place < m) (stale : Fin n) :
    bench.sink depth gap (left.length + first) items[place].val
        (embed left (items.set place stale) right) work (left.length + place) =
      let sunk := Shell.sink exceeds gap first items work place bound
      some (embed left sunk.1 right, sunk.2) := by
  fun_induction Shell.sink exceeds gap first items work place bound
    generalizing stale with
  | case1 items work place bound room next found ih =>
    have back : left.length + place - gap = left.length + (place - gap) := by omega
    rw [sink, dif_pos (by omega), back, getElem?_embed _ (by omega)]
    simp only [Vector.getElem_set_ne bound (by omega : place - gap < m) (by omega : place ≠ _),
      Option.bind_eq_bind, Option.bind_some, answers.exceeds, found]
    rw [put_embed _ bound, Vector.set_set]
    have same := ih items[place - gap]
    simp only [Vector.getElem_swap_left] at same
    rw [← same]
    simp only [Option.bind_some]
    congr 2
    ext i iBound
    simp only [Vector.getElem_set, Vector.getElem_swap]
    grind
  | case2 items work place bound room next found =>
    have back : left.length + place - gap = left.length + (place - gap) := by omega
    rw [sink, dif_pos (by omega), back, getElem?_embed _ (by omega)]
    simp only [Vector.getElem_set_ne bound (by omega : place - gap < m) (by omega : place ≠ _),
      Option.bind_eq_bind, Option.bind_some, answers.exceeds, found]
    rw [put_embed _ bound, Vector.set_set, Vector.set_getElem_self]
    rfl
  | case3 items work place bound narrow =>
    rw [sink, dif_neg (by omega), put_embed _ bound, Vector.set_set, Vector.set_getElem_self]
    rfl

variable (left right) in
theorem pass_embed (answers : bench.Answers depth exceeds stop) (gap first count place : Nat)
    (fits : place + count ≤ m) (items : Vector (Fin n) m) (work : Nat) :
    bench.pass depth gap (left.length + first) count (left.length + place)
        (embed left items right) work =
      let passed := Shell.pass exceeds stop gap first count place fits items work
      some (embed left passed.1 right, passed.2) := by
  induction count generalizing place items work with
  | zero => rfl
  | succ count ih =>
    have sunk := sink_embed left right answers gap first items work place (by omega)
      items[place]
    rw [Vector.set_getElem_self] at sunk
    rw [pass, Shell.pass, getElem?_embed _ (by omega)]
    simp only [Option.bind_eq_bind, Option.bind_some, sunk, answers.stops]
    split
    · rfl
    · exact ih (place + 1) (by omega) _ _

/-- A sort that is not stopped at once is stopped where the sort of the vector is. -/
theorem sortBy_embed (answers : bench.Answers depth exceeds stop) (first size : Nat)
    (fits : first + size ≤ m) (gaps : List Nat) (narrow : ∀ gap ∈ gaps, gap ≤ size)
    (items : Vector (Fin n) m) (work : Nat) (running : stop work = false) :
    bench.sortBy depth (left.length + first) size gaps (embed left items right) work =
      let sorted := Shell.sortBy exceeds stop first size fits gaps items work
      some (embed left sorted.1 right, sorted.2) := by
  induction gaps generalizing items work with
  | nil => rfl
  | cons gap gaps ih =>
    have passed := pass_embed left right answers gap first (size - gap)
      (first + gap) (by have := narrow gap (by simp); omega) items work
    rw [sortBy, Shell.sortBy, if_neg (by simp [running]), dif_pos (narrow gap (by simp)),
      Nat.add_assoc, passed]
    simp only [Option.bind_eq_bind, Option.bind_some, answers.stops]
    generalize Shell.pass exceeds stop gap first (size - gap) (first + gap) _ items work = result
    obtain ⟨items, work⟩ := result
    cases spent : stop work with
    | true =>
      cases gaps with
      | nil => rfl
      | cons next rest => simp [Shell.sortBy, spent]
    | false => exact ih (fun gap member => narrow gap (by simp [member])) items work spent

variable (left right) in
theorem insertionSort_embed (answers : bench.Answers depth exceeds stop) {lo hi : Nat}
    (lo_le_hi : lo ≤ hi) (fits : hi ≤ m) (items : Vector (Fin n) m) (work : Nat)
    (running : stop work = false) :
    bench.insertionSort ⟨left.length + lo, left.length + hi, depth⟩ (embed left items right) work =
      let sorted := Shell.sort exceeds stop lo (hi - lo)
        ((Nat.add_sub_cancel' lo_le_hi).trans_le fits) items work
      some (embed left sorted.1 right, sorted.2) := by
  have width : left.length + hi - (left.length + lo) = hi - lo := by omega
  rw [insertionSort, width]
  exact sortBy_embed answers lo (hi - lo) _ _
    (fun gap member => (Shell.lt_of_mem_gaps member).le) items work running

end Insertion

section Division

variable {text : Text n}

theorem key_embed (cyclic : Cyclic text bench.slots) {depth : Nat}
    (shallow : depth ≤ Bucket.deepest) (items : Vector (Fin n) m) {place : Nat}
    (inside : place < m) :
    bench.key depth (embed left items right) (left.length + place) =
      some (text.byteAt (items[place] + depth)) := by
  have near : items[place].val + depth < n + Block.margin := by
    simp only [Bucket.deepest, Block.margin] at *
    omega
  rw [key, getElem?_embed _ inside]
  exact cyclic.bytes _ near

theorem scan_embed (cyclic : Cyclic text bench.slots) {depth lo hi : Nat}
    (shallow : depth ≤ Bucket.deepest) (pivot : UInt8) (fits : hi ≤ m)
    (items : Vector (Fin n) m) (low next stop high : Nat) (lo_le_low : lo ≤ low)
    (low_le_next : low ≤ next) (next_le_high : next ≤ high) (stop_le_high : stop ≤ high)
    (high_le_hi : high ≤ hi) :
    bench.scan depth pivot (embed left items right) (left.length + low) (left.length + next)
        (left.length + stop) (left.length + high) =
      let partition := Partition.scan
        (fun position : Fin n => text.byteAt (position + depth)) pivot fits items low next
        stop high lo_le_low low_le_next next_le_high stop_le_high high_le_hi
      some ⟨embed left partition.items right, left.length + partition.low,
        left.length + partition.middle, left.length + partition.high⟩ := by
  fun_induction Partition.scan (fun position : Fin n => text.byteAt (position + depth))
    pivot fits items low next stop high lo_le_low low_le_next next_le_high stop_le_high
    high_le_hi with
  | case1 items low next stop high lo_le_low low_le_next next_le_high stop_le_high high_le_hi unseen
      first found ih =>
    rw [scan, dif_pos (by omega), key_embed cyclic shallow items (by omega)]
    simp only [Option.bind_eq_bind, Option.bind_some]
    rw [if_pos found, exchange_embed items (by omega) (by omega), Option.bind_some]
    exact ih
  | case2 items low next stop high lo_le_low low_le_next next_le_high stop_le_high high_le_hi unseen
      first different less ih =>
    rw [scan, dif_pos (by omega), key_embed cyclic shallow items (by omega)]
    simp only [Option.bind_eq_bind, Option.bind_some]
    rw [if_neg different, if_pos less]
    exact ih
  | case3 items low next stop high lo_le_low low_le_next next_le_high stop_le_high high_le_hi unseen
      first different notLess last found ih =>
    have back : left.length + stop - 1 = left.length + (stop - 1) := by omega
    have top : left.length + high - 1 = left.length + (high - 1) := by omega
    rw [scan, dif_pos (by omega), key_embed cyclic shallow items (by omega)]
    simp only [Option.bind_eq_bind, Option.bind_some]
    rw [if_neg different, if_neg notLess, back, top, key_embed cyclic shallow items (by omega),
      Option.bind_some, if_pos found, exchange_embed items (by omega) (by omega), Option.bind_some]
    exact ih
  | case4 items low next stop high lo_le_low low_le_next next_le_high stop_le_high high_le_hi unseen
      first different notLess last notFound greater ih =>
    have back : left.length + stop - 1 = left.length + (stop - 1) := by omega
    rw [scan, dif_pos (by omega), key_embed cyclic shallow items (by omega)]
    simp only [Option.bind_eq_bind, Option.bind_some]
    rw [if_neg different, if_neg notLess, back, key_embed cyclic shallow items (by omega),
      Option.bind_some, if_neg notFound, if_pos greater]
    exact ih
  | case5 items low next stop high lo_le_low low_le_next next_le_high stop_le_high high_le_hi unseen
      first different notLess last notFound notGreater ih =>
    have back : left.length + stop - 1 = left.length + (stop - 1) := by omega
    rw [scan, dif_pos (by omega), key_embed cyclic shallow items (by omega)]
    simp only [Option.bind_eq_bind, Option.bind_some]
    rw [if_neg different, if_neg notLess, back, key_embed cyclic shallow items (by omega),
      Option.bind_some, if_neg notFound, if_neg notGreater,
      exchange_embed items (by omega) (by omega), Option.bind_some]
    exact ih
  | case6 items low next stop high lo_le_low low_le_next next_le_high stop_le_high high_le_hi
      done =>
    rw [scan, dif_neg (by omega)]

end Division

omit [Occupied n] in
theorem swapBlocks_embed (count p q : Nat) (pFits : p + count ≤ m) (qFits : q + count ≤ m)
    (items : Vector (Fin n) m) :
    swapBlocks count (left.length + p) (left.length + q) (embed left items right) =
      some (embed left (Partition.swapBlocks count p q pFits qFits items) right) := by
  induction count generalizing p q items with
  | zero => rfl
  | succ count ih =>
    rw [swapBlocks, Partition.swapBlocks, exchange_embed items (by omega) (by omega)]
    exact ih (p + 1) (q + 1) (by omega) (by omega) _

/-- Some ranges are sorted before the other pending ones. If the budget is overspent by then, the
others stay pending for ever. -/
def Settles (bench : Bench) (frames rest : List Frame) (order : Array Nat) (work : Nat)
    (after : Array Nat) (done : Nat) : Prop :=
  if bench.overspent done then
    ∃ pending, bench.drain (frames ++ rest) order work = some (pending, after, done)
  else bench.drain (frames ++ rest) order work = bench.drain rest after done

namespace Settles

variable {frames others rest : List Frame} {order middle after : Array Nat} {work half done : Nat}

omit [Occupied n] in
variable (others) in
theorem of_drain (settles : Settles bench others rest order work after done)
    (same : bench.drain (frames ++ rest) middle half = bench.drain (others ++ rest) order work) :
    Settles bench frames rest middle half after done := by
  rw [Settles] at settles ⊢
  rwa [same]

omit [Occupied n] in
variable (others) in
/-- Ranges are sorted in turn, up to the one that overspends the budget. -/
theorem append (first : Settles bench frames (others ++ rest) order work middle half)
    (second : bench.overspent half = false → Settles bench others rest middle half after done)
    (given : bench.overspent half = true → after = middle ∧ done = half) :
    Settles bench (frames ++ others) rest order work after done := by
  cases spent : bench.overspent half with
  | true =>
    obtain ⟨rfl, rfl⟩ := given spent
    rw [Settles, if_pos spent] at first ⊢
    rwa [List.append_assoc]
  | false =>
    rw [Settles, if_neg (by simp [spent])] at first
    exact (second spent).of_drain others (by rwa [List.append_assoc])

end Settles

omit [Occupied n] in
variable (left right) in
/-- The pivot's items are gathered in place by two exchanges of blocks. -/
theorem gather_embed {lo hi : Nat} (partition : Partition (Fin n) m lo hi) (fits : hi ≤ m) :
    let below := min (partition.low - lo) (partition.middle - partition.low)
    let above := min (hi - partition.high) (partition.high - partition.middle)
    ∃ half, swapBlocks below (left.length + lo) (left.length + partition.middle - below)
        (embed left partition.items right) = some half ∧
      swapBlocks above (left.length + partition.middle) (left.length + hi - above) half =
        some (embed left (partition.gather fits) right) := by
  intro below above
  have one := partition.lo_le_low
  have two := partition.low_le_middle
  have three := partition.middle_le_high
  have four := partition.high_le_hi
  have inner : left.length + partition.middle - below = left.length + (partition.middle - below) :=
    by omega
  have outer : left.length + hi - above = left.length + (hi - above) := by omega
  rw [inner, outer]
  exact ⟨_, swapBlocks_embed below lo _ (by omega) (by omega) partition.items,
    swapBlocks_embed above partition.middle _ (by omega) (by omega) _⟩

variable (left right) in
theorem divide_embed {text : Text n} (cyclic : Cyclic text bench.slots) {lo hi depth : Nat}
    (proper : lo < hi) (lo_le_hi : lo ≤ hi) (fits : hi ≤ m) (items : Vector (Fin n) m)
    (shallow : depth ≤ Bucket.deepest)
    {first last inner : Fin n} (firstAt : items[lo]? = some first)
    (lastAt : items[hi - 1]? = some last) (innerAt : items[(lo + (hi - 1)) / 2]? = some inner) :
    let key (position : Fin n) : UInt8 := text.byteAt (position + depth)
    let pivot := Bucket.median (key first) (key last) (key inner)
    let partition := Partition.ofRange key pivot items lo hi lo_le_hi fits
    bench.divide ⟨left.length + lo, left.length + hi, depth⟩ (embed left items right) =
      some (if partition.equalCount = hi - lo then
        ([⟨left.length + lo, left.length + hi, depth + 1⟩], embed left partition.items right)
      else
        ([⟨left.length + partition.equalStop, left.length + hi, depth⟩,
            ⟨left.length + partition.equalStart, left.length + partition.equalStop, depth + 1⟩,
            ⟨left.length + lo, left.length + partition.equalStart, depth⟩],
          embed left (partition.gather fits) right)) := by
  intro key pivot partition
  have keyAt {place : Nat} {item : Fin n} (here : items[place]? = some item) :
      bench.key depth (embed left items right) (left.length + place) = some (key item) := by
    obtain ⟨inside, rfl⟩ := Vector.getElem?_eq_some_iff.mp here
    exact key_embed cyclic shallow items inside
  have scanned : bench.scan depth pivot (embed left items right) (left.length + lo)
      (left.length + lo) (left.length + hi) (left.length + hi) =
        some ⟨embed left partition.items right, left.length + partition.low,
          left.length + partition.middle, left.length + partition.high⟩ :=
    scan_embed cyclic shallow pivot fits items lo lo hi hi (Nat.le_refl lo) (Nat.le_refl lo)
      lo_le_hi (Nat.le_refl hi) (Nat.le_refl hi)
  have top : left.length + hi - 1 = left.length + (hi - 1) := by omega
  have half : (left.length + lo + (left.length + (hi - 1))) / 2 =
      left.length + (lo + (hi - 1)) / 2 := by omega
  simp only [divide, Option.bind_eq_bind]
  rw [top, half, keyAt firstAt, keyAt lastAt, keyAt innerAt]
  simp only [Option.bind_some]
  rw [scanned]
  clear scanned
  clear_value partition
  have one := partition.lo_le_low
  have two := partition.low_le_middle
  have three := partition.middle_le_high
  have four := partition.high_le_hi
  have count : partition.equalCount = partition.low - lo + (hi - partition.high) := rfl
  simp only [Option.bind_some, Nat.add_sub_add_left]
  split
  · rw [if_pos (by omega)]
    rfl
  · obtain ⟨half, below, above⟩ := gather_embed left right partition fits
    have start : left.length + lo + (partition.middle - partition.low) =
        left.length + partition.equalStart := Nat.add_assoc _ _ _
    have stop : left.length + hi - (partition.high - partition.middle) =
        left.length + partition.equalStop := Nat.add_sub_assoc (by omega) _
    rw [if_neg (by omega), below, start, stop]
    simp only [Option.bind_some, above]
    rfl

omit [Occupied n] in
theorem drain_long {frame : Frame} {parts : List Frame} {order after : Array Nat}
    (long : Bucket.smallRange < frame.hi - frame.lo ∧ frame.depth ≤ Bucket.deepest)
    (divided : bench.divide frame order = some (parts, after)) (rest : List Frame) (work : Nat) :
    bench.drain (frame :: rest) order work = bench.drain (parts ++ rest) after work := by
  rw [drain, dif_pos long]
  split
  · rename_i missing
    rw [divided] at missing
    cases missing
  · rename_i found
    rw [divided, Option.some.injEq, Prod.mk.injEq] at found
    obtain ⟨rfl, rfl⟩ := found
    rfl

omit [Occupied n] in
theorem drain_short {frame : Frame} {rest : List Frame} {order after : Array Nat} {work done : Nat}
    (short : ¬(Bucket.smallRange < frame.hi - frame.lo ∧ frame.depth ≤ Bucket.deepest))
    (sorted : bench.insertionSort frame order work = some (after, done)) :
    bench.drain (frame :: rest) order work =
      if bench.overspent done then some (rest, after, done) else bench.drain rest after done := by
  rw [drain, dif_neg short, sorted]
  rfl

/-- One more range is sorted in place, unless the budget is overspent before. -/
theorem Settles.next (models : bench.Models comparer) {frames rest : List Frame} {frame : Frame}
    {order : Array Nat} {work half lo hi depth : Nat} {lo_le_hi : lo ≤ hi} {fits : hi ≤ m}
    {items : Vector (Fin n) m}
    (first : Settles bench frames (frame :: rest) order work (embed left items right) half)
    (second : let sorted := Bucket.sortRange comparer lo hi depth lo_le_hi fits items half
      comparer.overspent half = false → Settles bench [frame] rest (embed left items right) half
        (embed left sorted.1 right) sorted.2) :
    let sorted := Bucket.sortRange comparer lo hi depth lo_le_hi fits items half
    Settles bench (frames ++ [frame]) rest order work (embed left sorted.1 right) sorted.2 := by
  refine Settles.append [frame] first (fun going => ?_) (fun spent => ?_)
  · rw [models.overspent] at going
    exact second going
  · rw [models.overspent] at spent
    rw [Bucket.sortRange_overspent _ _ _ _ _ spent]
    exact ⟨rfl, rfl⟩

variable (left right) in
/-- A range is sorted in place as its part of the vector is. -/
theorem drain_embed (models : bench.Models comparer) {lo hi depth : Nat}
    (shallow : depth ≤ Bucket.deepest + 1) (lo_le_hi : lo ≤ hi) (fits : hi ≤ m)
    (items : Vector (Fin n) m) (work : Nat) (running : comparer.overspent work = false)
    (rest : List Frame) :
    let sorted := Bucket.sortRange comparer lo hi depth lo_le_hi fits items work
    Settles bench [⟨left.length + lo, left.length + hi, depth⟩] rest (embed left items right) work
      (embed left sorted.1 right) sorted.2 := by
  fun_induction Bucket.sortRange comparer lo hi depth lo_le_hi fits items work
    generalizing rest with
  | case1 lo hi depth lo_le_hi fits items work spent =>
    rw [spent] at running
    cases running
  | case2 lo hi depth lo_le_hi fits items work going small key pivot partition all ih =>
    have width : left.length + hi - (left.length + lo) = hi - lo := by omega
    refine (ih (by omega) running rest).of_drain _ ?_
    have divided := divide_embed left right models.slots (by omega) lo_le_hi fits items small.2
      (Vector.getElem?_eq_getElem (by omega)) (Vector.getElem?_eq_getElem (by omega))
      (Vector.getElem?_eq_getElem (by omega))
    exact drain_long (by simpa only [width] using small)
      (divided.trans (congrArg some (if_pos all))) rest work
  | case3 lo hi depth lo_le_hi fits items work going small key pivot partition several found
      ordered bounded upper half upperDone inner more innerDone upperIh innerIh lowerIh =>
    have width : left.length + hi - (left.length + lo) = hi - lo := by omega
    have divided := divide_embed left right models.slots (by omega) lo_le_hi fits items small.2
      (Vector.getElem?_eq_getElem (by omega)) (Vector.getElem?_eq_getElem (by omega))
      (Vector.getElem?_eq_getElem (by omega))
    have parts := drain_long (by simpa only [width] using small)
      (divided.trans (congrArg some (if_neg several))) rest work
    have first := fun rest => upperIh shallow running rest
    rw [upperDone] at first
    have second := fun rest (going : comparer.overspent half = false) =>
      innerIh (by omega) going rest
    have both := fun rest => (first (_ :: rest)).next models (second rest)
    rw [innerDone] at both
    refine Settles.of_drain [_, _, _] ?_ parts
    exact (both (_ :: rest)).next models fun going => lowerIh shallow going rest
  | case4 lo hi depth lo_le_hi fits items work going small key pivot partition several missing =>
    exact absurd (Bucket.equalCount_pos key (by omega) fits items) missing
  | case5 lo hi depth lo_le_hi fits items work going deep =>
    have sorted := insertionSort_embed left right (models.answers shallow) lo_le_hi fits items work
      running
    have width : left.length + hi - (left.length + lo) = hi - lo := by omega
    rw [Settles, List.singleton_append, drain_short (by simpa only [width] using deep) sorted]
    split
    · exact ⟨rest, rfl⟩
    · rfl

variable (left right) in
/-- Nothing but a range that is sorted on its own can be left pending by a sort of that range. -/
theorem drain_single (models : bench.Models comparer) {lo hi depth : Nat}
    (shallow : depth ≤ Bucket.deepest + 1) (lo_le_hi : lo ≤ hi) (fits : hi ≤ m)
    (items : Vector (Fin n) m) (work : Nat) (running : comparer.overspent work = false) :
    let sorted := Bucket.sortRange comparer lo hi depth lo_le_hi fits items work
    ∃ pending, bench.drain [⟨left.length + lo, left.length + hi, depth⟩] (embed left items right)
      work = some (pending, embed left sorted.1 right, sorted.2) := by
  have settles := drain_embed left right models shallow lo_le_hi fits items work running []
  simp only [Settles, List.append_nil] at settles
  split at settles
  · exact settles
  · exact ⟨[], by rw [settles, drain]⟩

end Bench

end BlockSort
