import BlockSort.Proofs.Safety.Access
import BlockSort.Storage.Bench

namespace BlockSort.Watched

section Comparisons

def compareBytes (slots : Array UInt8) (size : Nat) : (count i j : Nat) → Watched Ordering
  | 0, _, _ => return .eq
  | count + 1, i, j => do
    match compare (← byte slots size (i + 1)) (← byte slots size (j + 1)) with
    | .eq => compareBytes slots size count (i + 1) (j + 1)
    | decided => return decided

def compareRanked (slots : Array UInt8) (size : Nat) (ranks : Array Nat) :
    (count i j : Nat) → Watched Ordering
  | 0, _, _ => return .eq
  | count + 1, i, j => do
    match compare (← byte slots size (i + 1)) (← byte slots size (j + 1)) with
    | .eq =>
      match compare (← cell ranks i) (← cell ranks j) with
      | .eq => compareRanked slots size ranks count (i + 1) (j + 1)
      | decided => return decided
    | decided => return decided

def wrap (size i : Nat) : Watched Nat := do
  if size ≤ i then note (.difference i size)
  return Comparer.wrap size i

def compareRounds (bench : Bench) : (rounds i j work : Nat) → Watched (Ordering × Nat)
  | 0, _, _, work => return (.eq, work)
  | rounds + 1, i, j, work => do
    match ← compareRanked bench.slots bench.size bench.ranks 4 i j with
    | .eq =>
      compareRounds bench rounds (← wrap bench.size (i + 4)) (← wrap bench.size (j + 4)) (work + 1)
    | decided => return (decided, work)

def exceeds (bench : Bench) (depth p q work : Nat) : Watched (Bool × Nat) := do
  match ← compareBytes bench.slots bench.size 6 (p + depth) (q + depth) with
  | .eq =>
    match ← compareRounds bench ((bench.size + 2) / 4) (p + depth + 6) (q + depth + 6) work with
    | (.gt, work) => return (true, work)
    | (_, work) => return (false, work)
  | .gt => return (true, work)
  | .lt => return (false, work)

end Comparisons

section Insertion

def sink (bench : Bench) (depth gap first item : Nat) (order : Array Nat) (work place : Nat) :
    Watched (Array Nat × Nat) :=
  if room : 0 < gap ∧ first + gap ≤ place then do
    note (.difference place gap)
    let earlier ← cell order (place - gap)
    match ← exceeds bench depth earlier item work with
    | (true, work) =>
      sink bench depth gap first item (← put order place earlier) work (place - gap)
    | (false, work) => return (← put order place item, work)
  else do return (← put order place item, work)
termination_by place

def pass (bench : Bench) (depth gap first : Nat) :
    (count place : Nat) → Array Nat → Nat → Watched (Array Nat × Nat)
  | 0, _, order, work => return (order, work)
  | count + 1, place, order, work => do
    let item ← cell order place
    let (order, work) ← sink bench depth gap first item order work place
    if bench.overspent work then return (order, work)
    else pass bench depth gap first count (place + 1) order work

def sortBy (bench : Bench) (depth first size : Nat) :
    List Nat → Array Nat → Nat → Watched (Array Nat × Nat)
  | [], order, work => return (order, work)
  | gap :: gaps, order, work => do
    note (.difference size gap)
    let (order, work) ← pass bench depth gap first (size - gap) (first + gap) order work
    if bench.overspent work then return (order, work)
    else sortBy bench depth first size gaps order work

def insertionSort (bench : Bench) (frame : Frame) (order : Array Nat) (work : Nat) :
    Watched (Array Nat × Nat) := do
  note (.insertion frame.depth)
  note (.difference frame.hi frame.lo)
  sortBy bench frame.depth frame.lo (frame.hi - frame.lo) (Shell.gaps (frame.hi - frame.lo)) order
    work

end Insertion

section Division

def key (bench : Bench) (depth : Nat) (order : Array Nat) (place : Nat) : Watched UInt8 := do
  byte bench.slots bench.size ((← cell order place) + depth + 1)

def scan (bench : Bench) (depth : Nat) (pivot : UInt8) (order : Array Nat)
    (low next stop high : Nat) : Watched Bench.Zones :=
  if unseen : next < stop then do
    let first ← key bench depth order next
    if first = pivot then
      scan bench depth pivot (← exchange order next low) (low + 1) (next + 1) stop high
    else if first < pivot then scan bench depth pivot order low (next + 1) stop high
    else
      note (.difference stop 1)
      let last ← key bench depth order (stop - 1)
      if last = pivot then
        note (.difference high 1)
        scan bench depth pivot (← exchange order (stop - 1) (high - 1)) low next (stop - 1)
          (high - 1)
      else if pivot < last then scan bench depth pivot order low next (stop - 1) high
      else
        scan bench depth pivot (← exchange order next (stop - 1)) low (next + 1) (stop - 1) high
  else return ⟨order, low, next, high⟩
termination_by stop - next

def swapBlocks : (count p q : Nat) → Array Nat → Watched (Array Nat)
  | 0, _, _, order => return order
  | count + 1, p, q, order => do swapBlocks count (p + 1) (q + 1) (← exchange order p q)

/-- Gathers the items at the pivot in the middle, and tells the parts that are left to be sorted. -/
def gather (frame : Frame) (zones : Bench.Zones) : Watched (List Frame × Array Nat) := do
  let ⟨lo, hi, depth⟩ := frame
  let ⟨order, low, middle, high⟩ := zones
  note (.difference low lo)
  note (.difference middle low)
  note (.difference hi high)
  note (.difference high middle)
  let below := min (low - lo) (middle - low)
  let above := min (hi - high) (high - middle)
  note (.difference middle below)
  let order ← swapBlocks below lo (middle - below) order
  note (.difference hi above)
  let order ← swapBlocks above middle (hi - above) order
  let start := lo + (middle - low)
  note (.difference hi (high - middle))
  let stop := hi - (high - middle)
  return ([⟨stop, hi, depth⟩, ⟨start, stop, depth + 1⟩, ⟨lo, start, depth⟩], order)

def divide (bench : Bench) (frame : Frame) (order : Array Nat) :
    Watched (List Frame × Array Nat) := do
  let ⟨lo, hi, depth⟩ := frame
  note (.difference hi 1)
  let pivot := Bucket.median (← key bench depth order lo) (← key bench depth order (hi - 1))
    (← key bench depth order ((lo + (hi - 1)) / 2))
  let zones ← scan bench depth pivot order lo lo hi hi
  if zones.high ≤ zones.low then return ([⟨lo, hi, depth + 1⟩], zones.order)
  else gather frame zones

end Division

section Value

theorem value_compareBytes (slots : Array UInt8) (size count i j : Nat) :
    (compareBytes slots size count i j).value = Bench.compareBytes slots count i j := by
  induction count generalizing i j with
  | zero => rfl
  | succ count ih =>
    rw [compareBytes, Bench.compareBytes]
    simp only [value_bind, value_byte]
    refine Option.bind_congr fun a _ => Option.bind_congr fun b _ => ?_
    cases compare a b with
    | eq => exact ih (i + 1) (j + 1)
    | lt | gt => rfl

theorem value_compareRanked (slots : Array UInt8) (size : Nat) (ranks : Array Nat)
    (count i j : Nat) :
    (compareRanked slots size ranks count i j).value =
      Bench.compareRanked slots ranks count i j := by
  induction count generalizing i j with
  | zero => rfl
  | succ count ih =>
    rw [compareRanked, Bench.compareRanked]
    simp only [value_bind, value_byte]
    refine Option.bind_congr fun a _ => Option.bind_congr fun b _ => ?_
    cases compare a b with
    | lt | gt => rfl
    | eq =>
      simp only [value_bind, value_cell]
      refine Option.bind_congr fun c _ => Option.bind_congr fun d _ => ?_
      cases compare c d with
      | eq => exact ih (i + 1) (j + 1)
      | lt | gt => rfl

theorem value_wrap (size i : Nat) : (wrap size i).value = some (Comparer.wrap size i) := by
  rw [wrap]
  split <;> rfl

theorem value_compareRounds (bench : Bench) (rounds i j work : Nat) :
    (compareRounds bench rounds i j work).value = bench.compareRounds rounds i j work := by
  induction rounds generalizing i j work with
  | zero => rfl
  | succ rounds ih =>
    rw [compareRounds, Bench.compareRounds, value_bind, value_compareRanked]
    refine Option.bind_congr fun decided _ => ?_
    cases decided with
    | lt | gt => rfl
    | eq =>
      simp only [value_bind, value_wrap, Option.bind_some]
      exact ih _ _ _

theorem value_exceeds (bench : Bench) (depth p q work : Nat) :
    (exceeds bench depth p q work).value = bench.exceeds depth p q work := by
  rw [exceeds, Bench.exceeds, value_bind, value_compareBytes]
  refine Option.bind_congr fun decided _ => ?_
  cases decided with
  | lt | gt => rfl
  | eq =>
    simp only [value_bind, value_compareRounds]
    refine Option.bind_congr fun compared _ => ?_
    obtain ⟨decided, work⟩ := compared
    cases decided <;> rfl

theorem value_sink (bench : Bench) (depth gap first item : Nat) (order : Array Nat)
    (work place : Nat) :
    (sink bench depth gap first item order work place).value =
      bench.sink depth gap first item order work place := by
  fun_induction Bench.sink bench depth gap first item order work place with
  | case1 order work place room ih =>
    rw [sink, dif_pos room]
    simp only [value_bind, value_note, value_cell, value_exceeds, Option.bind_some]
    refine Option.bind_congr fun earlier _ => Option.bind_congr fun compared _ => ?_
    obtain ⟨more, work⟩ := compared
    cases more with
    | true =>
      simp only [value_bind, value_put]
      exact Option.bind_congr fun after _ => ih work after
    | false => simp only [value_bind, value_put, value_pure]; rfl
  | case2 order work place narrow =>
    rw [sink, dif_neg narrow, value_bind]
    rfl

theorem value_pass (bench : Bench) (depth gap first count place : Nat) (order : Array Nat)
    (work : Nat) :
    (pass bench depth gap first count place order work).value =
      bench.pass depth gap first count place order work := by
  induction count generalizing place order work with
  | zero => rfl
  | succ count ih =>
    rw [pass, Bench.pass]
    simp only [value_bind, value_cell, value_sink]
    refine Option.bind_congr fun item _ => Option.bind_congr fun ⟨order, work⟩ _ => ?_
    dsimp only
    split
    · rfl
    · exact ih _ _ _

theorem value_sortBy (bench : Bench) (depth first size : Nat) (gaps : List Nat)
    (order : Array Nat) (work : Nat) :
    (sortBy bench depth first size gaps order work).value =
      bench.sortBy depth first size gaps order work := by
  induction gaps generalizing order work with
  | nil => rfl
  | cons gap gaps ih =>
    rw [sortBy, Bench.sortBy]
    simp only [value_bind, value_note, value_pass, Option.bind_some]
    refine Option.bind_congr fun ⟨order, work⟩ _ => ?_
    dsimp only
    split
    · rfl
    · exact ih _ _

theorem value_insertionSort (bench : Bench) (frame : Frame) (order : Array Nat) (work : Nat) :
    (insertionSort bench frame order work).value = bench.insertionSort frame order work :=
  value_sortBy bench frame.depth frame.lo _ _ order work

theorem value_key (bench : Bench) (depth : Nat) (order : Array Nat) (place : Nat) :
    (key bench depth order place).value = bench.key depth order place := by
  rw [key, value_bind]
  rfl

theorem value_scan (bench : Bench) (depth : Nat) (pivot : UInt8) (order : Array Nat)
    (low next stop high : Nat) :
    (scan bench depth pivot order low next stop high).value =
      bench.scan depth pivot order low next stop high := by
  fun_induction Bench.scan bench depth pivot order low next stop high with
  | case1 order low next stop high unseen atFirst belowFirst atLast aboveLast both =>
    rw [scan, dif_pos unseen, value_bind, value_key]
    refine Option.bind_congr fun first _ => ?_
    split
    · rw [value_bind]
      exact Option.bind_congr fun after _ => atFirst after
    split
    · exact belowFirst
    simp only [value_bind, value_note, value_key, Option.bind_some]
    refine Option.bind_congr fun last _ => ?_
    split
    · simp only [value_bind, value_note, Option.bind_some]
      exact Option.bind_congr fun after _ => atLast after
    split
    · exact aboveLast
    · rw [value_bind]
      exact Option.bind_congr fun after _ => both after
  | case2 order low next stop high seen =>
    rw [scan, dif_neg seen]
    rfl

theorem value_swapBlocks (count p q : Nat) (order : Array Nat) :
    (swapBlocks count p q order).value = Bench.swapBlocks count p q order := by
  induction count generalizing p q order with
  | zero => rfl
  | succ count ih =>
    rw [swapBlocks, Bench.swapBlocks, value_bind]
    exact Option.bind_congr fun after _ => ih _ _ after

theorem value_divide (bench : Bench) (frame : Frame) (order : Array Nat) :
    (divide bench frame order).value = bench.divide frame order := by
  obtain ⟨lo, hi, depth⟩ := frame
  rw [divide, Bench.divide]
  simp only [value_bind, value_note, value_key, value_scan, Option.bind_some]
  refine Option.bind_congr fun a _ => Option.bind_congr fun b _ => Option.bind_congr fun c _ =>
    Option.bind_congr fun scanned _ => ?_
  obtain ⟨order, low, middle, high⟩ := scanned
  dsimp only
  split
  · rfl
  · simp only [gather, value_bind, value_note, value_swapBlocks, value_pure, Option.bind_some]
    rfl

end Value

/-- Sorts pending ranges, as the other does. -/
def drain (bench : Bench) (pending : List Frame) (order : Array Nat) (work : Nat) :
    Watched (List Frame × Array Nat × Nat) :=
  match pending with
  | [] => return ([], order, work)
  | frame :: rest => do
    note (.difference frame.hi frame.lo)
    if long : Bucket.smallRange < frame.hi - frame.lo ∧ frame.depth ≤ Bucket.deepest then
      match divided : (divide bench frame order).value with
      | none => ⟨(divide bench frame order).accesses, none⟩
      | some (parts, after) =>
        (drain bench (parts ++ rest) after work).after (divide bench frame order).accesses
    else
      let (order, work) ← insertionSort bench frame order work
      if bench.overspent work then return (rest, order, work) else drain bench rest order work
termination_by Frame.weights pending
decreasing_by
  · have less := Bench.weights_divide (by omega) long.2 ((value_divide ..).symm.trans divided)
    simp only [Frame.weights_append, Frame.weights]
    omega
  · simp only [Frame.weights, Frame.weight]
    omega

theorem drain_divided {bench : Bench} {frame : Frame} {rest parts : List Frame}
    {order after : Array Nat} {work : Nat}
    (long : Bucket.smallRange < frame.hi - frame.lo ∧ frame.depth ≤ Bucket.deepest)
    (divided : (divide bench frame order).value = some (parts, after)) :
    drain bench (frame :: rest) order work = (do
      note (.difference frame.hi frame.lo)
      (drain bench (parts ++ rest) after work).after (divide bench frame order).accesses) := by
  rw [drain, dif_pos long]
  split
  · rename_i missing
    rw [divided] at missing
    cases missing
  · rename_i found
    rw [divided] at found
    cases found
    rfl

theorem value_drain (bench : Bench) (pending : List Frame) (order : Array Nat) (work : Nat) :
    (drain bench pending order work).value = bench.drain pending order work := by
  fun_induction Bench.drain bench pending order work with
  | case1 order work => rw [drain]; rfl
  | case2 order work frame rest long divided =>
    rw [← value_divide] at divided
    rw [drain, value_bind, value_note, Option.bind_some, dif_pos long]
    split
    · rfl
    · rename_i found
      rw [divided] at found
      cases found
  | case3 order work frame rest long parts after divided ih =>
    rw [← value_divide] at divided
    rw [drain_divided long divided]
    exact ih
  | case4 order work frame rest short ih =>
    rw [drain, value_bind, value_note, Option.bind_some, dif_neg short, value_bind,
      value_insertionSort]
    refine Option.bind_congr fun ⟨order, work⟩ _ => ?_
    dsimp only
    split
    · rfl
    · exact ih order work

section Safe

/-- A bench that has no more slots than those that may be read. -/
def cut (bench : Bench) : Bench := { bench with slots := readable bench.slots bench.size }

theorem overspent_cut (bench : Bench) (work : Nat) :
    (cut bench).overspent work = bench.overspent work := rfl

/-- A range that is not too deep, and does not end before it begins. -/
structure Sound (frame : Frame) : Prop where
  forward : frame.lo ≤ frame.hi
  shallow : frame.depth ≤ Bucket.deepest + 1

/-- The parts of a range that is not too deep for a division are not too deep to be sorted. -/
theorem sound_divide {bench : Bench} {frame : Frame} {order after : Array Nat}
    {parts : List Frame} (long : frame.lo < frame.hi) (shallow : frame.depth ≤ Bucket.deepest)
    (done : bench.divide frame order = some (parts, after)) : ∀ part ∈ parts, Sound part := by
  obtain ⟨lo, hi, depth⟩ := frame
  dsimp only at long shallow
  obtain ⟨a, -, done⟩ := Option.bind_eq_some_iff.mp done
  obtain ⟨b, -, done⟩ := Option.bind_eq_some_iff.mp done
  obtain ⟨c, -, done⟩ := Option.bind_eq_some_iff.mp done
  obtain ⟨⟨order, low, middle, high⟩, scanned, done⟩ := Option.bind_eq_some_iff.mp done
  obtain ⟨bounds, -⟩ := Bench.scan_zones (Nat.le_refl lo) (by omega) (Nat.le_refl hi) scanned
  dsimp only at done bounds
  split at done
  · cases done
    have deeper : Sound ⟨lo, hi, depth + 1⟩ := ⟨long.le, Nat.succ_le_succ shallow⟩
    simpa using deeper
  · obtain ⟨half, -, done⟩ := Option.bind_eq_some_iff.mp done
    obtain ⟨last, -, done⟩ := Option.bind_eq_some_iff.mp done
    cases done
    intro part member
    simp only [List.mem_cons, List.not_mem_nil, or_false] at member
    rcases member with rfl | rfl | rfl
    · exact ⟨Nat.sub_le _ _, Nat.le_succ_of_le shallow⟩
    · exact ⟨by dsimp only; omega, Nat.succ_le_succ shallow⟩
    · exact ⟨Nat.le_add_right _ _, Nat.le_succ_of_le shallow⟩

variable {bench : Bench} (mirrored : Mirrored bench.slots bench.size)

include mirrored

theorem compareBytes_safe {count i j : Nat} {result : Ordering}
    (done : Bench.compareBytes (cut bench).slots count i j = some result) :
    Performs (compareBytes bench.slots bench.size count i j) result := by
  induction count generalizing i j with
  | zero =>
    exact .given done
  | succ count ih =>
    obtain ⟨a, first, done⟩ := Option.bind_eq_some_iff.mp done
    obtain ⟨b, second, done⟩ := Option.bind_eq_some_iff.mp done
    refine (mirrored.byte first).bind ((mirrored.byte second).bind ?_)
    cases told : compare a b with
    | eq =>
      rw [told] at done
      exact ih done
    | lt | gt =>
      rw [told] at done
      exact .given done

theorem compareRanked_safe {count i j : Nat} {result : Ordering}
    (done : Bench.compareRanked (cut bench).slots bench.ranks count i j = some result) :
    Performs (compareRanked bench.slots bench.size bench.ranks count i j) result := by
  induction count generalizing i j with
  | zero =>
    exact .given done
  | succ count ih =>
    obtain ⟨a, first, done⟩ := Option.bind_eq_some_iff.mp done
    obtain ⟨b, second, done⟩ := Option.bind_eq_some_iff.mp done
    refine (mirrored.byte first).bind ((mirrored.byte second).bind ?_)
    cases told : compare a b with
    | lt | gt =>
      rw [told] at done
      exact .given done
    | eq =>
      rw [told] at done
      obtain ⟨c, third, done⟩ := Option.bind_eq_some_iff.mp done
      obtain ⟨d, fourth, done⟩ := Option.bind_eq_some_iff.mp done
      refine (Performs.cell third).bind ((Performs.cell fourth).bind ?_)
      cases told : compare c d with
      | eq =>
        rw [told] at done
        exact ih done
      | lt | gt =>
        rw [told] at done
        exact .given done

omit mirrored in
theorem wrap_safe (size i : Nat) : Performs (wrap size i) (Comparer.wrap size i) := by
  rw [wrap]
  split
  · rename_i past
    exact (Performs.note (.difference _ _) past).bind (.pure _)
  · exact .pure _

theorem compareRounds_safe {rounds i j work : Nat} {result : Ordering × Nat}
    (done : (cut bench).compareRounds rounds i j work = some result) :
    Performs (compareRounds bench rounds i j work) result := by
  induction rounds generalizing i j work with
  | zero =>
    exact .given done
  | succ rounds ih =>
    obtain ⟨decided, compared, done⟩ := Option.bind_eq_some_iff.mp done
    refine (compareRanked_safe mirrored compared).bind ?_
    cases decided with
    | eq => exact (wrap_safe _ _).bind ((wrap_safe _ _).bind (ih done))
    | lt | gt =>
      exact .given done

theorem exceeds_safe {depth p q work : Nat} {result : Bool × Nat}
    (done : (cut bench).exceeds depth p q work = some result) :
    Performs (exceeds bench depth p q work) result := by
  obtain ⟨decided, compared, done⟩ := Option.bind_eq_some_iff.mp done
  refine (compareBytes_safe mirrored compared).bind ?_
  cases decided with
  | lt | gt =>
    exact .given done
  | eq =>
    obtain ⟨⟨decided, work⟩, compared, done⟩ := Option.bind_eq_some_iff.mp done
    refine (compareRounds_safe mirrored compared).bind ?_
    cases decided with
    | lt | eq | gt =>
      exact .given done

theorem sink_safe {depth gap first item : Nat} {order : Array Nat} {work place : Nat}
    {result : Array Nat × Nat}
    (done : (cut bench).sink depth gap first item order work place = some result) :
    Performs (sink bench depth gap first item order work place) result := by
  fun_induction Bench.sink (cut bench) depth gap first item order work place with
  | case1 order work place room ih =>
    obtain ⟨earlier, read, done⟩ := Option.bind_eq_some_iff.mp done
    obtain ⟨⟨more, left⟩, compared, done⟩ := Option.bind_eq_some_iff.mp done
    rw [sink, dif_pos room]
    refine (Performs.note (.difference _ _) ?_).bind ((Performs.cell read).bind
      ((exceeds_safe mirrored compared).bind ?_))
    · exact Nat.le_trans (Nat.le_add_left gap first) room.2
    · cases more with
      | true =>
        obtain ⟨after, written, done⟩ := Option.bind_eq_some_iff.mp done
        exact (Performs.put written).bind (ih left after done)
      | false =>
        obtain ⟨after, written, done⟩ := Option.bind_eq_some_iff.mp done
        cases done
        exact (Performs.put written).bind (.pure _)
  | case2 order work place narrow =>
    obtain ⟨after, written, done⟩ := Option.bind_eq_some_iff.mp done
    cases done
    rw [sink, dif_neg narrow]
    exact (Performs.put written).bind (.pure _)

theorem pass_safe {depth gap first count place : Nat} {order : Array Nat} {work : Nat}
    {result : Array Nat × Nat}
    (done : (cut bench).pass depth gap first count place order work = some result) :
    Performs (pass bench depth gap first count place order work) result := by
  induction count generalizing place order work with
  | zero =>
    exact .given done
  | succ count ih =>
    obtain ⟨item, read, done⟩ := Option.bind_eq_some_iff.mp done
    obtain ⟨⟨after, left⟩, sunk, done⟩ := Option.bind_eq_some_iff.mp done
    refine (Performs.cell read).bind ((sink_safe mirrored sunk).bind ?_)
    dsimp only at done ⊢
    rw [overspent_cut] at done
    exact .ite done (fun _ done => .given done) fun _ done => ih done

theorem sortBy_safe {depth first size : Nat} {gaps : List Nat} (narrow : ∀ gap ∈ gaps, gap ≤ size)
    {order : Array Nat} {work : Nat} {result : Array Nat × Nat}
    (done : (cut bench).sortBy depth first size gaps order work = some result) :
    Performs (sortBy bench depth first size gaps order work) result := by
  induction gaps generalizing order work with
  | nil =>
    exact .given done
  | cons gap gaps ih =>
    obtain ⟨⟨after, left⟩, passed, done⟩ := Option.bind_eq_some_iff.mp done
    refine (Performs.note (.difference _ _) (narrow gap (by simp))).bind
      ((pass_safe mirrored passed).bind ?_)
    dsimp only at done ⊢
    rw [overspent_cut] at done
    refine .ite done (fun _ done => .given done) fun _ done => ih (fun other member => ?_) done
    exact narrow other (by simp [member])

theorem insertionSort_safe {frame : Frame} (sound : Sound frame) {order : Array Nat} {work : Nat}
    {result : Array Nat × Nat}
    (done : (cut bench).insertionSort frame order work = some result) :
    Performs (insertionSort bench frame order work) result := by
  refine (Performs.note (.insertion _) sound.shallow).bind
    ((Performs.note (.difference _ _) sound.forward).bind (sortBy_safe mirrored ?_ done))
  intro gap member
  rw [Shell.gaps, List.mem_reverse] at member
  have less := List.mem_takeWhile_imp member
  rw [decide_eq_true_eq] at less
  exact less.le

theorem key_safe {depth : Nat} {order : Array Nat} {place : Nat} {result : UInt8}
    (done : (cut bench).key depth order place = some result) :
    Performs (key bench depth order place) result := by
  obtain ⟨position, read, done⟩ := Option.bind_eq_some_iff.mp done
  exact (Performs.cell read).bind (mirrored.byte done)

theorem scan_safe {depth : Nat} {pivot : UInt8} {order : Array Nat} {low next stop high : Nat}
    (stop_le_high : stop ≤ high) {result : Bench.Zones}
    (done : (cut bench).scan depth pivot order low next stop high = some result) :
    Performs (scan bench depth pivot order low next stop high) result := by
  fun_induction Bench.scan (cut bench) depth pivot order low next stop high with
  | case1 order low next stop high unseen atFirst belowFirst atLast aboveLast both =>
    obtain ⟨first, firstKey, done⟩ := Option.bind_eq_some_iff.mp done
    rw [scan, dif_pos unseen]
    refine (key_safe mirrored firstKey).bind ?_
    refine .ite done (fun _ done => ?_) fun _ done =>
      .ite done (fun _ done => belowFirst stop_le_high done) fun _ done => ?_
    · obtain ⟨after, exchanged, done⟩ := Option.bind_eq_some_iff.mp done
      exact (Performs.exchange exchanged).bind (atFirst after stop_le_high done)
    have some_left : 1 ≤ stop := Nat.one_le_of_lt unseen
    obtain ⟨last, lastKey, done⟩ := Option.bind_eq_some_iff.mp done
    refine (Performs.note (.difference _ _) some_left).bind ((key_safe mirrored lastKey).bind ?_)
    refine .ite done (fun _ done => ?_) fun _ done =>
      .ite done (fun _ done => aboveLast (by omega) done) fun _ done => ?_
    · obtain ⟨after, exchanged, done⟩ := Option.bind_eq_some_iff.mp done
      exact (Performs.note (.difference _ _) (some_left.trans stop_le_high)).bind
        ((Performs.exchange exchanged).bind (atLast after (by omega) done))
    · obtain ⟨after, exchanged, done⟩ := Option.bind_eq_some_iff.mp done
      exact (Performs.exchange exchanged).bind (both after (by omega) done)
  | case2 order low next stop high seen =>
    cases done
    rw [scan, dif_neg seen]
    exact .pure _

omit mirrored in
theorem swapBlocks_safe {count p q : Nat} {order result : Array Nat}
    (done : Bench.swapBlocks count p q order = some result) :
    Performs (swapBlocks count p q order) result := by
  induction count generalizing p q order with
  | zero =>
    exact .given done
  | succ count ih =>
    obtain ⟨after, exchanged, done⟩ := Option.bind_eq_some_iff.mp done
    exact (Performs.exchange exchanged).bind (ih done)

theorem divide_safe {frame : Frame} (long : frame.lo < frame.hi) {order : Array Nat}
    {result : List Frame × Array Nat} (done : (cut bench).divide frame order = some result) :
    Performs (divide bench frame order) result := by
  obtain ⟨lo, hi, depth⟩ := frame
  dsimp only at long
  obtain ⟨a, aKey, done⟩ := Option.bind_eq_some_iff.mp done
  obtain ⟨b, bKey, done⟩ := Option.bind_eq_some_iff.mp done
  obtain ⟨c, cKey, done⟩ := Option.bind_eq_some_iff.mp done
  obtain ⟨⟨order, low, middle, high⟩, scanned, done⟩ := Option.bind_eq_some_iff.mp done
  obtain ⟨⟨lo_le_low, low_le_middle, middle_le_high, high_le_hi⟩, -⟩ :=
    Bench.scan_zones (Nat.le_refl lo) (by omega) (Nat.le_refl hi) scanned
  refine (Performs.note (.difference _ _) (Nat.one_le_of_lt long)).bind
    ((key_safe mirrored aKey).bind ((key_safe mirrored bKey).bind ((key_safe mirrored cKey).bind
      ((scan_safe mirrored (Nat.le_refl hi) scanned).bind ?_))))
  dsimp only at done low_le_middle middle_le_high high_le_hi lo_le_low ⊢
  refine .ite done (fun _ done => .given done) fun _ done => ?_
  obtain ⟨half, below, done⟩ := Option.bind_eq_some_iff.mp done
  obtain ⟨after, above, done⟩ := Option.bind_eq_some_iff.mp done
  refine (Performs.note (.difference _ _) lo_le_low).bind
    ((Performs.note (.difference _ _) low_le_middle).bind
      ((Performs.note (.difference _ _) high_le_hi).bind
        ((Performs.note (.difference _ _) middle_le_high).bind
          ((Performs.note (.difference _ _) ?_).bind ((swapBlocks_safe below).bind
            ((Performs.note (.difference _ _) ?_).bind ((swapBlocks_safe above).bind
              ((Performs.note (.difference _ _) ?_).bind (.given done)))))))))
  all_goals
    simp only [Access.Safe]
    omega

/-- Pending ranges are sorted safely, and so are the parts of those that are divided. -/
theorem drain_safe {pending : List Frame} (sound : ∀ frame ∈ pending, Sound frame)
    {order : Array Nat} {work : Nat} {result : List Frame × Array Nat × Nat}
    (done : (cut bench).drain pending order work = some result) :
    Performs (drain bench pending order work) result := by
  fun_induction Bench.drain (cut bench) pending order work with
  | case1 order work =>
    cases done
    rw [drain]
    exact .pure _
  | case2 => cases done
  | case3 order work frame rest long parts after divided ih =>
    have proper : frame.lo < frame.hi := by omega
    have division := divide_safe mirrored proper divided
    have parts := sound_divide proper long.2 divided
    rw [drain_divided long division.value]
    refine (Performs.note (.difference _ _) proper.le).bind (.after division.safe (ih ?_ done))
    intro part member
    exact (List.mem_append.mp member).elim (parts part) fun other =>
      sound part (by simp [other])
  | case4 order work frame rest short ih =>
    obtain ⟨⟨after, left⟩, sorted, done⟩ := Option.bind_eq_some_iff.mp done
    have first := sound frame (by simp)
    rw [drain, dif_neg short]
    refine (Performs.note (.difference _ _) first.forward).bind
      ((insertionSort_safe mirrored first sorted).bind ?_)
    dsimp only at done ⊢
    rw [overspent_cut] at done
    refine .ite done (fun _ done => .given done) fun _ done =>
      ih after left (fun other member => ?_) done
    exact sound other (by simp [member])

end Safe

end BlockSort.Watched
