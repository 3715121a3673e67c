import BlockSort.Proofs.Comparisons.Divided
import BlockSort.Proofs.Comparisons.Tasks

/-!
Sorting by division. Long ranges are divided and short ones are sorted by insertion until no range
is pending; as zones are in order with each other, a range is sorted once its parts are. This needs
no more of the ranks than that they do not contradict the order of rotations.
-/
namespace BlockSort

variable {n : Nat} [Occupied n] {text : Text n} {frame : Frame} {frames parts rest : List Frame}
variable {order before middle after : Array Nat} {bench : Bench}

namespace Frame

/-- The rotations of a range are in order. -/
def Sorted (frame : Frame) (text : Text n) (order : Array Nat) : Prop :=
  (frame.slice order).Pairwise fun one other => text.word one ≤ text.word other

/-- Each of some ranges keeps what it holds, and what is in none of them does not move. -/
structure Rearranged (frames : List Frame) (before after : Array Nat) : Prop where
  size : after.size = before.size
  same : ∀ place, (∀ frame ∈ frames, place < frame.lo ∨ frame.hi ≤ place) →
    after[place]? = before[place]?
  perm : ∀ frame ∈ frames, (frame.slice after).Perm (frame.slice before)

theorem Zoned.slice_eq {pivot : UInt8} {start stop : Nat}
    (zoned : frame.Zoned text pivot start stop middle) (order : Array Nat) :
    frame.slice order = slice ⟨frame.lo, start, frame.depth⟩ order ++
      slice ⟨start, stop, frame.depth + 1⟩ order ++ slice ⟨stop, frame.hi, frame.depth⟩ order := by
  rw [slice_append zoned.lo_le_start zoned.start_lt_stop.le _ _ frame.depth,
    slice_append (zoned.lo_le_start.trans zoned.start_lt_stop.le) zoned.stop_le_hi _ _ frame.depth]

theorem Divided.slice_perm (divided : frame.Divided text before parts middle)
    (each : ∀ part ∈ parts, (part.slice after).Perm (part.slice middle)) :
    (frame.slice after).Perm (frame.slice before) := by
  refine List.Perm.trans ?_ divided.perm
  obtain ⟨pivot, start, stop, -, zoned, ⟨-, -, rfl⟩ | ⟨-, -, rfl⟩⟩ := divided.zones
  · have whole := each _ (List.mem_singleton_self _)
    exact whole
  · simp only [List.mem_cons, List.not_mem_nil, or_false, forall_eq_or_imp, forall_eq] at each
    obtain ⟨above, equal, below⟩ := each
    rw [zoned.slice_eq, zoned.slice_eq]
    exact (below.append equal).append above

/-- Zones are in order with each other, so a divided range is sorted once its parts are. -/
theorem Divided.sorted (divided : frame.Divided text before parts middle)
    (fits : frame.Fits text before)
    (each : ∀ part ∈ parts, (part.slice after).Perm (part.slice middle))
    (sorted : ∀ part ∈ parts, part.Sorted text after) : frame.Sorted text after := by
  have agree {one other : Nat} (first : one ∈ frame.slice after)
      (second : other ∈ frame.slice after)
      (less : text.byteAt (one + frame.depth) < text.byteAt (other + frame.depth)) :
      text.word one ≤ text.word other := by
    have kept := divided.slice_perm each
    exact le_of_lt ((fits.slice.2 one (kept.mem_iff.mp first) other
      (kept.mem_iff.mp second)).word_lt less)
  obtain ⟨pivot, start, stop, -, zoned, ⟨-, -, rfl⟩ | ⟨-, -, rfl⟩⟩ := divided.zones
  · have whole := sorted _ (List.mem_singleton_self _)
    exact whole
  · simp only [List.mem_cons, List.not_mem_nil, or_false, forall_eq_or_imp, forall_eq]
      at each sorted
    obtain ⟨aboveKept, equalKept, belowKept⟩ := each
    obtain ⟨above, equal, below⟩ := sorted
    rw [zoned.slice_eq] at agree
    rw [Sorted, zoned.slice_eq, List.pairwise_append, List.pairwise_append]
    refine ⟨⟨below, equal, fun one first other second => ?_⟩, above,
      fun one first other second => ?_⟩
    · refine agree (List.mem_append_left _ (List.mem_append_left _ first))
        (List.mem_append_left _ (List.mem_append_right _ second)) ?_
      rw [zoned.equal other (equalKept.mem_iff.mp second)]
      exact zoned.below one (belowKept.mem_iff.mp first)
    · refine agree (List.mem_append_left _ first) (List.mem_append_right _ second) ?_
      have greater := zoned.above other (aboveKept.mem_iff.mp second)
      rcases List.mem_append.mp first with first | first
      · exact UInt8.lt_trans (zoned.below one (belowKept.mem_iff.mp first)) greater
      · rwa [zoned.equal one (equalKept.mem_iff.mp first)]

namespace Rearranged

omit [Occupied n]

theorem refl (frames : List Frame) (order : Array Nat) : Rearranged frames order order :=
  ⟨rfl, fun _ _ => rfl, fun _ _ => .refl _⟩

theorem slice (kept : Rearranged frames before after)
    (apart : ∀ other ∈ frames, frame.Apart other) : frame.slice after = frame.slice before := by
  apply List.ext_getElem?
  intro i
  rw [getElem?_slice, getElem?_slice]
  split
  · apply kept.same
    intro other member
    rcases apart other member with left | right <;> omega
  · rfl

theorem cons (outside : frame.Outside before middle)
    (perm : (frame.slice middle).Perm (frame.slice before))
    (apart : ∀ other ∈ rest, frame.Apart other) (kept : Rearranged rest middle after) :
    Rearranged (frame :: rest) before after := by
  refine ⟨kept.size.trans outside.size, fun place beside => ?_, fun other member => ?_⟩
  · obtain ⟨first, others⟩ := List.forall_mem_cons.mp beside
    rw [kept.same place others, outside.same place first]
  · rcases List.mem_cons.mp member with rfl | member
    · rwa [kept.slice apart]
    · rw [← outside.slice (apart other member)]
      exact kept.perm other member

end Rearranged

/-- A range is divided, and then its parts and others are rearranged. -/
theorem Divided.rearranged (divided : frame.Divided text before parts middle)
    (apart : ∀ other ∈ rest, frame.Apart other) (kept : Rearranged (parts ++ rest) middle after) :
    Rearranged (frame :: rest) before after := by
  refine ⟨kept.size.trans divided.outside.size, fun place beside => ?_, fun other member => ?_⟩
  · obtain ⟨first, others⟩ := List.forall_mem_cons.mp beside
    rw [kept.same place, divided.outside.same place first]
    intro part member
    rcases List.mem_append.mp member with inner | member
    · obtain ⟨lower, higher⟩ := divided.within part inner
      exact first.imp lower.trans_lt' higher.trans
    · exact others part member
  · rcases List.mem_cons.mp member with rfl | member
    · exact divided.slice_perm fun part inner => kept.perm part (List.mem_append_left rest inner)
    · rw [← divided.outside.slice (apart other member)]
      exact kept.perm other (List.mem_append_right parts member)

end Frame

namespace Bench

/-- Pending ranges are sorted in place, unless the budget is overspent. -/
theorem drain_spec (prepared : bench.Prepared text) (pending : Pending text frames order)
    (work : Nat) :
    ∃ left after done, bench.drain frames order work = some (left, after, done) ∧
      Frame.Rearranged frames order after ∧
      (bench.overspent done = false → left = [] ∧ ∀ frame ∈ frames, frame.Sorted text after) := by
  fun_induction Bench.drain bench frames order work with
  | case1 order work => exact ⟨[], order, work, rfl, .refl [] order, fun _ => by simp⟩
  | case2 order work frame rest long missing =>
    obtain ⟨parts, after, run, -⟩ := divide_spec prepared.slots
      (pending.fits frame List.mem_cons_self) long
    rw [run] at missing
    cases missing
  | case3 order work frame rest long parts middle run ih =>
    have fits := pending.fits frame List.mem_cons_self
    have apart := (List.pairwise_cons.mp pending.apart).1
    obtain ⟨_, _, same, divided⟩ := divide_spec prepared.slots fits long
    rw [run, Option.some.injEq, Prod.mk.injEq] at same
    obtain ⟨rfl, rfl⟩ := same
    obtain ⟨left, after, done, drained, kept, sorted⟩ := ih (pending.divided divided)
    refine ⟨left, after, done, drained, divided.rearranged apart kept, fun within => ?_⟩
    obtain ⟨emptied, each⟩ := sorted within
    refine ⟨emptied, List.forall_mem_cons.mpr ⟨?_, fun other member =>
      each other (List.mem_append_right parts member)⟩⟩
    exact divided.sorted fits (fun part inner => kept.perm part (List.mem_append_left rest inner))
      fun part inner => each part (List.mem_append_left rest inner)
  | case4 order work frame rest short ih =>
    have apart := (List.pairwise_cons.mp pending.apart).1
    obtain ⟨middle, spent, run, outside, perm, ordered, -⟩ :=
      insertionSort_range prepared (pending.fits frame List.mem_cons_self) work
    simp only [run, Option.bind_eq_bind, Option.bind_some]
    cases spending : bench.overspent spent with
    | true =>
      exact ⟨rest, middle, spent, rfl, .cons outside perm apart (.refl rest middle),
        fun going => by simp [spending] at going⟩
    | false =>
      obtain ⟨left, after, done, drained, kept, sorted⟩ := ih middle spent (pending.rest outside)
      refine ⟨left, after, done, drained, .cons outside perm apart kept, fun within => ?_⟩
      obtain ⟨emptied, each⟩ := sorted within
      refine ⟨emptied, List.forall_mem_cons.mpr ⟨?_, each⟩⟩
      rw [Frame.Sorted, kept.slice apart]
      exact ordered spending

end Bench

namespace Task

/-- A sort of ranges on a bench has come this far, or has called another function. -/
def Dividing (bench : Bench) (text : Text n) : Task → Prop
  | .ranges other pending order _ => other = bench ∧ Pending text pending order
  | .insertion .. | .gaps .. | .pass .. | .sink .. | .comparison .. => True
  | .sort .. | .rotations .. | .visits .. | .row .. => False

variable {caller callee : Task}

theorem Calls.dividing (prepared : bench.Prepared text) (call : Calls caller callee)
    (dividing : caller.Dividing bench text) : callee.Dividing bench text := by
  cases call with
  | first | again | visits | row | onward | bucket | skip | settle | mark => exact dividing.elim
  | divide long run =>
    obtain ⟨rfl, pending⟩ := dividing
    obtain ⟨_, _, same, divided⟩ := Bench.divide_spec prepared.slots
      (pending.fits _ List.mem_cons_self) long
    rw [run, Option.some.injEq, Prod.mk.injEq] at same
    obtain ⟨rfl, rfl⟩ := same
    exact ⟨rfl, pending.divided divided⟩
  | others short sorted going =>
    obtain ⟨rfl, pending⟩ := dividing
    obtain ⟨_, _, run, outside, -⟩ :=
      Bench.insertionSort_range prepared (pending.fits _ List.mem_cons_self) _
    rw [run, Option.some.injEq, Prod.mk.injEq] at sorted
    obtain ⟨rfl, rfl⟩ := sorted
    exact ⟨rfl, pending.rest outside⟩
  | insertion | gaps | pass | narrow | sink | advance | comparison | move => trivial

theorem Leads.dividing (prepared : bench.Prepared text) (leads : caller.Leads callee)
    (dividing : caller.Dividing bench text) : callee.Dividing bench text := by
  induction leads with
  | refl => exact dividing
  | tail _ call ih => exact call.dividing prepared ih

end Task

namespace Bench

/-- A range whose rotations agree up to its depth is sorted in place by divisions and insertions.
All ranges that are pending on the way may be sorted as well. A long one is divided into the
rotations below, at and above a pivot, or has all of them at the pivot and is pending one byte
deeper, and less is left to do then. Unless the budget is overspent, nothing stays pending and the
rotations are in order. -/
theorem drain_sorts (prepared : bench.Prepared text) (fits : frame.Fits text order) (work : Nat) :
    (∀ other pending current spent,
      (Task.ranges bench [frame] order work).Leads (.ranges other pending current spent) →
        other = bench ∧ Pending text pending current ∧
        ∀ head rest, pending = head :: rest →
          Bucket.smallRange < head.hi - head.lo ∧ head.depth ≤ Bucket.deepest →
          ∃ parts after, bench.divide head current = some (parts, after) ∧
            head.Divided text current parts after ∧
            Frame.weights (parts ++ rest) < Frame.weights pending) ∧
    ∃ left after done, bench.drain [frame] order work = some (left, after, done) ∧
      frame.Outside order after ∧ (frame.slice after).Perm (frame.slice order) ∧
      (bench.overspent done = false → left = [] ∧ (frame.slice after).Pairwise fun one other =>
        text.toList.rotate one ≤ text.toList.rotate other) := by
  have first : Pending text [frame] order :=
    ⟨by simpa using fits, List.pairwise_singleton _ frame⟩
  constructor
  · intro other pending current spent leads
    obtain ⟨same, later⟩ := leads.dividing prepared ⟨rfl, first⟩
    refine ⟨same, later, ?_⟩
    rintro head rest rfl long
    obtain ⟨parts, after, run, divided⟩ := divide_spec prepared.slots
      (later.fits head List.mem_cons_self) long
    refine ⟨parts, after, run, divided, ?_⟩
    have less := weights_divide (by omega) long.2 run
    rw [Frame.weights_append, Frame.weights]
    omega
  · obtain ⟨left, after, done, run, kept, sorted⟩ := drain_spec prepared first work
    refine ⟨left, after, done, run, ⟨kept.size, fun place beside => ?_⟩,
      kept.perm frame List.mem_cons_self, fun within => ?_⟩
    · exact kept.same place (by simpa using beside)
    · obtain ⟨emptied, each⟩ := sorted within
      exact ⟨emptied, (each frame List.mem_cons_self).imp Text.rotate_le_iff.mpr⟩

/-- Rotations that are equal on many bytes, while the ranks say nothing: the range is divided, and
sorted in the end. -/
theorem drain_sorts_alternating :
    let bytes : List UInt8 := (List.replicate 21 [97, 98]).flatten ++ [97, 99]
    let text : Text 44 := ⟨bytes.toArray, rfl⟩
    have : Occupied 44 := ⟨Nat.zero_lt_succ 43⟩
    let bench : Bench :=
      { slots := Array.ofFn fun place : Fin (44 + Block.margin + 1) =>
          text.byteAt (place + (44 - 1))
        ranks := Array.replicate (44 + Block.margin) 0, size := 44, budget := none }
    let order := ((List.range 21).map (2 * ·)).toArray
    let frame : Frame := ⟨0, 21, 2⟩
    bench.Prepared text ∧ frame.Fits text order ∧
    (∃ parts after, bench.divide frame order = some (parts, after) ∧
      frame.Divided text order parts after ∧ Pending text parts after) ∧
    ∃ after done, bench.drain [frame] order 0 = some ([], after, done) ∧
      (frame.slice after).Perm (frame.slice order) ∧ (frame.slice after).Pairwise fun one other =>
        text.toList.rotate one ≤ text.toList.rotate other := by
  intro bytes text occupied bench order frame
  have prepared : bench.Prepared text := .unranked text none
  have even : ∀ place < 21, ∀ distance < 2,
      text.byteAt (2 * place + distance) = text.byteAt distance := by decide
  have fits : frame.Fits text order := by
    refine ⟨by decide, by decide, by decide, 0, fun place _ below => ?_⟩
    have inside : place < 21 := below
    refine ⟨⟨2 * place, by omega⟩, by simp [order, inside], fun distance near => ?_⟩
    rw [Fin.val_zero, Nat.zero_add]
    exact even place inside distance near
  obtain ⟨steps, left, after, done, run, -, perm, sorted⟩ := drain_sorts prepared fits 0
  obtain ⟨-, -, divides⟩ := steps bench [frame] order 0 .refl
  obtain ⟨parts, halfway, division, divided, -⟩ := divides frame [] rfl (by decide)
  obtain ⟨rfl, ascending⟩ := sorted rfl
  obtain ⟨-, pending, -⟩ :=
    steps bench (parts ++ []) halfway 0 (.single (.divide (by decide) division))
  rw [List.append_nil] at pending
  exact ⟨prepared, fits, ⟨parts, halfway, division, divided, pending⟩, after, done, run, perm,
    ascending⟩

end Bench

end BlockSort
