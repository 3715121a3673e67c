import BlockSort.Proofs.Storage.Prepared

namespace BlockSort

variable {n : Nat} [Occupied n] {text : Text n} {depth lo hi : Nat} {base : Fin n}
variable {order : Array Nat}

/-- The rotations at some places of an order agree on their first bytes with a common one. -/
def Lined (text : Text n) (depth : Nat) (base : Fin n) (lo hi : Nat) (order : Array Nat) : Prop :=
  ∀ place, lo ≤ place → place < hi →
    ∃ position : Fin n, order[place]? = some position.val ∧ text.Agree depth position base

namespace Lined

theorem read {place item : Nat} (lined : Lined text depth base lo hi order) (above : lo ≤ place)
    (below : place < hi) (itemAt : order[place]? = some item) :
    ∃ position : Fin n, item = position.val ∧ text.Agree depth position base := by
  obtain ⟨position, positionAt, agree⟩ := lined place above below
  exact ⟨position, Option.some.inj (itemAt.symm.trans positionAt), agree⟩

theorem congr {after : Array Nat} (lined : Lined text depth base lo hi order)
    (same : ∀ place, lo ≤ place → place < hi → after[place]? = order[place]?) :
    Lined text depth base lo hi after := by
  intro place above below
  rw [same place above below]
  exact lined place above below

theorem put {place : Nat} {item : Fin n} {after : Array Nat}
    (lined : Lined text depth base lo hi order) (agree : text.Agree depth item base)
    (written : Cells.put order place item.val = some after) :
    Lined text depth base lo hi after := by
  intro other above below
  rw [Cells.put] at written
  split at written
  · rw [Option.some.injEq] at written
    rw [← written, Array.getElem?_set]
    split
    · exact ⟨item, rfl, agree⟩
    · exact lined other above below
  · cases written

variable {bench : Bench} {gap first count place work done : Nat} {after : Array Nat}

/-- A sinking item moves others within the range, and they all agree. -/
theorem sink {item : Fin n} (lined : Lined text depth base first hi order)
    (agree : text.Agree depth item base) (below : place < hi)
    (sunk : bench.sink depth gap first item.val order work place = some (after, done)) :
    Lined text depth base first hi after := by
  fun_induction Bench.sink bench depth gap first item.val order work place with
  | case1 order work place room ih =>
    obtain ⟨earlier, earlierAt, sunk⟩ := Option.bind_eq_some_iff.mp sunk
    obtain ⟨⟨more, spent⟩, -, sunk⟩ := Option.bind_eq_some_iff.mp sunk
    obtain ⟨moved, rfl, one⟩ := lined.read (by omega) (by omega) earlierAt
    cases more with
    | true =>
      obtain ⟨next, written, sunk⟩ := Option.bind_eq_some_iff.mp sunk
      exact ih spent next (lined.put one written) (by omega) sunk
    | false =>
      obtain ⟨next, written, sunk⟩ := Option.bind_eq_some_iff.mp sunk
      cases sunk
      exact lined.put agree written
  | case2 order work place narrow =>
    obtain ⟨next, written, sunk⟩ := Option.bind_eq_some_iff.mp sunk
    cases sunk
    exact lined.put agree written

theorem pass (lined : Lined text depth base first hi order) (above : first ≤ place)
    (fits : ∀ i < count, place + i < hi)
    (passed : bench.pass depth gap first count place order work = some (after, done)) :
    Lined text depth base first hi after := by
  induction count generalizing place order work with
  | zero =>
    cases passed
    exact lined
  | succ count ih =>
    have below := fits 0 (Nat.succ_pos count)
    rw [Nat.add_zero] at below
    obtain ⟨item, itemAt, passed⟩ := Option.bind_eq_some_iff.mp passed
    obtain ⟨⟨next, spent⟩, sunk, onward⟩ := Option.bind_eq_some_iff.mp passed
    obtain ⟨position, rfl, agree⟩ := lined.read above below itemAt
    have kept := lined.sink agree below sunk
    dsimp only at onward
    split at onward
    · cases onward
      exact kept
    · refine ih kept (Nat.le_succ_of_le above) (fun i near => ?_) onward
      exact (Nat.succ_add place i).trans_lt (fits (i + 1) (Nat.succ_lt_succ near))

theorem embed (lined : Lined text depth base lo hi order) (lo_le_hi : lo ≤ hi)
    (room : hi ≤ order.size) :
    ∃ (left : List Nat) (m : Nat) (items : Vector (Fin n) m) (right : List Nat),
      lo = left.length ∧ hi = left.length + m ∧ order = BlockSort.embed left items right ∧
        Bucket.Aligned text depth base 0 m items := by
  have each (i : Fin (hi - lo)) : ∃ position : Fin n,
      order[lo + i.val]? = some position.val ∧ text.Agree depth position base :=
    lined (lo + i.val) (Nat.le_add_right lo i) (by omega)
  choose item itemAt agree using each
  have length : (order.toList.take lo).length = lo := by
    rw [List.length_take, Array.length_toList, Nat.min_eq_left (lo_le_hi.trans room)]
  refine ⟨order.toList.take lo, hi - lo, Vector.ofFn item, order.toList.drop hi, length.symm, ?_,
    ?_, ?_⟩
  · rw [length, Nat.add_sub_cancel' lo_le_hi]
  · have middle :
        (Vector.ofFn item).toList.map Fin.val = (order.toList.drop lo).take (hi - lo) := by
      apply List.ext_getElem?
      intro i
      rw [List.getElem?_take, List.getElem?_drop, List.getElem?_map]
      by_cases inside : i < hi - lo
      · have found := itemAt ⟨i, inside⟩
        rw [← Array.getElem?_toList] at found
        rw [if_pos inside, found]
        simp [inside]
      · simp [inside]
    have rest : order.toList.drop hi = (order.toList.drop lo).drop (hi - lo) := by
      rw [List.drop_drop, Nat.add_sub_cancel' lo_le_hi]
    rw [BlockSort.embed, middle, rest, List.append_assoc, List.take_append_drop,
      List.take_append_drop, Array.toArray_toList]
  · intro i inside _ _
    rw [Vector.getElem_ofFn]
    exact agree ⟨i, inside⟩

variable {m start stop : Nat} {left right : List Nat} {items : Vector (Fin n) m}

theorem of_embed (aligned : Bucket.Aligned text depth base start stop items) (fits : stop ≤ m) :
    Lined text depth base (left.length + start) (left.length + stop)
      (BlockSort.embed left items right) := by
  intro place above below
  obtain ⟨i, rfl⟩ := Nat.exists_eq_add_of_le (Nat.le_of_add_right_le above)
  have inside : i < m := by omega
  exact ⟨items[i], getElem?_embed items inside, aligned i inside (by omega) (by omega)⟩

end Lined

/-- What is not a part of the vector does not depend on it. -/
theorem getElem?_embed_outside {n m place : Nat} {left right : List Nat}
    (one other : Vector (Fin n) m) (outside : place < left.length ∨ left.length + m ≤ place) :
    (embed left one right)[place]? = (embed left other right)[place]? := by
  have length (items : Vector (Fin n) m) : (items.toList.map Fin.val).length = m := by
    rw [List.length_map, Vector.length_toList]
  simp only [embed, List.getElem?_toArray, List.append_assoc]
  rcases outside with before | behind
  · rw [List.getElem?_append_left before, List.getElem?_append_left before]
  · have further : m ≤ place - left.length := Nat.le_sub_of_add_le' behind
    have past := (Nat.le_add_right left.length m).trans behind
    rw [List.getElem?_append_right past, List.getElem?_append_right past,
      List.getElem?_append_right ((length one).trans_le further),
      List.getElem?_append_right ((length other).trans_le further), length, length]

namespace Frame

/-- The positions in a range of an order. -/
def slice (frame : Frame) (order : Array Nat) : List Nat :=
  (order.toList.take frame.hi).drop frame.lo

/-- Two ranges have no place in common. -/
def Apart (one other : Frame) : Prop := one.hi ≤ other.lo ∨ other.hi ≤ one.lo

/-- A range that may be sorted: its rotations agree on their first bytes. -/
structure Fits (frame : Frame) (text : Text n) (order : Array Nat) : Prop where
  lo_le_hi : frame.lo ≤ frame.hi
  room : frame.hi ≤ order.size
  shallow : frame.depth ≤ Bucket.deepest + 1
  lined : ∃ base, Lined text frame.depth base frame.lo frame.hi order

/-- The order is the same at all places outside of a range. -/
structure Outside (frame : Frame) (before after : Array Nat) : Prop where
  size : after.size = before.size
  same : ∀ place, place < frame.lo ∨ frame.hi ≤ place → after[place]? = before[place]?

variable {frame other : Frame} {before after : Array Nat}

section Slice

omit [Occupied n]

theorem getElem?_slice (i : Nat) :
    (frame.slice order)[i]? = if frame.lo + i < frame.hi then order[frame.lo + i]? else none := by
  rw [slice, List.getElem?_drop, List.getElem?_take, Array.getElem?_toList]

theorem mem_slice {position : Nat} : position ∈ frame.slice order ↔
    ∃ place, frame.lo ≤ place ∧ place < frame.hi ∧ order[place]? = some position := by
  rw [List.mem_iff_getElem?]
  constructor
  · rintro ⟨i, found⟩
    rw [getElem?_slice] at found
    split at found
    · exact ⟨frame.lo + i, Nat.le_add_right _ i, ‹_›, found⟩
    · cases found
  · rintro ⟨place, above, below, found⟩
    obtain ⟨i, rfl⟩ := Nat.exists_eq_add_of_le above
    exact ⟨i, by rw [getElem?_slice, if_pos below, found]⟩

theorem slice_append {lo middle hi : Nat} (ascending : lo ≤ middle) (bounded : middle ≤ hi)
    (one other whole : Nat) (order : Array Nat) :
    slice ⟨lo, middle, one⟩ order ++ slice ⟨middle, hi, other⟩ order =
      slice ⟨lo, hi, whole⟩ order := by
  obtain ⟨width, rfl⟩ := Nat.exists_eq_add_of_le ascending
  simp only [slice, List.drop_take, Nat.add_sub_cancel_left]
  rw [show hi - lo = width + (hi - (lo + width)) by omega, List.take_add, List.drop_drop]

theorem Outside.slice (outside : frame.Outside before after) (apart : frame.Apart other) :
    other.slice after = other.slice before := by
  apply List.ext_getElem?
  intro i
  rw [getElem?_slice, getElem?_slice]
  split
  · apply outside.same
    rcases apart with left | right <;> omega
  · rfl

end Slice

/-- The positions in a range are positions of the text, and their rotations agree. -/
theorem Fits.slice (fits : frame.Fits text order) :
    (∀ position ∈ frame.slice order, position < n) ∧
      ∀ one ∈ frame.slice order, ∀ other ∈ frame.slice order,
        text.Agree frame.depth one other := by
  obtain ⟨base, lined⟩ := fits.lined
  have member {position : Nat} (found : position ∈ frame.slice order) :
      position < n ∧ text.Agree frame.depth position base := by
    obtain ⟨place, above, below, itemAt⟩ := mem_slice.mp found
    obtain ⟨item, rfl, agree⟩ := lined.read above below itemAt
    exact ⟨item.isLt, agree⟩
  exact ⟨fun _ found => (member found).1,
    fun _ one _ other => (member one).2.join (member other).2⟩

theorem Fits.outside (fits : other.Fits text before) (outside : frame.Outside before after)
    (apart : frame.Apart other) : other.Fits text after := by
  obtain ⟨base, lined⟩ := fits.lined
  refine ⟨fits.lo_le_hi, outside.size ▸ fits.room, fits.shallow, base, lined.congr ?_⟩
  intro place above below
  apply outside.same
  rcases apart with left | right
  · exact .inr (left.trans above)
  · exact .inl (below.trans_le right)

section Embed

variable {left right : List Nat} {m : Nat} {items : Vector (Fin n) m}

omit [Occupied n] in
theorem slice_embed (items : Vector (Fin n) m) (depth : Nat) :
    slice ⟨left.length, left.length + m, depth⟩ (embed left items right) =
      items.toList.map Fin.val := by
  rw [slice, embed, List.take_left' (by simp), List.drop_left]

omit [Occupied n] in
theorem Outside.embed (one other : Vector (Fin n) m) (depth : Nat) :
    Outside ⟨left.length, left.length + m, depth⟩ (embed left one right)
      (embed left other right) :=
  ⟨by rw [size_embed, size_embed], fun _ outside => getElem?_embed_outside other one outside⟩

theorem Fits.embed {start stop : Nat} (aligned : Bucket.Aligned text depth base start stop items)
    (start_le_stop : start ≤ stop) (inside : stop ≤ m) (shallow : depth ≤ Bucket.deepest + 1) :
    Fits ⟨left.length + start, left.length + stop, depth⟩ text (embed left items right) := by
  refine ⟨Nat.add_le_add_left start_le_stop _, ?_, shallow, base, .of_embed aligned inside⟩
  rw [size_embed]
  exact Nat.le_add_right_of_le (Nat.add_le_add_left inside _)

/-- No rotation is in a range that is empty, so that there is nothing to agree. -/
theorem Fits.empty (base : Fin n) {start stop : Nat} (same : start = stop) (inside : stop ≤ m)
    (shallow : depth ≤ Bucket.deepest + 1) :
    Fits ⟨left.length + start, left.length + stop, depth⟩ text
      (BlockSort.embed left items right) := by
  have aligned : Bucket.Aligned text depth base start stop items :=
    fun place _ above below => by omega
  exact .embed aligned same.le inside shallow

end Embed

end Frame

/-- Pending ranges: each of them may be sorted, and they have no place in common. -/
structure Pending (text : Text n) (pending : List Frame) (order : Array Nat) : Prop where
  fits : ∀ frame ∈ pending, frame.Fits text order
  apart : pending.Pairwise Frame.Apart

/-- Parts of the first range may be pending in its place, or none. -/
theorem Pending.replace {frame : Frame} {parts rest : List Frame} {before after : Array Nat}
    (pending : Pending text (frame :: rest) before) (outside : frame.Outside before after)
    (fits : ∀ part ∈ parts, part.Fits text after)
    (within : ∀ part ∈ parts, frame.lo ≤ part.lo ∧ part.hi ≤ frame.hi)
    (apart : parts.Pairwise Frame.Apart) : Pending text (parts ++ rest) after := by
  obtain ⟨first, others⟩ := List.pairwise_cons.mp pending.apart
  constructor
  · intro other member
    rcases List.mem_append.mp member with part | member
    · exact fits other part
    · exact (pending.fits other (List.mem_cons_of_mem frame member)).outside outside
        (first other member)
  · refine List.pairwise_append.mpr ⟨apart, others, fun part one other member => ?_⟩
    obtain ⟨lower, higher⟩ := within part one
    exact (first other member).imp higher.trans fun left => left.trans lower

theorem Pending.rest {frame : Frame} {rest : List Frame} {before after : Array Nat}
    (pending : Pending text (frame :: rest) before) (outside : frame.Outside before after) :
    Pending text rest after := by
  have kept : Pending text ([] ++ rest) after :=
    pending.replace outside (by simp) (by simp) .nil
  exact kept

namespace Bench

variable {bench : Bench} {frame : Frame}

/-- The answer of a comparison and the work done by then, for an algorithm that only asks. -/
def answer (bench : Bench) (depth p q work : Nat) : Bool × Nat :=
  (bench.exceeds depth p q work).getD (false, work)

theorem Prepared.answer_eq (prepared : bench.Prepared text) (shallow : depth ≤ Bucket.deepest + 1)
    (p q : Fin n) (work : Nat) :
    bench.exceeds depth p q work = some (bench.answer depth p q work) := by
  obtain ⟨answer, done, run, -⟩ := prepared.answers shallow p q work
  rw [Bench.answer, run, Option.getD_some]

/-- Rotations that agree with a common one are judged by their words. -/
theorem Prepared.judges (prepared : bench.Prepared text) (shallow : depth ≤ Bucket.deepest + 1)
    (base : Fin n) :
    Shell.Judges (fun (p q : Fin n) work => bench.answer depth p q work)
      (fun position => text.Agree depth position base)
      (fun position : Fin n => text.word position) := by
  constructor <;> intro p q work one other found
  · obtain ⟨answer, done, run, sound⟩ := prepared.answers shallow p q work
    rw [Bench.answer, run, Option.getD_some] at found
    exact (sound (one.join other)).1 found
  · obtain ⟨answer, done, run, sound⟩ := prepared.answers shallow p q work
    rw [Bench.answer, run, Option.getD_some] at found
    exact (sound (one.join other)).2 found

section Insertion

variable {m : Nat} {left right : List Nat} {exceeds : Fin n → Fin n → Nat → Bool × Nat}
variable {stop : Nat → Bool}

/-- A pass only moves items of its range, and by a gap of one it sorts them unless it is cut
short. -/
theorem pass_any (answers : bench.Answers depth exceeds stop)
    (judges : Shell.Judges exceeds (fun position => text.Agree depth position base)
      (fun position : Fin n => text.word position)) {gap : Nat} (room : gap ≤ m)
    {items : Vector (Fin n) m} (aligned : Bucket.Aligned text depth base 0 m items) (work : Nat) :
    ∃ (passed : Vector (Fin n) m) (spent : Nat),
      bench.pass depth gap left.length (m - gap) (left.length + gap) (embed left items right) work =
        some (embed left passed right, spent) ∧ Exchanged 0 m items passed ∧
      (gap = 1 → stop spent = false →
        SortedOn (fun position : Fin n => text.word position) 0 m passed) := by
  have whole : gap + (m - gap) = m := by omega
  refine ⟨_, _, pass_embed left right answers gap 0 (m - gap) gap whole.le items work,
    (Shell.pass_exchanged exceeds stop gap 0 (m - gap) gap whole.le items work).mono
      (Nat.le_refl 0) whole.le, ?_⟩
  rintro rfl running
  have sorted := Shell.pass_one_sorted judges whole.le room
    (show Zone (fun position : Fin n => text.Agree depth position base) 0 (0 + m) items by
      rwa [Nat.zero_add]) running
  rwa [Nat.zero_add] at sorted

/-- A pass is made also if too much work was done before; what it leaves is sorted by the other
gaps as the sort of a vector does it. -/
theorem sortBy_any (answers : bench.Answers depth exceeds stop)
    (judges : Shell.Judges exceeds (fun position => text.Agree depth position base)
      (fun position : Fin n => text.word position)) (gaps : List Nat)
    (narrow : ∀ gap ∈ gaps, gap ≤ m) (last : 1 < m → gaps.getLast? = some 1)
    {items : Vector (Fin n) m} (aligned : Bucket.Aligned text depth base 0 m items) (work : Nat) :
    ∃ (sorted : Vector (Fin n) m) (done : Nat),
      bench.sortBy depth left.length m gaps (embed left items right) work =
        some (embed left sorted right, done) ∧ Exchanged 0 m items sorted ∧
      (stop done = false → SortedOn (fun position : Fin n => text.word position) 0 m sorted) := by
  have fits : 0 + m ≤ m := (Nat.zero_add m).le
  cases gaps with
  | nil =>
    refine ⟨items, work, rfl, .refl items, fun _ i j iBound jBound above ascending below => ?_⟩
    have missing := last (by omega)
    cases missing
  | cons gap gaps =>
    have room := narrow gap List.mem_cons_self
    obtain ⟨passing, spent, passed, exchanged, single⟩ := @pass_any _ _ _ _ _ _ _ left right _ _
      answers judges gap (narrow gap List.mem_cons_self) items aligned work
    rw [sortBy, passed]
    simp only [Option.bind_eq_bind, Option.bind_some, answers.stops]
    cases spending : stop spent with
    | true => exact ⟨passing, spent, rfl, exchanged, fun going => by simp [spending] at going⟩
    | false =>
      have others := @sortBy_embed _ _ _ left right _ _ _ answers 0 m fits gaps
        (fun other member => narrow other (List.mem_cons_of_mem _ member)) passing spent spending
      have kept := Shell.sortBy_exchanged exceeds stop 0 m fits gaps passing spent
      rw [Nat.zero_add] at kept
      refine ⟨_, _, others, exchanged.trans kept, fun running => ?_⟩
      by_cases several : 1 < m
      · have ends := last several
        cases gaps with
        | nil => exact single (by simpa using ends) spending
        | cons next rest =>
          rw [List.getLast?_cons_cons] at ends
          have sorted := Shell.sortBy_sorted judges fits (by omega) ends
            (exchanged.all (.inl ⟨Nat.le_refl 0, by omega⟩)
              (by rwa [Nat.zero_add])) running
          rwa [Nat.zero_add] at sorted
      · intro i j iBound jBound above ascending below
        omega

end Insertion

/-- A sort by insertion moves nothing outside of its range, keeps what is inside, and sorts it
unless it is cut short; if there is work left to do, it makes of the range what any algorithm of its
kind does that gets the same answers. -/
theorem insertionSort_range (prepared : bench.Prepared text) (fits : frame.Fits text order)
    (work : Nat) :
    ∃ after done, bench.insertionSort frame order work = some (after, done) ∧
      frame.Outside order after ∧ (frame.slice after).Perm (frame.slice order) ∧
      (bench.overspent done = false → (frame.slice after).Pairwise fun one other =>
        text.word one ≤ text.word other) ∧
      (bench.overspent work = false → ∃ (m : Nat) (items sorted : Vector (Fin n) m),
        frame.slice order = items.toList.map Fin.val ∧
        frame.slice after = sorted.toList.map Fin.val ∧
        Shell.sort (fun (p q : Fin n) work => bench.answer frame.depth p q work) bench.overspent 0 m
          (Nat.zero_add m).le items work = (sorted, done)) := by
  obtain ⟨lo, hi, depth⟩ := frame
  obtain ⟨lo_le_hi, room, shallow, base, lined⟩ := fits
  dsimp only at lo_le_hi room shallow lined ⊢
  obtain ⟨left, m, items, right, rfl, rfl, rfl, aligned⟩ := lined.embed lo_le_hi room
  have answers : bench.Answers depth (fun (p q : Fin n) work => bench.answer depth p q work)
      bench.overspent := ⟨prepared.answer_eq shallow, fun _ => rfl⟩
  obtain ⟨sorted, done, run, exchanged, ordered⟩ := sortBy_any answers
    (prepared.judges shallow base) (Shell.gaps m)
    (fun gap member => (Shell.lt_of_mem_gaps member).le) Shell.gaps_getLast aligned work
  have insertion : bench.insertionSort ⟨left.length, left.length + m, depth⟩
      (embed left items right) work = some (embed left sorted right, done) := by
    rw [insertionSort, Nat.add_sub_cancel_left]
    exact run
  refine ⟨_, done, insertion, .embed items sorted depth, ?_, fun within => ?_, fun running => ?_⟩
  · rw [Frame.slice_embed, Frame.slice_embed]
    exact exchanged.perm.toList.map Fin.val
  · rw [Frame.slice_embed, List.pairwise_map]
    exact (ordered within).pairwise
  · have same := insertionSort_embed left right answers (Nat.zero_le m) (Nat.le_refl m) items work
      running
    rw [Nat.add_zero, insertion, Option.some.injEq, Prod.mk.injEq] at same
    obtain ⟨arranged, spent⟩ := same
    refine ⟨m, items, _, Frame.slice_embed items depth, ?_, Prod.ext rfl spent.symm⟩
    rw [arranged]
    exact Frame.slice_embed _ depth

end Bench

/-- An algorithm that sorts by insertion needs right answers only where rotations differ. -/
theorem Shell.sort_orders_rotations (text : Text n) {σ : Type}
    {exceeds : Fin n → Fin n → σ → Bool × σ} (stop : σ → Bool)
    (right : ∀ (one other : Fin n) state,
      text.toList.rotate one ≠ text.toList.rotate other →
        ((exceeds one other state).1 = true ↔
          text.toList.rotate other < text.toList.rotate one))
    {m : Nat} (items : Vector (Fin n) m) (state : σ) :
    let sorted := sort exceeds stop 0 m (Nat.zero_add m).le items state
    sorted.1.Perm items ∧
      (stop sorted.2 = false → sorted.1.toList.Pairwise fun one other : Fin n =>
        text.toList.rotate one ≤ text.toList.rotate other) := by
  have judges : Judges exceeds (fun _ => True) (fun position : Fin n => text.word position) := by
    constructor
    · intro one other state _ _ answer
      by_cases same : text.toList.rotate one = text.toList.rotate other
      · exact (Text.rotate_eq_iff.mp same).ge
      · exact (Text.rotate_lt_iff.mp ((right one other state same).mp answer)).le
    · intro one other state _ _ answer
      by_cases same : text.toList.rotate one = text.toList.rotate other
      · exact (Text.rotate_eq_iff.mp same).le
      · apply not_lt.mp
        intro less
        rw [(right one other state same).mpr (Text.rotate_lt_iff.mpr less)] at answer
        cases answer
  refine ⟨(sort_exchanged exceeds stop 0 m _ items state).perm, fun within => ?_⟩
  exact (sort_pairwise judges (fun _ _ _ _ => trivial) within).imp Text.rotate_le_iff.mpr

end BlockSort
