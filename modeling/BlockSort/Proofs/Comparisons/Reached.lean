import BlockSort.Proofs.Comparisons.Invariant

namespace BlockSort

namespace Rotation

variable {n : Nat} [Occupied n] {text : Text n} {first second : UInt8} {i j : Nat}

theorem pairAt_of_take (several : 1 < n)
    (starts : (text.toList.rotate i).take 2 = [first, second]) :
    pairAt text i = PairTable.index first second := by
  have head := congrArg (·[0]?) starts
  have next := congrArg (·[1]?) starts
  rw [List.getElem?_take_of_lt (by decide), Text.getElem?_rotate text i Occupied.positive] at head
  rw [List.getElem?_take_of_lt (by decide), Text.getElem?_rotate text i several] at next
  rw [pairAt, Option.some.inj next]
  exact congrArg (PairTable.index · second) (Option.some.inj head)

theorem one_lt_bucketSize {pair : Nat} (before : i < j) (inside : j < n)
    (one : pairAt text i = pair) (other : pairAt text j = pair) : 1 < bucketSize text pair := by
  have distinct : [i, j].Nodup := by simp [before.ne]
  refine (List.subperm_of_subset distinct fun place member => ?_).length_le
  rw [List.mem_filter, List.mem_range, decide_eq_true_eq]
  rcases List.mem_pair.mp member with rfl | rfl
  · exact ⟨before.trans inside, one⟩
  · exact ⟨inside, other⟩

end Rotation

namespace Bench

variable {bench : Bench} {order after : Array Nat}

theorem several_of_divide {frame : Frame} {parts : List Frame}
    (long : Bucket.smallRange < frame.hi - frame.lo)
    (divided : bench.divide frame order = some (parts, after)) :
    ∃ part ∈ parts, part.lo + 1 < part.hi := by
  obtain ⟨lo, hi, depth⟩ := frame
  rw [Bucket.smallRange] at long
  dsimp only at long
  simp only [divide, Option.bind_eq_bind, Option.bind_eq_some_iff] at divided
  obtain ⟨_, -, _, -, _, -, zones, scanned, divided⟩ := divided
  obtain ⟨bounds, -⟩ := scan_zones (Nat.le_refl lo) (by omega) (Nat.le_refl hi) scanned
  split at divided
  · rw [Option.pure_def, Option.some.injEq, Prod.mk.injEq] at divided
    obtain ⟨rfl, -⟩ := divided
    exact ⟨_, List.mem_singleton_self _, by dsimp only; omega⟩
  · simp only [Option.bind_eq_some_iff] at divided
    obtain ⟨_, -, _, -, divided⟩ := divided
    rw [Option.pure_def, Option.some.injEq, Prod.mk.injEq] at divided
    obtain ⟨rfl, -⟩ := divided
    -- three parts of at most one rotation each would not make up the range
    by_contra! none
    simp only [List.mem_cons, List.not_mem_nil, or_false, forall_eq_or_imp, forall_eq] at none
    omega

end Bench

namespace Task

open SortSpace (Points)
open Rotation (bucketSize)

/-- A task leads to a sort by insertion that compares. -/
def Compares (task : Task) : Prop :=
  ∃ bench frame order work depth p q more, task.Leads (.insertion bench frame order work) ∧
    (Task.insertion bench frame order work).Leads (.comparison bench depth p q more)

theorem Calls.compares {caller callee : Task} (call : Calls caller callee)
    (compares : callee.Compares) : caller.Compares := by
  obtain ⟨bench, frame, order, work, depth, p, q, more, leads, reached⟩ := compares
  exact ⟨bench, frame, order, work, depth, p, q, more, .head call leads, reached⟩

variable {bench : Bench} {frame : Frame} {order after : Array Nat} {work done : Nat}

theorem compares_of_insertion (several : frame.lo + 1 < frame.hi)
    (run : bench.insertionSort frame order work = some (after, done)) :
    (Task.insertion bench frame order work).Compares := by
  obtain ⟨lo, hi, depth⟩ := frame
  dsimp only at several
  rw [Bench.insertionSort] at run
  cases gaps : Shell.gaps (hi - lo) with
  | nil =>
    have last := Shell.gaps_getLast (Nat.lt_sub_iff_add_lt'.mpr several)
    rw [gaps] at last
    cases last
  | cons gap rest =>
    have member : gap ∈ Shell.gaps (hi - lo) := gaps ▸ List.mem_cons_self ..
    have narrow := Shell.lt_of_mem_gaps member
    have wide := Shell.pos_of_mem_gaps member
    obtain ⟨count, more⟩ : ∃ count, hi - lo - gap = count + 1 := ⟨hi - lo - gap - 1, by omega⟩
    dsimp only at run
    rw [gaps, Bench.sortBy] at run
    obtain ⟨_, passed, -⟩ := Option.bind_eq_some_iff.mp run
    rw [more, Bench.pass] at passed
    obtain ⟨item, itemAt, -⟩ := Option.bind_eq_some_iff.mp passed
    have inside : lo + gap < order.size := (Array.getElem?_eq_some_iff.mp itemAt).1
    have earlierAt : order[lo + gap - gap]? = some order[lo] := by
      rw [Nat.add_sub_cancel]
      exact Array.getElem?_eq_getElem (by omega)
    have sort : Calls (.insertion bench ⟨lo, hi, depth⟩ order work)
        (.gaps bench depth lo (hi - lo) (gap :: rest) order work) := gaps ▸ .gaps
    have pass : Calls (.gaps bench depth lo (hi - lo) (gap :: rest) order work)
        (.pass bench depth gap lo (count + 1) (lo + gap) order work) := more ▸ .pass
    exact ⟨bench, _, order, work, depth, order[lo], item, work, .refl, .head sort (.head pass
      (.head (.sink itemAt) (.single (.comparison ⟨wide, Nat.le_refl _⟩ earlierAt))))⟩

theorem insertionSort_few (few : ¬frame.lo + 1 < frame.hi) :
    bench.insertionSort frame order work = some (order, work) := by
  have gapless : Shell.gaps (frame.hi - frame.lo) = [] := by
    apply List.eq_nil_iff_forall_not_mem.mpr
    intro gap member
    have narrow := Shell.lt_of_mem_gaps member
    have wide := Shell.pos_of_mem_gaps member
    omega
  rw [Bench.insertionSort, gapless, Bench.sortBy]

/-- Pending ranges are sorted in turn, so that one of more than one rotation is compared. -/
theorem compares_of_drain {pending left : List Frame} (running : bench.overspent work = false)
    (run : bench.drain pending order work = some (left, after, done))
    (several : ∃ frame ∈ pending, frame.lo + 1 < frame.hi) :
    (Task.ranges bench pending order work).Compares := by
  fun_induction Bench.drain bench pending order work with
  | case1 => simp at several
  | case2 => cases run
  | case3 order work frame rest long parts next divided ih =>
    refine (Calls.divide long divided).compares (ih running run ?_)
    obtain ⟨part, member, more⟩ := Bench.several_of_divide long.1 divided
    exact ⟨part, List.mem_append_left rest member, more⟩
  | case4 order work frame rest short ih =>
    obtain ⟨⟨next, spent⟩, sorted, run⟩ := Option.bind_eq_some_iff.mp run
    by_cases here : frame.lo + 1 < frame.hi
    · exact (Calls.insertion short).compares (compares_of_insertion here sorted)
    · have same := sorted
      rw [insertionSort_few here, Option.some.injEq, Prod.mk.injEq] at same
      obtain ⟨rfl, rfl⟩ := same
      simp only [running, Bool.false_eq_true, if_false] at run
      obtain ⟨one, member, more⟩ := several
      rcases List.mem_cons.mp member with rfl | member
      · exact absurd more here
      · exact (Calls.others short sorted running).compares
          (ih order work running run ⟨one, member, more⟩)

section Row

variable {n : Nat} [Occupied n] {text : Text n} {marked : Nat → Bool} {first : UInt8}
variable {starts : Array Nat} {seconds : List UInt8} {pending : List Frame}
variable {result : SortSpace.Progress}

/-- A row is sorted without work if all its buckets are marked or of at most one rotation. -/
theorem compares_of_sortRow (small : n < SortSpace.mark) (points : Points text marked starts)
    (running : bench.overspent work = false)
    (run : SortSpace.sortRow bench first seconds ⟨order, starts, pending, work⟩ = some result) :
    (Task.row bench first seconds ⟨order, starts, pending, work⟩).Compares ∨
      result.work = work ∧ ∀ second ∈ seconds, marked (PairTable.index first second) = false →
        bucketSize text (PairTable.index first second) ≤ 1 := by
  induction seconds generalizing marked starts with
  | nil =>
    cases run
    exact .inr ⟨rfl, by simp⟩
  | cons second seconds ih =>
    rw [SortSpace.sortRow] at run
    obtain ⟨entry, entryAt, run⟩ := Option.bind_eq_some_iff.mp run
    have known := points.isMarked small entryAt
    dsimp only at run
    split at run
    · rename_i already
      rcases ih points run with compares | ⟨same, few⟩
      · exact .inl ((Calls.skip entryAt already).compares compares)
      · refine .inr ⟨same, fun other member fresh => ?_⟩
        rcases List.mem_cons.mp member with rfl | member
        · rw [← known, already] at fresh
          cases fresh
        · exact few other member fresh
    · rename_i unmarked
      obtain ⟨next, nextAt, run⟩ := Option.bind_eq_some_iff.mp run
      obtain ⟨start, stop⟩ := points.bounds small entryAt nextAt
      split at run
      · rename_i several
        obtain ⟨⟨left, after, done⟩, drained, run⟩ := Option.bind_eq_some_iff.mp run
        refine .inl ((Calls.bucket entryAt (by simpa using unmarked) nextAt several).compares ?_)
        exact compares_of_drain running drained ⟨_, List.mem_singleton_self _, several⟩
      · rename_i single
        obtain ⟨marks, written, run⟩ := Option.bind_eq_some_iff.mp run
        rcases ih (points.put entryAt written) run with compares | ⟨same, few⟩
        · exact .inl ((Calls.mark entryAt (by simpa using unmarked) nextAt single written).compares
            compares)
        · refine .inr ⟨same, fun other member fresh => ?_⟩
          by_cases here : other = second
          · subst here
            rw [start, stop, begins_succ] at single
            omega
          · refine few other ((List.mem_cons.mp member).resolve_left here) ?_
            rw [Function.update_of_ne]
            · exact fresh
            · exact fun same => here (PairTable.index_inj same).2

end Row

section Visits

variable {slots : Array UInt8} {size index : Nat} {budget : Option Nat} {first : UInt8}
variable {firsts : List UInt8} {sorted : ByteSet} {ranks : Array Nat}
variable {progress settled : SortSpace.Progress} {result : Array Nat × SortSpace.Progress}

/-- A visit whose row is sorted within the limit leads to the next visit. -/
theorem calls_of_visitAll
    (run : SortSpace.visitAll slots size budget index (first :: firsts) sorted ranks progress =
      some result)
    (row : SortSpace.sortRow { slots, ranks, size, budget } first allBytes progress = some settled)
    (running : Bench.overspent { slots, ranks, size, budget } settled.work = false) :
    ∃ recorded next, Calls (.visits slots size budget index (first :: firsts) sorted ranks progress)
        (.visits slots size budget (index + 1) firsts (sorted.insert first) recorded next) ∧
      SortSpace.visitAll slots size budget (index + 1) firsts (sorted.insert first) recorded next =
        some result := by
  obtain ⟨order, starts, pending, work⟩ := settled
  rw [SortSpace.visitAll, row, Option.bind_eq_bind, Option.bind_some, running] at run
  obtain ⟨low, lowAt, run⟩ := Option.bind_eq_some_iff.mp run
  obtain ⟨high, highAt, run⟩ := Option.bind_eq_some_iff.mp run
  obtain ⟨length, span, run⟩ := Option.bind_eq_some_iff.mp run
  -- whether ranks are recorded or kept, the visit goes on in the same way
  obtain ⟨recorded, records, run⟩ :=
    Option.bind_eq_some_iff.mp ((apply_ite (Option.bind · _) (index < 255) _ _).trans run)
  obtain ⟨next, column, run⟩ := Option.bind_eq_some_iff.mp run
  obtain ⟨placed, places, run⟩ := Option.bind_eq_some_iff.mp run
  obtain ⟨cleared, marking, run⟩ := Option.bind_eq_some_iff.mp run
  exact ⟨_, _, .onward row running lowAt highAt span records column places marking, run⟩

variable {n : Nat} [Occupied n] {given : Text n → Prop} {byte : UInt8}

/-- The bucket of a byte that follows itself is not marked before its row is visited. -/
theorem compares_of_visitAll (small : n < SortSpace.mark)
    (several : ∀ text, given text → 1 < bucketSize text (PairTable.index byte byte))
    (member : byte ∈ firsts)
    (fine : (Task.visits slots size budget index firsts sorted ranks progress).Fine given)
    (run : SortSpace.visitAll slots size budget index firsts sorted ranks progress = some result) :
    (Task.visits slots size budget index firsts sorted ranks progress).Compares := by
  induction firsts generalizing index sorted ranks progress with
  | nil => cases member
  | cons first rest ih =>
    have call : Calls (.visits slots size budget index (first :: rest) sorted ranks progress) _ :=
      .row
    obtain ⟨_, _, _, _, -, -, -, -, running⟩ := call.fine small fine
    obtain ⟨-, text, table, _, known, -, visiting, -⟩ := id fine
    obtain ⟨marked, points, marks⟩ := visiting.marked
    have visit := run
    rw [SortSpace.visitAll] at visit
    obtain ⟨settled, row, -⟩ := Option.bind_eq_some_iff.mp visit
    rcases compares_of_sortRow small points running row with compares | ⟨spent, few⟩
    · exact call.compares compares
    · have other : byte ≠ first := by
        rintro rfl
        have fresh := visiting.fresh byte (List.mem_cons_self ..)
        have few := few byte (mem_allBytes byte) (by rw [marks, fresh, Bool.or_self])
        exact absurd (several text known) (Nat.not_lt.mpr few)
      obtain ⟨recorded, next, onward, run⟩ := calls_of_visitAll run row (by rwa [spent])
      exact onward.compares (ih ((List.mem_cons.mp member).resolve_left other)
        (onward.fine small fine) run)

theorem compares_of_sortRotations (small : n < SortSpace.mark)
    (several : ∀ text, given text → 1 < bucketSize text (PairTable.index byte byte))
    {space : SortSpace} (fine : (Task.rotations slots size budget space).Fine given)
    {left : SortSpace × Nat}
    (run : SortSpace.sortRotations slots size budget space = some left) :
    (Task.rotations slots size budget space).Compares := by
  obtain ⟨order, starts, ranks, pending⟩ := space
  obtain ⟨⟨filed, next⟩, collected, run⟩ := Option.bind_eq_some_iff.mp run
  obtain ⟨sizes, counted, run⟩ := Option.bind_eq_some_iff.mp run
  obtain ⟨result, visited, -⟩ := Option.bind_eq_some_iff.mp run
  have call : Calls (.rotations slots size budget ⟨order, starts, ranks, pending⟩) _ :=
    .visits collected counted
  exact call.compares (compares_of_visitAll small several (Rotation.mem_visitOrder _ byte)
    (call.fine small fine) visited)

end Visits

end Task

/-- A sort of a block in which a byte follows itself at two places compares rotations. -/
theorem BlockStore.sort_compares {store : BlockStore} {space : SortSpace} {size : Nat}
    (small : size < SortSpace.mark) (stored : store.Sized size) (sized : space.Sized size)
    (byte : UInt8) {i j : Nat} (before : i < j) (inside : j < store.size)
    (one : (store.bytes.rotate i).take 2 = [byte, byte])
    (other : (store.bytes.rotate j).take 2 = [byte, byte]) :
    (Task.sort store space).Compares := by
  have : Occupied store.size := ⟨Nat.zero_lt_of_lt inside⟩
  obtain ⟨text, first, back, bytes, slots, room, wide⟩ := stored.held
  obtain ⟨after, left, run, -⟩ := stored.sort (Nat.ne_of_gt (Nat.zero_lt_of_lt inside)) small sized
  obtain ⟨last, positive, run⟩ := Option.bind_eq_some_iff.mp run
  obtain ⟨ready, prepared, run⟩ := Option.bind_eq_some_iff.mp run
  obtain ⟨ranks, cleared, run⟩ := Option.bind_eq_some_iff.mp run
  obtain ⟨result, sorted, -⟩ := Option.bind_eq_some_iff.mp run
  refine (Task.Calls.first positive prepared cleared).compares ?_
  rw [slots] at prepared
  have fine : Task.Fine (fun text : Text store.size => text.toList = store.bytes) _ :=
    Task.fine_rotations room (by rw [sized.order]; omega) sized.starts (by rw [sized.ranks]; omega)
      prepared cleared bytes (some (SortedBlock.workPerByte * last))
  have twice (text : Text store.size) (same : text.toList = store.bytes) :
      1 < Rotation.bucketSize text (PairTable.index byte byte) := by
    rw [← same] at one other
    have several : 1 < store.size := Nat.lt_of_le_of_lt (Nat.one_le_of_lt before) inside
    exact Rotation.one_lt_bucketSize before inside (Rotation.pairAt_of_take several one)
      (Rotation.pairAt_of_take several other)
  exact Task.compares_of_sortRotations (by omega) twice fine sorted

end BlockSort
