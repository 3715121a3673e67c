import BlockSort.Proofs.Comparisons.Frames
import BlockSort.Proofs.Comparisons.Reached

/-!
The visits of the leading bytes, as the arrays show them. Between two visits every bucket holds the
rotations of its pair, and those of visited bytes are in their final order. A visit fills the
buckets in front of its row exactly, in the order of the row, and leaves all others alone.
-/
namespace BlockSort

open SortSpace (Points Visiting isMarked)
open Rotation (Filed Visited cellsOf bucketSize pairCount exhausted)

variable {n : Nat} [Occupied n] {text : Text n}

/-- What the arrays hold between two visits. -/
structure Scanned (text : Text n) (sorted : ByteSet) (progress : SortSpace.Progress) : Prop where
  /-- Every rotation is in the order, once. -/
  whole : (progress.order.toList.take n).Perm (List.range n)
  /-- The rotations that start with a pair take exactly the places of its bucket. -/
  filed : ∀ first second, ∃ frame, progress.frame first second = some frame ∧
    frame.lo ≤ frame.hi ∧ frame.hi ≤ n ∧
    (frame.slice progress.order).Perm ((List.range n).filter fun position =>
      text.byteAt position = first ∧ text.byteAt (position + 1) = second)
  rows : ∀ first, ∃ frame, progress.row first = some frame ∧ frame.lo ≤ frame.hi ∧
    frame.hi - frame.lo = text.toList.count first
  marked : ∀ first second, progress.starts[PairTable.index first second]?.map isMarked =
    some (sorted.contains first || sorted.contains second)
  ordered : ∀ first second frame, progress.frame first second = some frame →
    (sorted.contains first || sorted.contains second) = true →
    (frame.slice progress.order).Pairwise fun one other =>
      text.toList.rotate one ≤ text.toList.rotate other

/-- Where the visits have come to: the bytes that are visited, and those that are left, are all
bytes, rarer ones first. -/
structure Queued (text : Text n) (index : Nat) (firsts : List UInt8) (sorted : ByteSet)
    (visited : List UInt8) : Prop where
  perm : (visited ++ firsts).Perm allBytes
  rarest : (visited ++ firsts).Pairwise fun one other =>
    text.toList.count one ≤ text.toList.count other
  index : visited.length = index
  sorted : ∀ byte, sorted.contains byte = true ↔ byte ∈ visited

/-- What a visit makes of the order once its row is settled. -/
structure Copied (text : Text n) (first : UInt8) (sorted : ByteSet)
    (before settled after : SortSpace.Progress) : Prop where
  /-- Buckets of visited bytes stay as they are, in the row and outside of it. -/
  final : ∀ one other frame, before.frame one other = some frame →
    (sorted.contains one || sorted.contains other) = true →
    frame.slice after.order = frame.slice before.order
  /-- Each bucket in front of the row receives as many predecessors as it has places. -/
  copies : ∀ row leading frame, settled.row first = some row →
    settled.frame leading first = some frame → (sorted.insert first).contains leading = false →
    let moved := ((row.slice settled.order).map fun position =>
      if position = 0 then n - 1 else position - 1).filter (text.byteAt · = leading)
    moved.length = frame.hi - frame.lo ∧ frame.slice after.order = moved
  others : ∀ leading second frame, settled.frame leading second = some frame →
    second ≠ first ∨ (sorted.insert first).contains leading = true →
    frame.slice after.order = frame.slice settled.order

namespace SortSpace

variable {index : Nat} {first : UInt8} {firsts : List UInt8} {table : Rotation.Progress n}
variable {slots : Array UInt8} {ranks : Array Nat} {budget : Option Nat} {progress : Progress}

theorem Visiting.scanned {cells : Array Nat} (small : n < mark)
    (visiting : Visiting text firsts index table cells progress.starts)
    (visited : Visited text table) {rest : List Nat}
    (order : progress.order = spread pairCount (cellsOf table.table) rest) :
    Scanned text table.sorted progress := by
  obtain ⟨marked, points, known⟩ := visiting.marked
  constructor
  · rw [order]
    exact front_perm visiting.filed rest
  · intro first second
    refine ⟨_, points.frame small first second, begins_mono _ (Nat.le_succ _),
      Rotation.begins_le text _, ?_⟩
    rw [order, bucket_slice visiting.filed]
    exact bucket_perm visiting.filed first second
  · intro first
    refine ⟨_, points.row small first, begins_mono _ (Nat.le_add_right _ _), ?_⟩
    have length := row_length visiting.filed.length_cellsOf first
    rw [Nat.succ_mul, length_row visiting.filed] at length
    exact Nat.sub_eq_of_eq_add' length
  · intro first second
    have inside := PairTable.index_lt first second
    rw [points.get _ (Nat.lt_succ_of_lt inside), Option.map_some,
      isMarked_entry _ ((Rotation.begins_le text _).trans_lt small), known]
  · intro first second frame found present
    rw [points.frame small, Option.some.injEq] at found
    rw [← found, order, bucket_slice visiting.filed, List.pairwise_map]
    rw [Bool.or_eq_true] at present
    exact (visited.ordered first second present).imp Text.rotate_le_iff.mpr

/-- Buckets of visited bytes are neither sorted with the row nor refilled from it. -/
theorem kept_of_sorted {comparer : Comparer n} {sorted : ByteSet}
    {before after : PairTable (List (Fin n)) × Nat}
    (row : Rotation.RowSorted comparer sorted first allBytes before after)
    (fresh : sorted.contains first = false) {one other : UInt8}
    (present : (sorted.contains one || sorted.contains other) = true) :
    (Rotation.placePredecessors text (sorted.insert first) first (after.1.row first).flatten
      after.1).get one other = before.1.get one other := by
  rw [Rotation.get_placePredecessors, if_neg]
  · by_cases same : one = first
    · subst same
      rw [fresh, Bool.false_or] at present
      exact row.kept other present
    · exact row.others one other same
  · rintro ⟨absent, rfl⟩
    rw [ByteSet.contains_insert, Bool.or_eq_false_iff] at absent
    rw [absent.2, fresh] at present
    cases present

/-- A row that is settled in a table is copied there to the buckets in front of it, and so it is in
the arrays. -/
theorem copied_of_tables {cells swept : PairTable (List (Fin n))} {rest : List Nat}
    {sorted : ByteSet} {before settled after : Progress} {marked marks : Nat → Bool}
    (small : n < mark) (filed : Filed text cells) (sweptFiled : Filed text swept)
    (points : Points text marked before.starts) (onward : Points text marks settled.starts)
    (beforeIs : before.order = spread pairCount (cellsOf cells) rest)
    (settledIs : settled.order = spread pairCount (cellsOf swept) rest)
    (afterIs : after.order = spread pairCount (cellsOf (Rotation.placePredecessors text
      (sorted.insert first) first (swept.row first).flatten swept)) rest)
    (kept : ∀ one other, (sorted.contains one || sorted.contains other) = true →
      (Rotation.placePredecessors text (sorted.insert first) first (swept.row first).flatten
        swept).get one other = cells.get one other) :
    Copied text first sorted before settled after := by
  have next := Rotation.placePredecessors_filed sweptFiled (sorted.insert first) first
  constructor
  · intro one other frame found present
    rw [points.frame small, Option.some.injEq] at found
    rw [← found, beforeIs, afterIs, bucket_slice filed, bucket_slice next, kept one other present]
  · intro row leading frame rowIs found absent moved
    rw [onward.row small, Option.some.injEq] at rowIs
    rw [onward.frame small, Option.some.injEq] at found
    have filled : frame.slice after.order = moved := by
      rw [← found, afterIs, bucket_slice next, Rotation.get_placePredecessors,
        if_pos ⟨absent, rfl⟩]
      simp only [moved]
      rw [← rowIs, settledIs, row_slice sweptFiled, List.map_map, List.filter_map, List.filter_map,
        List.map_map]
      refine congr (congrArg List.map (funext fun position => Text.val_before position))
        (List.filter_congr fun position _ => ?_)
      rw [Function.comp_apply, Function.comp_apply, Function.comp_apply, ← Text.val_before,
        Text.byteAt_fin]
    refine ⟨?_, filled⟩
    have length := congrArg List.length filled
    rw [← found, afterIs, bucket_slice next, ← Rotation.cellsOf_index, next.length_cellsOf] at length
    rw [← found, ← length, begins_succ, Nat.add_sub_cancel_left]
  · intro leading second frame found stays
    rw [onward.frame small, Option.some.injEq] at found
    rw [← found, settledIs, afterIs, bucket_slice next, bucket_slice sweptFiled,
      Rotation.get_placePredecessors, if_neg]
    rintro ⟨absent, rfl⟩
    rcases stays with other | known
    · exact other rfl
    · rw [known] at absent
      cases absent

/-- A visit that starts comes to the end of its row; it goes on to the next one unless too much work
was done, and then has copied the order of the row to the buckets in front of it. -/
theorem Visiting.copies (cyclic : Cyclic text slots) (small : n < mark)
    (visiting : Visiting text (first :: firsts) index table ranks progress.starts)
    (visited : Visited text table) (within : exhausted budget table.work = false)
    {rest : List Nat} (order : progress.order = spread pairCount (cellsOf table.table) rest)
    (work : progress.work = table.work) :
    ∃ settled, sortRow { slots, ranks, size := n, budget } first allBytes progress = some settled ∧
      (Bench.overspent { slots, ranks, size := n, budget } settled.work = false →
        ∃ recorded after, Task.Calls
            (.visits slots n budget index (first :: firsts) table.sorted ranks progress)
            (.visits slots n budget (index + 1) firsts (table.sorted.insert first) recorded after) ∧
          Copied text first table.sorted progress settled after) := by
  have models := visiting.models cyclic budget
  obtain ⟨marked, points, known⟩ := visiting.marked
  obtain ⟨order', starts, pending, work'⟩ := progress
  obtain ⟨cells, numbers, sorted, done⟩ := table
  dsimp only at order work within points known ⊢
  subst order work
  have row := @Rotation.foldl_sortBucket n _ ⟨text, numbers, budget⟩ visited.ranked sorted first
    allBytes (cells, work') visited.filed fun second member =>
      visited.ordered first second (.inr member)
  obtain ⟨settled, left, run, -, filed, result⟩ := sortRow_spec rest models small sorted first
    allBytes_nodup visiting.filed points
    (fun second _ => by rw [known, visiting.fresh first (by simp), Bool.false_or]) within pending
  dsimp only at run filed result row
  generalize List.foldl _ (cells, work') allBytes = swept at run filed result row
  obtain ⟨swept, spent⟩ := swept
  refine ⟨_, run, fun running => ?_⟩
  dsimp only at running filed result row
  have onward := result (models.overspent spent ▸ running)
  obtain ⟨low, high, recorded, column, marks, lowAt, highAt, span, records, columnIs, places,
    marking, -, -, filed', next⟩ := visiting.conclude rest cyclic small filed known onward spent
  refine ⟨recorded, _, .onward run running lowAt highAt span records columnIs places marking, ?_⟩
  exact copied_of_tables small visiting.filed filed points onward rfl rfl rfl fun one other =>
    kept_of_sorted row (visiting.fresh first (by simp))

end SortSpace

namespace Rotation

theorem visitOrder_ascending (sizes : Vector Nat 256) :
    (visitOrder sizes).Pairwise fun one other =>
      sizes.get ⟨one.toNat, UInt8.toNat_lt one⟩ ≤ sizes.get ⟨other.toNat, UInt8.toNat_lt other⟩ := by
  have judges : Shell.Judges
      (fun (one other : UInt8) (_ : Unit) =>
        (decide (sizes.get ⟨other.toNat, UInt8.toNat_lt other⟩ <
          sizes.get ⟨one.toNat, UInt8.toNat_lt one⟩), ()))
      (fun _ => True) (fun byte => sizes.get ⟨byte.toNat, UInt8.toNat_lt byte⟩) := by
    constructor
    · intro one other _ _ _ answer
      exact (of_decide_eq_true answer).le
    · intro one other _ _ _ answer
      exact Nat.not_lt.mp (of_decide_eq_false answer)
  exact Shell.sort_pairwise judges (fun _ _ _ _ => trivial) rfl

theorem rowSizes_get (text : Text n) (byte : UInt8) :
    (rowSizes (collect text)).get ⟨byte.toNat, UInt8.toNat_lt byte⟩ = text.toList.count byte := by
  rw [rowSizes, Vector.get_ofFn, UInt8.ofNat_toNat, ← SortSpace.length_row (collect_filed text),
    List.length_flatten, List.sum_eq_foldl]

end Rotation

theorem Queued.start (text : Text n) :
    Queued text 0 (Rotation.visitOrder (Rotation.rowSizes (Rotation.collect text))) {} [] := by
  constructor
  · rw [List.nil_append]
    exact SortSpace.visitOrder_perm _
  · rw [List.nil_append]
    refine (Rotation.visitOrder_ascending _).imp fun {one other} order => ?_
    rwa [Rotation.rowSizes_get, Rotation.rowSizes_get] at order
  · rfl
  · intro byte
    rw [ByteSet.contains_empty]
    simp

omit [Occupied n] in
theorem Queued.onward {index : Nat} {first : UInt8} {rest visited : List UInt8} {sorted : ByteSet}
    (queued : Queued text index (first :: rest) sorted visited) :
    Queued text (index + 1) rest (sorted.insert first) (visited ++ [first]) := by
  obtain ⟨perm, rarest, count, known⟩ := queued
  rw [← List.singleton_append, ← List.append_assoc] at perm rarest
  refine ⟨perm, rarest, ?_, fun byte => ?_⟩
  · rw [List.length_append, count, List.length_singleton]
  · rw [ByteSet.contains_insert, Bool.or_eq_true, decide_eq_true_eq, known, List.mem_append,
      List.mem_singleton, or_comm, eq_comm]

namespace Task

/-- The visits of a task go through all bytes, rarer ones first. -/
def Queued (n : Nat) [Occupied n] : Task → Prop
  | .visits slots _ _ index firsts sorted _ _ => ∃ visited, ∀ text : Text n, Cyclic text slots →
      BlockSort.Queued text index firsts sorted visited
  | _ => True

variable {given : Text n → Prop} {caller callee : Task}

theorem Calls.queued (call : Calls caller callee) (fine : caller.Fine given)
    (queued : caller.Queued n) : callee.Queued n := by
  cases call with
  | visits collected counted =>
    obtain ⟨rfl, -, -, -, wide, long, -⟩ := fine
    refine ⟨[], fun text cyclic => ?_⟩
    obtain ⟨next, filed, begun⟩ := SortSpace.collect_spec cyclic wide long
    rw [filed, Option.some.injEq, Prod.mk.injEq] at collected
    obtain ⟨-, rfl⟩ := collected
    rw [SortSpace.rowSizes_spec (Rotation.collect_filed text) begun, Option.some.injEq] at counted
    rw [← counted, SortSpace.ofFn_getD]
    exact .start text
  | onward =>
    obtain ⟨visited, each⟩ := queued
    exact ⟨_, fun text cyclic => (each text cyclic).onward⟩
  | _ => trivial

theorem Leads.queued (small : n < SortSpace.mark) (leads : caller.Leads callee)
    (fine : caller.Fine given) (queued : caller.Queued n) : callee.Queued n := by
  induction leads with
  | refl => exact queued
  | tail before call ih => exact call.queued (Leads.fine small before fine) ih

theorem Fine.begins {slots : Array UInt8} {size : Nat} {budget : Option Nat} {space : SortSpace}
    (fine : (Task.rotations slots size budget space).Fine given) :
    ∃ firsts ranks progress, Calls (.rotations slots size budget space)
      (.visits slots size budget 0 firsts {} ranks progress) := by
  obtain ⟨order, starts, ranks, pending⟩ := space
  obtain ⟨rfl, text, -, cyclic, wide, long, -⟩ := fine
  obtain ⟨next, filed, begun⟩ := SortSpace.collect_spec cyclic wide long
  exact ⟨_, _, _, .visits filed (SortSpace.rowSizes_spec (Rotation.collect_filed text) begun)⟩

end Task

namespace BlockStore

variable {store : BlockStore} {space : SortSpace} {size : Nat}

theorem Sized.queued [Occupied store.size] (stored : store.Sized size)
    (small : size < SortSpace.mark) (sized : space.Sized size) {task : Task}
    (leads : (Task.sort store space).Leads task) : task.Queued store.size := by
  have wide : store.size < SortSpace.mark := by
    obtain ⟨-, -, -, -, -, -, fits⟩ := stored.held
    omega
  rcases Relation.ReflTransGen.cases_head leads with rfl | ⟨callee, call, onward⟩
  · trivial
  · have fine := stored.fine small sized (.single call) (by cases call <;> simp)
    refine Task.Leads.queued wide onward fine ?_
    cases call <;> trivial

/-- All rotations of a block are sorted at least once. -/
theorem Sized.rotates [Occupied store.size] (stored : store.Sized size)
    (small : size < SortSpace.mark) (sized : space.Sized size) :
    ∃ slots budget left,
      Task.Calls (.sort store space) (.rotations slots store.size budget left) := by
  obtain ⟨after, left, run, -⟩ := stored.sort (Nat.ne_of_gt Occupied.positive) small sized
  obtain ⟨last, positive, run⟩ := Option.bind_eq_some_iff.mp run
  obtain ⟨ready, prepared, run⟩ := Option.bind_eq_some_iff.mp run
  obtain ⟨ranks, cleared, -⟩ := Option.bind_eq_some_iff.mp run
  exact ⟨_, _, _, .first positive prepared cleared⟩

/-- Whenever the rotations of a block are sorted, they are filed, and the visits begin. Before each
visit and after the last one every rotation is in the order once, the rotations of a pair take
exactly the places of its bucket, and those of visited bytes are in order; all bytes are visited,
rarer ones first. A visit always comes to the end of its row or stops for too much work; if it does
not stop, it fills each bucket in front of its row exactly and changes no other, and the next visit
begins. -/
theorem sort_scans [Occupied store.size] (small : size < SortSpace.mark)
    (stored : store.Sized size) (sized : space.Sized size) :
    (∃ slots budget left,
      Task.Calls (.sort store space) (.rotations slots store.size budget left)) ∧
    (∀ slots n budget left, (Task.sort store space).Leads (.rotations slots n budget left) →
      ∃ firsts ranks progress, Task.Calls (.rotations slots n budget left)
        (.visits slots n budget 0 firsts {} ranks progress)) ∧
    ∀ slots n budget index firsts sorted ranks progress,
      (Task.sort store space).Leads
        (.visits slots n budget index firsts sorted ranks progress) →
      n = store.size ∧ ∃ (text : Text store.size) (visited : List UInt8), store.Offers text ∧
        Cyclic text slots ∧ Scanned text sorted progress ∧
        Queued text index firsts sorted visited ∧
        ∀ first rest, firsts = first :: rest → ∃ settled,
          SortSpace.sortRow { slots, ranks, size := n, budget } first allBytes progress =
            some settled ∧
          (Bench.overspent { slots, ranks, size := n, budget } settled.work = false →
            ∃ recorded after,
              Task.Calls (.visits slots n budget index firsts sorted ranks progress)
                (.visits slots n budget (index + 1) rest (sorted.insert first) recorded after) ∧
              Copied text first sorted progress settled after) := by
  have wide : store.size < SortSpace.mark := by
    obtain ⟨-, -, -, -, -, -, fits⟩ := stored.held
    omega
  refine ⟨stored.rotates small sized, fun slots n budget left leads => ?_,
    fun slots n budget index firsts sorted ranks progress leads => ?_⟩
  · exact (stored.fine small sized leads (by simp)).begins
  · obtain ⟨rfl, text, table, rest, known, cyclic, visiting, visited, rfl, order, work, within⟩ :=
      stored.fine small sized leads (by simp)
    obtain ⟨past, queued⟩ := stored.queued small sized leads
    refine ⟨rfl, text, past, known, cyclic, visiting.scanned wide visited order,
      queued text cyclic, ?_⟩
    rintro first others rfl
    exact visiting.copies cyclic wide visited within order work

/-- Four bytes, of which one follows itself twice: the visits begin, the row of each byte comes to
its end, and so on. -/
theorem sort_scans_repeated :
    let store : BlockStore :=
      { slots := #[0, 97, 97, 97, 98] ++ Array.replicate 56 7, size := 4, allowed := 20 }
    let start := Task.sort store (Workspace.ofSize 40).sorting
    have : Occupied store.size := ⟨Nat.zero_lt_succ 3⟩
    ∃ slots budget firsts ranks progress,
      start.Leads (.visits slots 4 budget 0 firsts {} ranks progress) ∧
      ∃ (text : Text 4) (visited : List UInt8), store.Offers text ∧ Cyclic text slots ∧
        Scanned text {} progress ∧ Queued text 0 firsts {} visited ∧
        ∀ first rest, firsts = first :: rest → ∃ settled,
          SortSpace.sortRow { slots, ranks, size := 4, budget } first allBytes progress =
            some settled ∧
          (Bench.overspent { slots, ranks, size := 4, budget } settled.work = false →
            ∃ recorded after, start.Leads
                (.visits slots 4 budget 1 rest (ByteSet.insert {} first) recorded after) ∧
              Copied text first {} progress settled after) := by
  intro store start occupied
  have small : 40 < SortSpace.mark := by decide
  have stored : store.Sized 40 := ⟨by decide, by decide, rfl, by decide⟩
  have sized := (Workspace.ofSize_sized 40).sorting
  obtain ⟨⟨slots, budget, left, sorts⟩, begins, scans⟩ := sort_scans small stored sized
  obtain ⟨firsts, ranks, progress, begun⟩ := begins _ _ _ _ (.single sorts)
  have reached : start.Leads _ := Relation.ReflTransGen.tail (.single sorts) begun
  obtain ⟨-, text, visited, known, cyclic, scanned, queued, onward⟩ := scans _ _ _ _ _ _ _ _ reached
  refine ⟨slots, budget, firsts, ranks, progress, reached, text, visited, known, cyclic, scanned,
    queued, fun first rest split => ?_⟩
  obtain ⟨settled, run, goes⟩ := onward first rest split
  refine ⟨settled, run, fun running => ?_⟩
  obtain ⟨recorded, after, call, copied⟩ := goes running
  exact ⟨recorded, after, reached.tail call, copied⟩

end BlockStore

end BlockSort
