import BlockSort.Proofs.Comparisons.Divided
import BlockSort.Proofs.Comparisons.Rows
import BlockSort.Proofs.Comparisons.Tasks
import BlockSort.Proofs.Storage.Rotations

/-!
What holds of the tasks of a sort. The rows that are sorted have left ranks in the order of their
rotations, and the rotations of a range that is being sorted agree on their first bytes; each call
leads from what holds of a task to what holds of the task that it calls.
-/
namespace BlockSort

open SortSpace (Points Visiting)
open Rotation (Filed Visited cellsOf exhausted pairCount)

variable {n : Nat} [Occupied n]

/-- A bench with a given text, whose ranks keep to the order of rotations. -/
structure Bench.Sound (given : Text n → Prop) (bench : Bench) (comparer : Comparer n) : Prop where
  text : given comparer.text
  models : bench.Models comparer
  ranked : Comparer.Ranked comparer.text comparer.ranks

namespace Task

/-- What holds of each task of a sort, once the bytes are ready: its arrays hold what the sort has
computed so far, and the rotations that it may compare agree on their first bytes. -/
def Fine (given : Text n → Prop) : Task → Prop
  | .sort _ _ => False
  | .rotations slots size _ space => size = n ∧ ∃ text, given text ∧ Cyclic text slots ∧
      n ≤ space.order.size ∧ space.starts.size = pairCount + 1 ∧
      ∀ i < n + Block.margin, space.ranks[i]? = some 0
  | .visits slots size budget index firsts sorted ranks progress => size = n ∧
      ∃ (text : Text n) (table : Rotation.Progress n) (rest : List Nat), given text ∧
        Cyclic text slots ∧ Visiting text firsts index table ranks progress.starts ∧
        Visited text table ∧ sorted = table.sorted ∧
        progress.order = spread pairCount (cellsOf table.table) rest ∧
        progress.work = table.work ∧ exhausted budget table.work = false
  | .row bench _ _ progress =>
      ∃ (comparer : Comparer n) (table : PairTable (List (Fin n))) (rest : List Nat)
        (marked : Nat → Bool), bench.Sound given comparer ∧ Filed comparer.text table ∧
        Points comparer.text marked progress.starts ∧
        progress.order = spread pairCount (cellsOf table) rest ∧
        bench.overspent progress.work = false
  | .ranges bench pending order work => ∃ comparer : Comparer n, bench.Sound given comparer ∧
      Pending comparer.text pending order ∧ bench.overspent work = false
  | .insertion bench frame order work => ∃ comparer : Comparer n, bench.Sound given comparer ∧
      frame.Fits comparer.text order ∧ bench.overspent work = false
  | .gaps bench depth first size widths order _ => ∃ (comparer : Comparer n) (base : Fin n),
      bench.Sound given comparer ∧ depth ≤ Bucket.deepest + 1 ∧
      Lined comparer.text depth base first (first + size) order ∧ ∀ gap ∈ widths, gap ≤ size
  | .pass bench depth _ first count place order _ =>
      ∃ (comparer : Comparer n) (base : Fin n) (stop : Nat), bench.Sound given comparer ∧
        depth ≤ Bucket.deepest + 1 ∧ Lined comparer.text depth base first stop order ∧
        first ≤ place ∧ ∀ i < count, place + i < stop
  | .sink bench depth _ first item order _ place =>
      ∃ (comparer : Comparer n) (base : Fin n) (stop : Nat) (position : Fin n),
        bench.Sound given comparer ∧ depth ≤ Bucket.deepest + 1 ∧
        Lined comparer.text depth base first stop order ∧ item = position.val ∧
        comparer.text.Agree depth position base ∧ place < stop
  | .comparison bench depth p q _ => ∃ (comparer : Comparer n) (one other : Fin n),
      bench.Sound given comparer ∧ depth ≤ Bucket.deepest + 1 ∧ p = one.val ∧ q = other.val ∧
      comparer.text.Agree depth one other

variable {given : Text n → Prop} {caller callee : Task}

/-- The rotations are filed before the first byte is visited. -/
theorem Calls.fine_of_rotations {slots : Array UInt8} {size : Nat} {budget : Option Nat}
    {space : SortSpace} (call : Calls (.rotations slots size budget space) callee)
    (fine : (Task.rotations slots size budget space).Fine given) : callee.Fine given := by
  cases call with
  | visits collected counted =>
    obtain ⟨rfl, text, known, cyclic, wide, long, cleared⟩ := fine
    obtain ⟨next, filed, begun⟩ := SortSpace.collect_spec cyclic wide long
    rw [filed, Option.some.injEq, Prod.mk.injEq] at collected
    obtain ⟨rfl, rfl⟩ := collected
    rw [SortSpace.rowSizes_spec (Rotation.collect_filed text) begun, Option.some.injEq] at counted
    rw [← counted, SortSpace.ofFn_getD]
    exact ⟨rfl, text, _, _, known, cyclic, SortSpace.visiting_collect cleared begun,
      Rotation.visited_collect text, rfl, rfl, rfl, Rotation.exhausted_zero _⟩

/-- A visit sorts its row, and draws its conclusions from the sorted row. -/
theorem Calls.fine_of_visits (small : n < SortSpace.mark) {slots : Array UInt8} {size : Nat}
    {budget : Option Nat} {index : Nat} {firsts : List UInt8} {sorted : ByteSet}
    {ranks : Array Nat} {progress : SortSpace.Progress}
    (call : Calls (.visits slots size budget index firsts sorted ranks progress) callee)
    (fine : (Task.visits slots size budget index firsts sorted ranks progress).Fine given) :
    callee.Fine given := by
  cases call with
  | row =>
    obtain ⟨rfl, text, table, rest, known, cyclic, visiting, visited, -, same, work, within⟩ := fine
    obtain ⟨marked, points, -⟩ := visiting.marked
    have models := visiting.models cyclic
    refine ⟨_, table.table, rest, marked, ⟨known, models _, visited.ranked⟩, visiting.filed, points,
      same, ?_⟩
    rw [(models _).overspent, work]
    exact within
  | @onward _ _ _ _ _ _ _ _ progress _ _ _ _ _ _ _ _ _ _ _ sorted going low high span records
      column places marks =>
    obtain ⟨order, starts, pending, work⟩ := progress
    obtain ⟨rfl, text, table, rest, known, cyclic, visiting, visited, rfl, rfl, rfl, within⟩ := fine
    obtain ⟨after, next, visited, same, filed, done, within⟩ := visiting.onward rest cyclic small
      visited within sorted going low high span records column places marks
    exact ⟨rfl, text, after, rest, known, cyclic, next, visited, same.symm, filed, done.symm,
      within⟩

/-- The buckets of a row are sorted one by one. -/
theorem Calls.fine_of_row (small : n < SortSpace.mark) {bench : Bench} {first : UInt8}
    {seconds : List UInt8} {progress : SortSpace.Progress}
    (call : Calls (.row bench first seconds progress) callee)
    (fine : (Task.row bench first seconds progress).Fine given) : callee.Fine given := by
  cases call with
  | bucket entryAt unmarked nextAt several =>
    obtain ⟨comparer, table, rest, marked, sound, filed, points, rfl, running⟩ := fine
    obtain ⟨start, stop⟩ := points.bounds small entryAt nextAt
    rw [start, stop]
    refine ⟨comparer, sound, ⟨?_, List.pairwise_singleton _ _⟩, running⟩
    rw [List.forall_mem_singleton]
    exact SortSpace.bucket_fits rest filed _ _
  | skip entryAt marked => exact fine
  | settle entryAt unmarked nextAt several drained going written =>
    obtain ⟨comparer, table, rest, marked, sound, filed, points, rfl, running⟩ := fine
    obtain ⟨start, stop⟩ := points.bounds small entryAt nextAt
    rw [start, stop] at several drained
    obtain ⟨next, filed, same⟩ :=
      SortSpace.drain_filed rest sound.models filed several running drained
    exact ⟨comparer, next, rest, _, sound, filed, points.put entryAt written, same, going⟩
  | mark entryAt unmarked nextAt few written =>
    obtain ⟨comparer, table, rest, marked, sound, filed, points, same, running⟩ := fine
    exact ⟨comparer, table, rest, _, sound, filed,
      points.put entryAt written, same, running⟩

theorem Calls.fine_of_ranges {bench : Bench} {pending : List Frame} {order : Array Nat}
    {work : Nat} (call : Calls (.ranges bench pending order work) callee)
    (fine : (Task.ranges bench pending order work).Fine given) : callee.Fine given := by
  cases call with
  | divide long divided =>
    obtain ⟨comparer, sound, pending, running⟩ := fine
    obtain ⟨parts, after, run, divides⟩ := Bench.divide_spec sound.models.slots
      (pending.fits _ (List.mem_cons_self ..)) long
    rw [run, Option.some.injEq, Prod.mk.injEq] at divided
    obtain ⟨rfl, rfl⟩ := divided
    exact ⟨comparer, sound, pending.divided divides, running⟩
  | insertion short =>
    obtain ⟨comparer, sound, pending, running⟩ := fine
    exact ⟨comparer, sound, pending.fits _ (List.mem_cons_self ..), running⟩
  | others short sorted going =>
    obtain ⟨comparer, sound, pending, running⟩ := fine
    obtain ⟨after, done, run, outside, -⟩ := Bench.insertionSort_range
      (sound.models.prepared sound.ranked) (pending.fits _ (List.mem_cons_self ..)) _
    rw [run, Option.some.injEq, Prod.mk.injEq] at sorted
    obtain ⟨rfl, rfl⟩ := sorted
    exact ⟨comparer, sound, pending.rest outside, going⟩

theorem Calls.fine_of_gaps {bench : Bench} {depth first size : Nat} {widths : List Nat}
    {order : Array Nat} {work : Nat} (call : Calls (.gaps bench depth first size widths order work)
      callee)
    (fine : (Task.gaps bench depth first size widths order work).Fine given) :
    callee.Fine given := by
  cases call with
  | pass =>
    obtain ⟨comparer, base, sound, shallow, lined, narrow⟩ := fine
    exact ⟨comparer, base, _, sound, shallow, lined, Nat.le_add_right _ _, fun i near => by omega⟩
  | narrow passed going =>
    obtain ⟨comparer, base, sound, shallow, lined, narrow⟩ := fine
    exact ⟨comparer, base, sound, shallow,
      lined.pass (Nat.le_add_right _ _) (fun i near => by omega) passed,
      fun gap member => narrow gap (List.mem_cons_of_mem _ member)⟩

theorem Calls.fine_of_pass {bench : Bench} {depth gap first count place : Nat}
    {order : Array Nat} {work : Nat}
    (call : Calls (.pass bench depth gap first count place order work) callee)
    (fine : (Task.pass bench depth gap first count place order work).Fine given) :
    callee.Fine given := by
  cases call with
  | sink itemAt =>
    obtain ⟨comparer, base, stop, sound, shallow, lined, above, fits⟩ := fine
    have below := fits 0 (Nat.succ_pos _)
    obtain ⟨position, same, agree⟩ := lined.read above below itemAt
    exact ⟨comparer, base, stop, position, sound, shallow, lined, same, agree, below⟩
  | advance itemAt sunk going =>
    obtain ⟨comparer, base, stop, sound, shallow, lined, above, fits⟩ := fine
    have below := fits 0 (Nat.succ_pos _)
    obtain ⟨position, rfl, agree⟩ := lined.read above below itemAt
    refine ⟨comparer, base, stop, sound, shallow, lined.sink agree below sunk,
      Nat.le_succ_of_le above, fun i near => ?_⟩
    exact (Nat.succ_add _ i).trans_lt (fits (i + 1) (Nat.succ_lt_succ near))

theorem Calls.fine_of_sink {bench : Bench} {depth gap first item place : Nat} {order : Array Nat}
    {work : Nat} (call : Calls (.sink bench depth gap first item order work place) callee)
    (fine : (Task.sink bench depth gap first item order work place).Fine given) :
    callee.Fine given := by
  cases call with
  | comparison room earlierAt =>
    obtain ⟨comparer, base, stop, position, sound, shallow, lined, rfl, agree, below⟩ := fine
    obtain ⟨moved, same, one⟩ := lined.read (Nat.le_sub_of_add_le room.2) (by omega) earlierAt
    exact ⟨comparer, moved, position, sound, shallow, same, rfl, one.join agree⟩
  | move room earlierAt more written =>
    obtain ⟨comparer, base, stop, position, sound, shallow, lined, rfl, agree, below⟩ := fine
    obtain ⟨moved, rfl, one⟩ := lined.read (Nat.le_sub_of_add_le room.2) (by omega) earlierAt
    exact ⟨comparer, base, stop, position, sound, shallow, lined.put one written, rfl, agree,
      by omega⟩

/-- A call leads from what holds of a task to what holds of the task that is called. -/
theorem Calls.fine (small : n < SortSpace.mark) (call : Calls caller callee)
    (fine : caller.Fine given) : callee.Fine given := by
  cases caller with
  | sort => exact fine.elim
  | rotations => exact call.fine_of_rotations fine
  | visits => exact call.fine_of_visits small fine
  | row => exact call.fine_of_row small fine
  | ranges => exact call.fine_of_ranges fine
  | gaps => exact call.fine_of_gaps fine
  | pass => exact call.fine_of_pass fine
  | sink => exact call.fine_of_sink fine
  | comparison => nomatch call
  | insertion =>
    cases call with
    | gaps =>
      obtain ⟨comparer, sound, fits, -⟩ := fine
      obtain ⟨base, lined⟩ := fits.lined
      refine ⟨comparer, base, sound, fits.shallow, ?_, fun gap member =>
        (Shell.lt_of_mem_gaps member).le⟩
      rwa [Nat.add_sub_cancel' fits.lo_le_hi]

/-- What holds of a task holds of all that it leads to. -/
theorem Leads.fine (small : n < SortSpace.mark) (leads : caller.Leads callee)
    (fine : caller.Fine given) : callee.Fine given := by
  induction leads with
  | refl => exact fine
  | tail _ call ih => exact call.fine small ih

variable {text flipped : Text n} {store : BlockStore} {space : SortSpace} {first : UInt8}
variable {back : List UInt8} {size : Nat}

theorem fine_rotations (room : Block.margin ≤ back.length) (wide : n ≤ space.order.size)
    (long : space.starts.size = pairCount + 1) (extent : n + Block.margin ≤ space.ranks.size)
    {slots : Array UInt8} {ranks : Array Nat}
    (prepared : BlockStore.prepare n (first :: text.toList ++ back).toArray = some slots)
    (cleared : BlockStore.clearRanks n space.ranks = some ranks) (known : given text)
    (budget : Option Nat) : (Task.rotations slots n budget { space with ranks }).Fine given := by
  obtain ⟨last, behind, prepares, -, cyclic⟩ := BlockStore.prepare_spec text first room
  obtain ⟨zeros, clears, -, zero⟩ := BlockStore.clearRanks_spec extent
  obtain rfl := Option.some.inj (prepared.symm.trans prepares)
  obtain rfl := Option.some.inj (cleared.symm.trans clears)
  exact ⟨rfl, text, known, cyclic, wide, long, zero⟩

theorem Calls.ready (small : n < SortSpace.mark)
    (slots : store.slots = (first :: text.toList ++ back).toArray) (holds : store.size = n)
    (room : Block.margin ≤ back.length) (sized : space.Sized size) (wide : n + 1 ≤ size)
    (flips : flipped.toList = Perturbation.flipAll .initial text.toList)
    (known : given text) (alike : given flipped) (call : Calls (.sort store space) callee) :
    callee.Fine given := by
  have order : n ≤ space.order.size := by
    rw [sized.order]
    omega
  have extent : n + Block.margin ≤ space.ranks.size := by
    rw [sized.ranks]
    omega
  cases call with
  | first positive prepared cleared =>
    rw [holds] at prepared cleared ⊢
    rw [slots] at prepared
    exact fine_rotations room order sized.starts extent prepared cleared known _
  | again positive prepared cleared sorted exceeded perturbed ready forgotten =>
    rw [holds] at prepared cleared sorted perturbed ready forgotten ⊢
    rw [slots] at prepared
    obtain ⟨last, behind, prepares, same, cyclic⟩ := BlockStore.prepare_spec text first room
    obtain ⟨zeros, clears, long, zero⟩ := BlockStore.clearRanks_spec extent
    obtain rfl := Option.some.inj (prepares.symm.trans prepared)
    obtain rfl := Option.some.inj (clears.symm.trans cleared)
    -- wherever the first sort has stopped, its arrays have kept their sizes
    obtain ⟨left, run, -, orders, starts, ranks⟩ := @SortSpace.sortRotations_spec n _ text _ cyclic
      small (some _) ⟨space.order, space.starts, zeros, space.pending⟩ order sized.starts zero
    rw [run, Option.some.injEq, Prod.mk.injEq] at sorted
    obtain ⟨rfl, -⟩ := sorted
    have flipping := @BlockStore.perturbFrom_spec [last] behind text.toList 0 rfl .initial {}
    rw [Vector.length_toList, ← flips] at flipping
    rw [List.singleton_append, List.singleton_append] at flipping
    rw [flipping, Option.some.injEq, Prod.mk.injEq] at perturbed
    obtain ⟨rfl, -⟩ := perturbed
    exact fine_rotations (same.symm ▸ room) (order.trans_eq orders.symm) starts
      (extent.trans_eq (ranks.trans long).symm) ready forgotten alike _

end Task

namespace BlockStore

variable {store : BlockStore} {space : SortSpace} {size : Nat}

/-- What a store holds, and what there is room for behind it. -/
theorem Sized.held (stored : store.Sized size) : ∃ text : Text store.size, ∃ first back,
    text.toList = store.bytes ∧ store.slots = (first :: text.toList ++ back).toArray ∧
      Block.margin ≤ back.length ∧ store.size + 1 ≤ size := by
  obtain ⟨⟨first, back, slots⟩, extent, -, holds, -⟩ := stored.shows
  have number : store.bytes.length = store.size := holds.symm
  refine ⟨⟨store.bytes.toArray, number⟩, first, back, rfl, slots, ?_⟩
  have room := stored.fits
  have whole : store.allowed + Block.margin = size := by
    rw [stored.allowed, Nat.sub_add_cancel stored.large]
  have total := congrArg Array.size slots
  rw [stored.slots] at total
  simp only [block, List.size_toArray, List.length_append, List.length_cons, number] at total
  rw [Block.margin] at whole total ⊢
  omega

/-- A text whose rotations a sort may compare: the stored bytes, as they are or perturbed. -/
def Offers (store : BlockStore) (text : Text store.size) : Prop :=
  text.toList = store.bytes ∨ text.toList = (Perturbation.apply store.bytes.toArray).toList

/-- All that a sort leads to goes on from ready bytes and from ranks that keep to the order. -/
theorem Sized.fine [Occupied store.size] (stored : store.Sized size) (small : size < SortSpace.mark)
    (sized : space.Sized size) {task : Task} (leads : (Task.sort store space).Leads task)
    (later : task ≠ .sort store space) : task.Fine store.Offers := by
  obtain ⟨text, first, back, bytes, slots, room, wide⟩ := stored.held
  have flipped : (Perturbation.apply store.bytes.toArray).size = store.size := by
    rw [Perturbation.size_apply, List.size_toArray, ← bytes, Vector.length_toList]
  rcases Relation.ReflTransGen.cases_head leads with rfl | ⟨callee, call, onward⟩
  · exact absurd rfl later
  · have perturbed : store.Offers ⟨_, flipped⟩ := .inr rfl
    refine Task.Leads.fine (by omega) onward (call.ready (by omega) slots rfl room sized wide ?_
      (.inl bytes) perturbed)
    rw [bytes]
    exact Perturbation.apply_eq _

end BlockStore

end BlockSort
