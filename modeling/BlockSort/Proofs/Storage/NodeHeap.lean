import BlockSort.Proofs.PrefixCode.HeapOrder
import BlockSort.Proofs.Storage.Segment
import BlockSort.Storage.NodeSpace

namespace BlockSort.NodeSpace

open PrefixCode (Heap Weight Weighted)

variable {n : Nat} {weights : Array Weight} {cells : Array Nat}
variable {heap : Heap Nat n} {place count : Nat}

/-- From place 1 on the cells hold the nodes of the first items of a heap, but for a gap at one
place. -/
def Lists (cells : Array Nat) (heap : Heap Nat n) (gap count : Nat) : Prop :=
  ∀ place (bound : place < n), place < count → place ≠ gap →
    cells[place + 1]? = some heap[place].item

/-- The nodes of all items weigh what the items do. -/
def Weighs (weights : Array Weight) (heap : Heap Nat n) : Prop :=
  ∀ entry ∈ heap.toList, weights[entry.item]? = some entry.weight

theorem Weighs.perm {m : Nat} {other : Heap Nat m} (weighs : Weighs weights heap)
    (perm : other.toList.Perm heap.toList) : Weighs weights other :=
  fun entry member => weighs entry (perm.mem_iff.mp member)

theorem Weighs.get (weighs : Weighs weights heap) (bound : place < n) :
    weights[heap[place].item]? = some heap[place].weight :=
  weighs _ (by simp)

theorem Weighs.swap (weighs : Weighs weights heap) (i j : Nat) (iBound : i < n)
    (jBound : j < n) : Weighs weights (heap.swap i j) :=
  weighs.perm (Vector.swap_perm iBound jBound).toList

theorem Lists.fill (lists : Lists cells heap place count) (bound : place < n)
    (room : place + 1 < cells.size) :
    ∃ after, Cells.put cells (place + 1) heap[place].item = some after ∧
      Lists after heap count count ∧ after.size = cells.size ∧ after[0]? = cells[0]? := by
  refine ⟨_, Cells.put_of_lt room _, fun other inside within _ => ?_, Array.size_set .., ?_⟩
  · by_cases same : other = place
    · subst same
      exact Array.getElem?_set_self ..
    · rw [Array.getElem?_set_ne _ (by omega)]
      exact lists other inside within same
  · exact Array.getElem?_set_ne _ (by omega)

/-- The item at another place is moved into the gap, and leaves a new one. -/
theorem Lists.move {other : Nat} (lists : Lists cells heap place count) (bound : place < n)
    (inside : other < n) (room : place + 1 < cells.size) :
    ∃ after, Cells.put cells (place + 1) heap[other].item = some after ∧
      Lists after (heap.swap place other) other count ∧ after.size = cells.size ∧
      after[0]? = cells[0]? := by
  refine ⟨_, Cells.put_of_lt room _, fun third near within apart => ?_, Array.size_set .., ?_⟩
  · by_cases same : third = place
    · subst same
      rw [Vector.getElem_swap_left]
      exact Array.getElem?_set_self ..
    · rw [Array.getElem?_set_ne _ (by omega), Vector.getElem_swap_of_ne same apart]
      exact lists third near within same
  · exact Array.getElem?_set_ne _ (by omega)

/-- An item rises as far as it does by exchanges; node 0 stops it at the latest. -/
theorem rise_eq (room : count < cells.size) (bound : place < n) (within : place < count)
    (front : cells[0]? = some 0) (least : weights[0]? = some 0)
    (lists : Lists cells heap place count) (weighs : Weighs weights heap) :
    ∃ after, rise weights heap[place].item heap[place].weight cells (place + 1) =
        some after ∧
      Lists after (heap.siftUp place bound) count count ∧ after.size = cells.size ∧
      after[0]? = some 0 := by
  fun_induction Heap.siftUp heap place bound generalizing cells with
  | case1 heap place bound inner lighter ih =>
    have half : (place + 1) / 2 = (place - 1) / 2 + 1 := by omega
    have upper : (place - 1) / 2 < n := by omega
    obtain ⟨moved, written, next, size, kept⟩ :=
      lists.move bound upper (by omega : place + 1 < cells.size)
    obtain ⟨after, run, result⟩ := ih (by omega) (by omega) (kept.trans front) next
      (weighs.swap place _ bound upper)
    rw [Vector.getElem_swap_right] at run
    refine ⟨after, ?_, result.1, result.2.1.trans size, result.2.2⟩
    rw [rise, half, lists _ upper (by omega) (by omega)]
    simp only [Option.bind_eq_bind, Option.bind_some, weighs.get upper, if_pos lighter]
    rw [dif_pos (Nat.succ_pos place), written, Option.bind_some]
    exact run
  | case2 heap place bound inner heavier =>
    have half : (place + 1) / 2 = (place - 1) / 2 + 1 := by omega
    have upper : (place - 1) / 2 < n := by omega
    obtain ⟨after, written, filled, size, kept⟩ :=
      lists.fill bound (by omega : place + 1 < cells.size)
    refine ⟨after, ?_, filled, size, kept.trans front⟩
    rw [rise, half, lists _ upper (by omega) (by omega)]
    simp only [Option.bind_eq_bind, Option.bind_some, weighs.get upper, if_neg heavier]
    exact written
  | case3 heap place bound top =>
    obtain rfl : place = 0 := by omega
    obtain ⟨after, written, filled, size, kept⟩ :=
      lists.fill bound (by omega : 0 + 1 < cells.size)
    refine ⟨after, ?_, filled, size, kept.trans front⟩
    rw [rise, show (0 + 1) / 2 = 0 from rfl, front]
    simp only [Option.bind_eq_bind, Option.bind_some, least, if_neg UInt32.not_lt_zero]
    exact written

theorem lighter_eq (lists : Lists cells heap place n) (weighs : Weighs weights heap)
    (below : 2 * place + 1 < n) :
    lighter weights cells n (place + 1) = some (if both : 2 * place + 2 < n then
      if heap[2 * place + 2].weight < heap[2 * place + 1].weight then 2 * place + 3
      else 2 * place + 2 else 2 * place + 2) := by
  have twice : 2 * (place + 1) = 2 * place + 1 + 1 := by omega
  rw [lighter, twice]
  by_cases both : 2 * place + 2 < n
  · rw [if_pos both, dif_pos both, lists (2 * place + 2) both both (by omega),
      lists (2 * place + 1) below below (by omega)]
    simp only [Option.bind_eq_bind, Option.bind_some, weighs.get both, weighs.get below]
    rfl
  · rw [if_neg both, dif_neg both]

/-- Either the item that sinks is lighter than the one that is chosen below the gap, or that one
moves up. -/
theorem sink_step {lower item : Nat} {weight : Weight}
    (lists : Lists cells heap place n) (weighs : Weighs weights heap)
    (below : 2 * place + 1 < n) (inside : lower < n) (apart : lower ≠ place)
    (chosen : lighter weights cells n (place + 1) = some (lower + 1)) :
    sink weights n item weight cells (place + 1) =
      if weight < heap[lower].weight then Cells.put cells (place + 1) item
      else (Cells.put cells (place + 1) heap[lower].item).bind fun cells =>
        sink weights n item weight cells (lower + 1) := by
  rw [sink, dif_pos (by omega)]
  split
  · rename_i missing
    rw [chosen] at missing
    cases missing
  · rename_i found
    rw [chosen, Option.some.injEq] at found
    subst found
    rw [lists lower inside inside apart]
    simp only [Option.bind_eq_bind, Option.bind_some, weighs.get inside]

/-- Where the chosen item moves up, the gap sinks below it. -/
theorem sink_on {lower : Nat} (room : n < cells.size) (bound : place < n)
    (lists : Lists cells heap place n) (weighs : Weighs weights heap)
    (below : 2 * place + 1 < n) (inside : lower < n) (apart : lower ≠ place)
    (chosen : lighter weights cells n (place + 1) = some (lower + 1))
    (heavier : ¬heap[place].weight < heap[lower].weight) :
    ∃ moved, sink weights n heap[place].item heap[place].weight cells (place + 1) =
        sink weights n (heap.swap place lower)[lower].item (heap.swap place lower)[lower].weight
          moved (lower + 1) ∧
      Lists moved (heap.swap place lower) lower n ∧ moved.size = cells.size ∧
      moved[0]? = cells[0]? := by
  obtain ⟨moved, written, next, size, kept⟩ := lists.move bound inside (by omega)
  refine ⟨moved, ?_, next, size, kept⟩
  rw [sink_step lists weighs below inside apart chosen, if_neg heavier, written,
    Vector.getElem_swap_right]
  rfl

/-- An item sinks as far as it does by exchanges. -/
theorem sink_eq (room : n < cells.size) (bound : place < n)
    (lists : Lists cells heap place n) (weighs : Weighs weights heap) :
    ∃ after, sink weights n heap[place].item heap[place].weight cells (place + 1) =
        some after ∧
      Lists after (heap.siftDown place) n n ∧ after.size = cells.size ∧
      after[0]? = cells[0]? := by
  fun_induction Heap.siftDown heap place generalizing cells with
  | case1 heap place below both lighter least =>
    rw [sink_step lists weighs below both (by omega)
      ((lighter_eq lists weighs below).trans (by simp [both, lighter])), if_pos least]
    exact lists.fill bound (by omega)
  | case2 heap place below both lighter heavier ih =>
    obtain ⟨moved, on, next, size, kept⟩ := sink_on room bound lists weighs below both (by omega)
      ((lighter_eq lists weighs below).trans (by simp [both, lighter])) heavier
    obtain ⟨after, run, result⟩ := ih (by omega) both next (weighs.swap _ _ bound both)
    exact ⟨after, on.trans run, result.1, result.2.1.trans size, result.2.2.trans kept⟩
  | case3 heap place below both heaviest least =>
    rw [sink_step lists weighs below below (by omega)
      ((lighter_eq lists weighs below).trans (by simp [both, heaviest])), if_pos least]
    exact lists.fill bound (by omega)
  | case4 heap place below both heaviest heavier ih =>
    obtain ⟨moved, on, next, size, kept⟩ := sink_on room bound lists weighs below below (by omega)
      ((lighter_eq lists weighs below).trans (by simp [both, heaviest])) heavier
    obtain ⟨after, run, result⟩ := ih (by omega) below next (weighs.swap _ _ bound below)
    exact ⟨after, on.trans run, result.1, result.2.1.trans size, result.2.2.trans kept⟩
  | case5 heap place below single least =>
    rw [sink_step lists weighs below below (by omega)
      ((lighter_eq lists weighs below).trans (by simp [single])), if_pos least]
    exact lists.fill bound (by omega)
  | case6 heap place below single heavier ih =>
    obtain ⟨moved, on, next, size, kept⟩ := sink_on room bound lists weighs below below (by omega)
      ((lighter_eq lists weighs below).trans (by simp [single])) heavier
    obtain ⟨after, run, result⟩ := ih (by omega) below next (weighs.swap _ _ bound below)
    exact ⟨after, on.trans run, result.1, result.2.1.trans size, result.2.2.trans kept⟩
  | case7 heap place leaf =>
    rw [sink, dif_neg (by omega)]
    exact lists.fill bound (by omega)

/-- A space holds the nodes of a heap, with what they weigh, and node 0 above them. -/
structure Holds (space : NodeSpace) (heap : Heap Nat n) : Prop where
  count : space.count = n
  room : n < space.heap.size
  front : space.heap[0]? = some 0
  least : space.weights[0]? = some 0
  lists : Lists space.heap heap n n
  weighs : Weighs space.weights heap

variable {space : NodeSpace}

theorem Holds.takeLeast {heap : Heap Nat (n + 1)} (holds : Holds space heap) :
    ∃ cells, space.takeLeast =
        some (heap.takeLeast.1.item, { space with heap := cells, count := n }) ∧
      Holds { space with heap := cells, count := n } heap.takeLeast.2 ∧
      cells.size = space.heap.size := by
  obtain ⟨count, room, front, least, lists, weighs⟩ := holds
  have first := lists 0 (Nat.succ_pos n) (Nat.succ_pos n) (Nat.succ_ne_zero n).symm
  have last := lists n (Nat.lt_succ_self n) (Nat.lt_succ_self n) (Nat.succ_ne_self n).symm
  have wide : 1 < space.heap.size := by omega
  obtain ⟨filled, written, kept⟩ : ∃ filled,
      Cells.put space.heap 1 heap[n].item = some filled ∧
        filled = space.heap.set 1 heap[n].item wide :=
    ⟨_, Cells.put_of_lt wide _, rfl⟩
  have size : filled.size = space.heap.size := by rw [kept, Array.size_set]
  have zero : filled[0]? = some 0 := by
    rw [kept, Array.getElem?_set_ne _ (by omega), front]
  have weighs' : Weighs space.weights heap.takeLeast.2 := fun entry member =>
    weighs entry ((PrefixCode.Heap.takeLeast_perm heap).mem_iff.mp (List.mem_cons_of_mem _ member))
  suffices sunk : ∃ after, sink space.weights n heap[n].item heap[n].weight filled 1 =
      some after ∧ Lists after heap.takeLeast.2 n n ∧ after.size = filled.size ∧
      after[0]? = filled[0]? by
    obtain ⟨after, run, lists', size', zero'⟩ := sunk
    refine ⟨after, ?_, ⟨rfl, ?_, zero'.trans zero, least, lists', weighs'⟩, size'.trans size⟩
    · rw [NodeSpace.takeLeast, first, count, last]
      simp only [Option.bind_eq_bind, Option.bind_some]
      rw [written, Option.bind_some, Cells.minus, if_pos (Nat.le_add_left 1 n), Option.bind_some,
        weighs.get (Nat.lt_succ_self n), Option.bind_some, Nat.add_sub_cancel, run]
      rfl
    · dsimp only
      omega
  rcases Nat.eq_zero_or_pos n with rfl | several
  · -- the only place is beyond the heap then
    refine ⟨filled, ?_, fun place bound => absurd bound (Nat.not_lt_zero place), rfl, rfl⟩
    subst kept
    rw [sink, dif_neg (by omega), Cells.put_of_lt (by rwa [size]), Array.set_set]
  · have gap : Lists filled heap.refilled 0 n := by
      intro place bound within apart
      rw [kept, Array.getElem?_set_ne _ (by omega), PrefixCode.Heap.getElem_refilled _ _ bound,
        if_neg apart]
      exact lists place (by omega) (by omega) (by omega)
    have refilled : Weighs space.weights heap.refilled := weighs'.perm
      (PrefixCode.Heap.siftDown_perm heap.refilled 0).toList.symm
    obtain ⟨after, run, result⟩ := sink_eq (by omega) several gap refilled
    rw [PrefixCode.Heap.getElem_refilled, if_pos rfl] at run
    exact ⟨after, run, result⟩

theorem Holds.add (holds : Holds space heap) (item : Weighted Nat)
    (room : n + 1 < space.heap.size) (weighs : space.weights[item.item]? = some item.weight) :
    ∃ cells, space.add item.item = some { space with heap := cells, count := n + 1 } ∧
      Holds { space with heap := cells, count := n + 1 } (heap.add item) ∧
      cells.size = space.heap.size := by
  obtain ⟨count, _, front, least, lists, others⟩ := holds
  have pushed : Weighs space.weights (heap.push item) := by
    intro entry member
    rw [Vector.toList_push, List.mem_append, List.mem_singleton] at member
    rcases member with member | rfl
    · exact others entry member
    · exact weighs
  have gap : Lists (space.heap.set (n + 1) item.item room) (heap.push item) n (n + 1) := by
    intro place bound within apart
    have inside : place < n := by omega
    rw [Array.getElem?_set_ne _ (by omega), Vector.getElem_push_lt inside]
    exact lists place inside inside (by omega)
  obtain ⟨after, run, result, size, zero⟩ := rise_eq (by simpa using room) (Nat.lt_succ_self n)
    (Nat.lt_succ_self n) ((Array.getElem?_set_ne _ (by omega)).trans front) least gap pushed
  rw [Vector.getElem_push_eq] at run
  rw [Array.size_set] at size
  refine ⟨after, ?_, ⟨rfl, ?_, zero, least, result, ?_⟩, size⟩
  · rw [NodeSpace.add, count, Cells.put_of_lt room]
    simp only [Option.bind_eq_bind, Option.bind_some, weighs]
    rw [run]
    rfl
  · dsimp only
    omega
  · exact pushed.perm (PrefixCode.Heap.siftUp_perm _ _ _).toList

end BlockSort.NodeSpace
