import BlockSort.PrefixCode.Heap
import Mathlib

namespace BlockSort.PrefixCode.Heap

variable {α : Type} {n : Nat}

/-- No item among the first `size` is lighter than the one above it. -/
def Ordered (heap : Heap α n) (size : Nat) : Prop :=
  ∀ child (bound : child < n), child < size → 0 < child →
    heap[(child - 1) / 2].weight ≤ heap[child].weight

/-- The order but for an item that may be too light for its place. -/
structure Rising (heap : Heap α n) (size place : Nat) : Prop where
  others : ∀ child (bound : child < n), child < size → 0 < child → child ≠ place →
    heap[(child - 1) / 2].weight ≤ heap[child].weight
  beyond : ∀ child (bound : child < n), child < size → 0 < place → 0 < child →
    (inner : (child - 1) / 2 = place) → heap[(place - 1) / 2].weight ≤ heap[child].weight

/-- The order but for an item that may be too heavy for its place. -/
structure Sinking (heap : Heap α n) (place : Nat) : Prop where
  others : ∀ child (bound : child < n), 0 < child → (child - 1) / 2 ≠ place →
    heap[(child - 1) / 2].weight ≤ heap[child].weight
  beyond : ∀ child (bound : child < n), 0 < place → 0 < child →
    (inner : (child - 1) / 2 = place) → heap[(place - 1) / 2].weight ≤ heap[child].weight

theorem siftUp_perm (heap : Heap α n) (place : Nat) (bound : place < n) :
    (siftUp heap place bound).Perm heap := by
  fun_induction siftUp heap place bound with
  | case1 heap place bound inner lighter ih => exact ih.trans (Vector.swap_perm _ _)
  | case2 => exact .refl _
  | case3 => exact .refl _

theorem Rising.swap {heap : Heap α n} {size place : Nat} (rising : Rising heap size place)
    (bound : place < n) (within : place < size) (inner : 0 < place)
    (lighter : heap[place].weight < heap[(place - 1) / 2].weight) :
    Rising (heap.swap place ((place - 1) / 2)) size ((place - 1) / 2) := by
  have others := rising.others
  have beyond := rising.beyond
  constructor
  · intro child bound below positive different
    simp only [Vector.getElem_swap]
    grind
  · intro child bound below outer positive inside
    simp only [Vector.getElem_swap]
    grind

theorem siftUp_ordered {heap : Heap α n} {size place : Nat} (bound : place < n)
    (within : place < size) (rising : Rising heap size place) :
    Ordered (siftUp heap place bound) size := by
  fun_induction siftUp heap place bound with
  | case1 heap place bound inner lighter ih =>
    exact ih (by omega) (rising.swap bound within inner lighter)
  | case2 heap place bound inner heavier =>
    intro child bound below positive
    by_cases same : child = place
    · subst child
      exact UInt32.not_lt.mp heavier
    · exact rising.others child bound below positive same
  | case3 heap place bound top =>
    intro child bound below positive
    exact rising.others child bound below positive (by omega)

theorem siftDown_perm (heap : Heap α n) (place : Nat) : (siftDown heap place).Perm heap := by
  fun_induction siftDown heap place with
  | case1 | case3 | case5 | case7 => exact .refl _
  | case2 heap place below both lighter heavier ih => exact ih.trans (Vector.swap_perm _ _)
  | case4 heap place below both lighter heavier ih => exact ih.trans (Vector.swap_perm _ _)
  | case6 heap place below single heavier ih => exact ih.trans (Vector.swap_perm _ _)

/-- An item that is exchanged with the lightest one below it is out of order there at most. -/
theorem Sinking.swap {heap : Heap α n} {place lower : Nat} (sinking : Sinking heap place)
    (bound : lower < n) (inner : (lower - 1) / 2 = place) (positive : 0 < lower)
    (heavier : heap[lower].weight ≤ heap[place].weight)
    (lightest : ∀ child (inside : child < n), 0 < child → (child - 1) / 2 = place →
      heap[lower].weight ≤ heap[child].weight) :
    Sinking (heap.swap place lower) lower := by
  have others := sinking.others
  have beyond := sinking.beyond
  constructor
  · intro child inside nonzero different
    simp only [Vector.getElem_swap]
    grind
  · intro child inside nonzero outer within
    simp only [Vector.getElem_swap]
    grind

/-- The order is complete where no item below the place is lighter. -/
theorem Sinking.settle {heap : Heap α n} {place : Nat} (sinking : Sinking heap place)
    (lightest : ∀ inside : place < n, ∀ child (bound : child < n), 0 < child →
      (child - 1) / 2 = place → heap[place].weight ≤ heap[child].weight) : Ordered heap n := by
  intro child bound below positive
  by_cases inner : (child - 1) / 2 = place
  · subst place
    exact lightest (by omega) child bound positive rfl
  · exact sinking.others child bound positive inner

/-- Below a place there are two at most. -/
theorem forall_children {heap : Heap α n} {place : Nat} {weight : UInt32}
    (left : ∀ bound : 2 * place + 1 < n, weight ≤ heap[2 * place + 1].weight)
    (right : ∀ bound : 2 * place + 2 < n, weight ≤ heap[2 * place + 2].weight) :
    ∀ child (bound : child < n), 0 < child → (child - 1) / 2 = place →
      weight ≤ heap[child].weight := by
  intro child bound positive inner
  obtain rfl | rfl : child = 2 * place + 1 ∨ child = 2 * place + 2 := by omega
  · exact left bound
  · exact right bound

theorem siftDown_ordered {heap : Heap α n} {place : Nat} (sinking : Sinking heap place) :
    Ordered (siftDown heap place) n := by
  fun_induction siftDown heap place with
  | case1 heap place below both lighter least =>
    exact sinking.settle fun _ => forall_children
      (fun _ => UInt32.le_of_lt (UInt32.lt_trans least lighter)) (fun _ => UInt32.le_of_lt least)
  | case2 heap place below both lighter heavier ih =>
    exact ih (sinking.swap both (by omega) (by omega) (UInt32.not_lt.mp heavier)
      (forall_children (fun _ => UInt32.le_of_lt lighter) fun _ => UInt32.le_refl _))
  | case3 heap place below both heaviest least =>
    have least := UInt32.le_of_lt least
    exact sinking.settle fun _ => forall_children (fun _ => least)
      (fun _ => UInt32.le_trans least (UInt32.not_lt.mp heaviest))
  | case4 heap place below both heaviest heavier ih =>
    exact ih (sinking.swap below (by omega) (by omega) (UInt32.not_lt.mp heavier)
      (forall_children (fun _ => UInt32.le_refl _) fun _ => UInt32.not_lt.mp heaviest))
  | case5 heap place below single least =>
    exact sinking.settle fun _ => forall_children (fun _ => UInt32.le_of_lt least)
      (fun both => absurd both single)
  | case6 heap place below single heavier ih =>
    exact ih (sinking.swap below (by omega) (by omega) (UInt32.not_lt.mp heavier)
      (forall_children (fun _ => UInt32.le_refl _) fun both => absurd both single))
  | case7 heap place leaf =>
    exact sinking.settle fun _ => forall_children (fun below => absurd below leaf) (by omega)

theorem foldl_siftUp (items : Heap α n) (count : Nat) (fits : count ≤ n) :
    (Fin.foldl count (fun (heap : Heap α n) place => siftUp heap place (by omega)) items).Perm
        items ∧
      Ordered (Fin.foldl count (fun (heap : Heap α n) place => siftUp heap place (by omega)) items)
        count := by
  induction count with
  | zero => exact ⟨.refl _, fun child bound below positive => by omega⟩
  | succ count ih =>
    obtain ⟨perm, ordered⟩ := ih (by omega)
    rw [Fin.foldl_succ_last]
    refine ⟨(siftUp_perm _ _ _).trans perm, siftUp_ordered _ (Nat.lt_succ_self count) ?_⟩
    constructor
    · intro child bound below positive different
      have different : child ≠ count := different
      exact ordered child bound (by omega) positive
    · intro child bound below positive nonzero inner
      have inner : (child - 1) / 2 = count := inner
      omega

theorem ofVector_perm (items : Heap α n) : (ofVector items).Perm items :=
  (foldl_siftUp items n (Nat.le_refl n)).1

theorem ofVector_ordered (items : Heap α n) : Ordered (ofVector items) n :=
  (foldl_siftUp items n (Nat.le_refl n)).2

theorem add_perm (heap : Heap α n) (item : Weighted α) :
    (add heap item).toList.Perm (item :: heap.toList) := by
  have pushed := (siftUp_perm (heap.push item) n (Nat.lt_succ_self n)).toList
  refine pushed.trans ?_
  rw [Vector.toList_push]
  exact List.perm_append_singleton item heap.toList

theorem add_ordered {heap : Heap α n} (ordered : Ordered heap n) (item : Weighted α) :
    Ordered (add heap item) (n + 1) := by
  apply siftUp_ordered _ (Nat.lt_succ_self n)
  constructor
  · intro child bound below positive different
    have inside := ordered child (by omega) (by omega) positive
    rw [Vector.getElem_push_lt, Vector.getElem_push_lt]
    · exact inside
  · intro child bound below positive nonzero inner
    omega

theorem Ordered.front_le {heap : Heap α n} (ordered : Ordered heap n) (place : Nat)
    (bound : place < n) : heap[0].weight ≤ heap[place].weight := by
  induction place using Nat.strongRecOn with
  | ind place ih =>
    by_cases top : place = 0
    · subst place
      exact UInt32.le_refl _
    · exact UInt32.le_trans (ih ((place - 1) / 2) (by omega) (by omega))
        (ordered place bound bound (by omega))

theorem getElem_refilled (heap : Heap α (n + 1)) (place : Nat) (bound : place < n) :
    (refilled heap)[place] = if place = 0 then heap[n] else heap[place] := by
  rw [refilled, Vector.getElem_pop', Vector.getElem_set]
  simp only [eq_comm]

private theorem refilled_perm (heap : Heap α (n + 1)) :
    (heap.takeLeast.1 :: (refilled heap).toList).Perm heap.toList := by
  obtain ⟨⟨items⟩, size⟩ := heap
  simp only [List.size_toArray] at size
  have occupied : 0 < items.length := by omega
  obtain ⟨front, rest, rfl⟩ := List.exists_cons_of_length_pos occupied
  rcases List.eq_nil_or_concat' rest with rfl | ⟨middle, last, rfl⟩
  · have zero : n = 0 := by simpa using size.symm
    subst zero
    simp [takeLeast, refilled]
  · have count : n = middle.length + 1 := by simpa using size.symm
    subst count
    have taken : (last :: (middle ++ [last])).dropLast = last :: middle := by
      rw [← List.cons_append, List.dropLast_concat]
    simpa [takeLeast, refilled, Vector.toList_pop, taken] using
      (List.perm_append_singleton last middle).symm

theorem takeLeast_perm (heap : Heap α (n + 1)) :
    (heap.takeLeast.1 :: heap.takeLeast.2.toList).Perm heap.toList :=
  ((siftDown_perm (refilled heap) 0).toList.cons _).trans (refilled_perm heap)

theorem takeLeast_ordered {heap : Heap α (n + 1)} (ordered : Ordered heap (n + 1)) :
    Ordered heap.takeLeast.2 n := by
  have sinking : Sinking (refilled heap) 0 := by
    constructor
    · intro child bound positive different
      have inside := ordered child (by omega) (by omega) positive
      rw [getElem_refilled, getElem_refilled, if_neg different, if_neg (by omega)]
      exact inside
    · intro child bound positive nonzero inner
      omega
  exact siftDown_ordered sinking

theorem takeLeast_le {heap : Heap α (n + 1)} (ordered : Ordered heap (n + 1)) :
    ∀ item ∈ heap.toList, heap.takeLeast.1.weight ≤ item.weight := by
  intro item member
  obtain ⟨place, bound, rfl⟩ := List.getElem_of_mem member
  have inside : place < n + 1 := by simpa using bound
  rw [Vector.getElem_toList]
  exact ordered.front_le place inside

end BlockSort.PrefixCode.Heap
