import BlockSort.Proofs.PrefixCode.HeapOrder

namespace BlockSort.PrefixCode.Heap

variable {α β : Type} {m n : Nat}

section Map

variable {meaning : Weighted α → Weighted β}

theorem map_swap (heap : Heap α n) (i j : Nat) (iBound : i < n) (jBound : j < n) :
    (heap.swap i j).map meaning = (heap.map meaning).swap i j := by
  apply Vector.ext
  intro place bound
  simp only [Vector.getElem_map, Vector.getElem_swap]
  split_ifs <;> rfl

theorem map_siftUp (same : ∀ entry, (meaning entry).weight = entry.weight) (heap : Heap α n)
    (place : Nat) (bound : place < n) :
    (siftUp heap place bound).map meaning = siftUp (heap.map meaning) place bound := by
  fun_induction siftUp heap place bound with
  | case1 heap place bound inner lighter ih =>
    rw [ih, map_swap, siftUp.eq_def (heap.map meaning) place, dif_pos inner]
    simp only [Vector.getElem_map, same, if_pos lighter]
  | case2 heap place bound inner heavier =>
    rw [siftUp, dif_pos inner]
    simp only [Vector.getElem_map, same, if_neg heavier]
  | case3 heap place bound top => rw [siftUp, dif_neg top]

theorem map_siftDown (same : ∀ entry, (meaning entry).weight = entry.weight) (heap : Heap α n)
    (place : Nat) : (siftDown heap place).map meaning = siftDown (heap.map meaning) place := by
  fun_induction siftDown heap place with
  | case1 heap place below both lighter least =>
    rw [siftDown, dif_pos below, dif_pos both]
    simp only [Vector.getElem_map, same, if_pos lighter, if_pos least]
  | case2 heap place below both lighter heavier ih =>
    rw [ih, map_swap, siftDown.eq_def (heap.map meaning) place, dif_pos below, dif_pos both]
    simp only [Vector.getElem_map, same, if_pos lighter, if_neg heavier]
  | case3 heap place below both heaviest least =>
    rw [siftDown, dif_pos below, dif_pos both]
    simp only [Vector.getElem_map, same, if_neg heaviest, if_pos least]
  | case4 heap place below both heaviest heavier ih =>
    rw [ih, map_swap, siftDown.eq_def (heap.map meaning) place, dif_pos below, dif_pos both]
    simp only [Vector.getElem_map, same, if_neg heaviest, if_neg heavier]
  | case5 heap place below single least =>
    rw [siftDown, dif_pos below, dif_neg single]
    simp only [Vector.getElem_map, same, if_pos least]
  | case6 heap place below single heavier ih =>
    rw [ih, map_swap, siftDown.eq_def (heap.map meaning) place, dif_pos below, dif_neg single]
    simp only [Vector.getElem_map, same, if_neg heavier]
  | case7 heap place leaf => rw [siftDown, dif_neg leaf]

theorem map_add (same : ∀ entry, (meaning entry).weight = entry.weight) (heap : Heap α n)
    (item : Weighted α) : (add heap item).map meaning = add (heap.map meaning) (meaning item) := by
  rw [add, map_siftUp same, Vector.map_push, add]

theorem map_takeLeast (same : ∀ entry, (meaning entry).weight = entry.weight)
    (heap : Heap α (n + 1)) : takeLeast (heap.map meaning) =
      (meaning heap.takeLeast.1, heap.takeLeast.2.map meaning) := by
  have refill : refilled (heap.map meaning) = (refilled heap).map meaning := by
    apply Vector.ext
    intro place bound
    simp only [getElem_refilled, Vector.getElem_map]
    split_ifs <;> rfl
  rw [takeLeast, takeLeast, map_siftDown same, refill, Vector.getElem_map]

end Map

/-- The first of some items make up a heap, and the others are still as they were given. -/
def Heaped (short : Heap α m) (given long : Heap α n) : Prop :=
  ∀ place (bound : place < n), long[place] = if near : place < m then short[place] else given[place]

variable {short : Heap α m} {given long : Heap α n}

theorem Heaped.get (heaped : Heaped short given long) (fits : m ≤ n) {place : Nat}
    (near : place < m) : long[place] = short[place] :=
  (heaped place (Nat.lt_of_lt_of_le near fits)).trans (dif_pos near)

theorem Heaped.swap (heaped : Heaped short given long) (fits : m ≤ n) {i j : Nat} (iBound : i < m)
    (jBound : j < m) : Heaped (short.swap i j) given (long.swap i j) := by
  intro place bound
  simp only [Vector.getElem_swap, heaped.get fits iBound, heaped.get fits jBound,
    heaped place bound]
  split_ifs <;> first | rfl | omega

theorem Heaped.siftUp (heaped : Heaped short given long) (fits : m ≤ n) {place : Nat}
    (bound : place < m) :
    Heaped (siftUp short place bound) given (siftUp long place (by omega)) := by
  fun_induction Heap.siftUp short place bound generalizing long with
  | case1 short place bound inner lighter ih =>
    have upper : (place - 1) / 2 < m := by omega
    rw [siftUp.eq_def long, dif_pos inner, heaped.get fits bound, heaped.get fits upper,
      if_pos lighter]
    exact ih (heaped.swap fits bound upper)
  | case2 short place bound inner heavier =>
    have upper : (place - 1) / 2 < m := by omega
    rw [siftUp.eq_def long, dif_pos inner, heaped.get fits bound, heaped.get fits upper,
      if_neg heavier]
    exact heaped
  | case3 short place bound top =>
    rw [siftUp.eq_def long, dif_neg top]
    exact heaped

theorem ofVector_eq {items : Heap α n} (grown : (count : Nat) → count ≤ n → Heap α count)
    (step : ∀ count (fits : count + 1 ≤ n),
      grown (count + 1) fits = (grown count (Nat.le_of_succ_le fits)).add items[count]) :
    ofVector items = grown n (Nat.le_refl n) := by
  have risen (count : Nat) (fits : count ≤ n) : Heaped (grown count fits) items
      (Fin.foldl count (fun (heap : Heap α n) place => siftUp heap place (by omega)) items) := by
    induction count with
    | zero =>
      intro place bound
      rw [Fin.foldl_zero, dif_neg (Nat.not_lt_zero place)]
    | succ count ih =>
      rw [Fin.foldl_succ_last, step]
      refine Heaped.siftUp (fun place bound => ?_) fits (Nat.lt_succ_self count)
      have before := ih (Nat.le_of_succ_le fits) place bound
      rcases Nat.lt_trichotomy place count with less | rfl | more
      · rw [dif_pos less] at before
        rw [dif_pos (by omega), Vector.getElem_push_lt less]
        exact before
      · rw [dif_neg (Nat.lt_irrefl place)] at before
        rw [dif_pos (Nat.lt_succ_self place), Vector.getElem_push_eq]
        exact before
      · rw [dif_neg (by omega)] at before ⊢
        exact before
  apply Vector.ext
  intro place bound
  rw [ofVector, risen n (Nat.le_refl n) place bound, dif_pos bound]

end BlockSort.PrefixCode.Heap
