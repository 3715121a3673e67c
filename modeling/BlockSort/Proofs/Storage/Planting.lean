import BlockSort.Proofs.Storage.Nodes
import BlockSort.Proofs.Storage.Store

namespace BlockSort

open PrefixCode (Heap Weight Weighted Forest Weighed)

namespace NodeSpace

variable {n : Nat} {space : NodeSpace} {leaves : Vector Weight n} {frequency : Fin n → Nat}

/-- The heap that the leaves of the first symbols make up when they are added in order. -/
def grove (leaves : Vector Weight n) : (count : Nat) → count ≤ n → Heap Nat count
  | 0, _ => #v[]
  | count + 1, fits =>
    (grove leaves count (Nat.le_of_succ_le fits)).add ⟨leaves[count], count + 1⟩

theorem grove_perm (count : Nat) (fits : count ≤ n) : (grove leaves count fits).toList.Perm
    (List.ofFn fun place : Fin count => ⟨leaves.get (place.castLE fits), place.val + 1⟩) := by
  induction count with
  | zero => exact .refl _
  | succ count ih =>
    rw [List.ofFn_succ_last]
    refine (Heap.add_perm _ _).trans ?_
    exact ((ih (Nat.le_of_succ_le fits)).cons _).trans (List.perm_append_singleton _ _).symm

theorem grove_ordered (count : Nat) (fits : count ≤ n) :
    Heap.Ordered (grove leaves count fits) count := by
  induction count with
  | zero => exact fun child bound => absurd bound (Nat.not_lt_zero child)
  | succ count ih => exact Heap.add_ordered (ih _) _

/-- Some leaves are in the heap, and all of them are roots. -/
structure Planted (space : NodeSpace) (leaves : Vector Weight n) (count : Nat) (fits : count ≤ n) :
    Prop where
  nodes : space.nodes = n
  roomy : space.Roomy n
  bears : space.Bears leaves
  holds : space.Holds (grove leaves count fits)
  free : ∀ node ≤ count, space.parents[node]? = some none

theorem Planted.succ {count : Nat} {fits : count + 1 ≤ n}
    (planted : space.Planted leaves count (Nat.le_of_succ_le fits)) :
    ∃ next, (do
      let parents ← Cells.put space.parents (count + 1) none
      add { space with parents } (count + 1)) = some next ∧
        next.Planted leaves (count + 1) fits := by
  obtain ⟨nodes, ⟨roomHeap, roomWeights, roomParents⟩, bears, holds, free⟩ := planted
  obtain ⟨parents, written, size, parentAt⟩ := Cells.put_spec
    (show count + 1 < space.parents.size by omega) (none : Option Nat)
  have kept : Holds { space with parents } (grove leaves count (Nat.le_of_succ_le fits)) :=
    ⟨holds.count, holds.room, holds.front, holds.least, holds.lists, holds.weighs⟩
  obtain ⟨cells, added, held, wide⟩ := kept.add ⟨leaves[count], count + 1⟩
    (by dsimp only; omega) (bears ⟨count, fits⟩)
  rw [written, Option.bind_eq_bind, Option.bind_some, added]
  refine ⟨_, rfl, nodes, ⟨?_, roomWeights, ?_⟩, bears, held, fun node within => ?_⟩
  · exact roomHeap.trans_eq wide.symm
  · exact roomParents.trans_eq size.symm
  · rw [parentAt]
    split
    · rfl
    · exact free node (by omega)

theorem plant_spec (positive : 0 < n) (roomy : space.Roomy n) (bears : space.Bears leaves) :
    ∃ next, space.plant n = some next ∧ next.Planted leaves n (Nat.le_refl n) := by
  obtain ⟨roomHeap, roomWeights, roomParents⟩ := roomy
  obtain ⟨cells, putHeap, heapSize, heapAt⟩ := Cells.put_spec
    (show 0 < space.heap.size by omega) 0
  obtain ⟨weights, putWeight, weightsSize, weightsAt⟩ := Cells.put_spec
    (show 0 < space.weights.size by omega) (0 : Weight)
  obtain ⟨parents, putParent, parentsSize, parentsAt⟩ := Cells.put_spec
    (show 0 < space.parents.size by omega) (none : Option Nat)
  have first : Planted ⟨cells, weights, parents, 0, n⟩ leaves 0 (Nat.zero_le n) := by
    refine ⟨rfl, ⟨?_, ?_, ?_⟩, fun symbol => ?_, ⟨rfl, ?_, ?_, ?_, ?_, ?_⟩, fun node within => ?_⟩
    · exact roomHeap.trans_eq heapSize.symm
    · exact roomWeights.trans_eq weightsSize.symm
    · exact roomParents.trans_eq parentsSize.symm
    · exact (weightsAt _).trans ((if_neg (Nat.succ_ne_zero _)).trans (bears symbol))
    · dsimp only
      omega
    · exact (heapAt 0).trans (if_pos rfl)
    · exact (weightsAt 0).trans (if_pos rfl)
    · exact fun place bound => absurd bound (Nat.not_lt_zero place)
    · exact fun entry member => absurd member (by simp [grove])
    · exact (parentsAt node).trans (if_pos (Nat.le_zero.mp within))
  rw [plant, putHeap, putWeight, putParent]
  simp only [Option.bind_eq_bind, Option.bind_some]
  have grown (count : Nat) (fits : count ≤ n) : ∃ next,
      (List.range count).foldlM (fun space symbol => do
        let parents ← Cells.put space.parents (symbol + 1) none
        add { space with parents } (symbol + 1)) (⟨cells, weights, parents, 0, n⟩ : NodeSpace) =
        some next ∧ next.Planted leaves count fits := by
    induction count with
    | zero => exact ⟨_, rfl, first⟩
    | succ count ih =>
      obtain ⟨before, run, planted⟩ := ih (Nat.le_of_succ_le fits)
      obtain ⟨next, step, result⟩ := planted.succ
      refine ⟨next, ?_, result⟩
      rw [List.range_succ, List.foldlM_append, run]
      simpa using step
  exact grown n (Nat.le_refl n)

/-- The tree of a leaf. -/
def leafTree (positive : 0 < n) (node : Nat) : PrefixCode.Tree (Fin n) :=
  .leaf ⟨(node - 1) % n, Nat.mod_lt _ positive⟩

theorem leafTree_succ (positive : 0 < n) (symbol : Fin n) :
    leafTree positive (symbol.val + 1) = .leaf symbol := by
  simp only [leafTree, Nat.add_sub_cancel, Nat.mod_eq_of_lt symbol.isLt]

theorem exists_symbol {node : Nat} (positive : 1 ≤ node) (within : node ≤ n) :
    ∃ symbol : Fin n, node = symbol.val + 1 := ⟨⟨node - 1, by omega⟩, by simp; omega⟩

theorem Planted.rooted (positive : 0 < n) (planted : space.Planted leaves n (Nat.le_refl n)) :
    space.Rooted leaves (leafTree positive) (grove leaves n (Nat.le_refl n)) := by
  obtain ⟨nodes, roomy, bears, holds, free⟩ := planted
  have perm := @grove_perm _ leaves n (Nat.le_refl n)
  refine ⟨roomy, bears, holds, by omega, nodes.ge, ?_, fun node within above linked => ?_,
    leafTree_succ positive, fun node above within => ?_, grove_ordered n _⟩
  · have all : (List.range' 1 n).filter (fun node => space.parents[node]? = some none) =
        List.range' 1 n := List.filter_eq_self.mpr fun node member => by
      rw [List.mem_range'_1] at member
      exact decide_eq_true (free node (by omega))
    rw [nodes, all]
    refine (perm.map Weighted.item).trans (.of_eq (List.ext_getElem (by simp) fun i _ _ => ?_))
    simp [Nat.add_comm]
  · rw [free node (by omega)] at linked
    cases linked
  · obtain ⟨symbol, rfl⟩ := exists_symbol above (within.trans_eq nodes)
    rw [leafTree_succ]
    refine .leaf symbol fun child below => ?_
    rw [free child (by omega)]
    exact fun linked => nomatch linked

theorem Planted.loaded (positive : 0 < n) (weighed : Weighed leaves frequency)
    (planted : space.Planted leaves n (Nat.le_refl n)) :
    space.Loaded frequency (leafTree positive) (grove leaves n (Nat.le_refl n)) := by
  have perm := @grove_perm _ leaves n (Nat.le_refl n)
  refine ⟨fun node above within => ?_, ?_⟩
  · obtain ⟨symbol, rfl⟩ := exists_symbol above (within.trans_eq planted.nodes)
    rw [leafTree_succ]
    exact ⟨_, planted.bears symbol, weighed.packs symbol⟩
  · refine weighed.forest.perm (.trans (.of_eq ?_) (perm.map (rootOf (leafTree positive))).symm)
    refine List.ext_getElem (by simp) fun i near _ => ?_
    have inside : i < n := by simpa using near
    simp [rootOf, leafTree_succ positive ⟨i, inside⟩, Vector.get_eq_getElem]

theorem halve_spec (roomy : space.Roomy n) (bears : space.Bears leaves) :
    ∃ next, space.halve n = some next ∧ next.Roomy n ∧ next.Bears (leaves.map Weight.halve) := by
  have changed (count : Nat) (fits : count ≤ n) : ∃ weights,
      (List.range count).foldlM (fun weights symbol =>
        Cells.update weights (symbol + 1) fun weight => some weight.halve) space.weights =
        some weights ∧ weights.size = space.weights.size ∧ ∀ symbol : Fin n,
        weights[symbol.val + 1]? = if symbol.val < count then some (leaves.get symbol).halve
          else some (leaves.get symbol) := by
    induction count with
    | zero => exact ⟨_, rfl, rfl, bears⟩
    | succ count ih =>
      obtain ⟨before, run, size, before_at⟩ := ih (Nat.le_of_succ_le fits)
      have wide := roomy.weights
      have current := before_at ⟨count, fits⟩
      rw [if_neg (Nat.lt_irrefl count)] at current
      obtain ⟨after, written, kept, after_at⟩ := Cells.put_spec
        (show count + 1 < before.size by omega) (leaves.get ⟨count, fits⟩).halve
      refine ⟨after, ?_, kept.trans size, fun symbol => ?_⟩
      · rw [List.range_succ, List.foldlM_append, run]
        simpa [Cells.update, current] using written
      · rw [after_at, before_at]
        by_cases same : symbol.val = count
        · obtain rfl : symbol = ⟨count, fits⟩ := Fin.ext same
          simp
        · rw [if_neg (by omega)]
          by_cases less : symbol.val < count
          · rw [if_pos less, if_pos (by omega)]
          · rw [if_neg less, if_neg (by omega)]
  obtain ⟨weights, run, size, weight_at⟩ := changed n (Nat.le_refl n)
  refine ⟨{ space with weights }, ?_, ⟨roomy.heap, size ▸ roomy.weights, roomy.parents⟩,
    fun symbol => ?_⟩
  · rw [halve, run]
    rfl
  · dsimp only
    rw [weight_at symbol, if_pos symbol.isLt]
    simp [Vector.get_eq_getElem]

theorem ofFrequencies_spec {frequencies : Vector UInt32 n}
    (small : n ≤ CodingSpace.largestAlphabet) :
    ∃ space, ofFrequencies frequencies.toList = some space ∧ space.Roomy n ∧
      space.Bears (frequencies.map Weight.ofFrequency) := by
  simp only [CodingSpace.largestAlphabet] at small
  have split : Array.replicate (2 * CodingSpace.largestAlphabet) (0 : Weight) =
      ([0] ++ List.replicate n 0 ++ List.replicate (515 - n) (0 : Weight)).toArray := by
    rw [← List.replicate_one, List.replicate_append_replicate, List.replicate_append_replicate,
      List.toArray_replicate]
    exact congrArg (Array.replicate · 0) (by simp only [CodingSpace.largestAlphabet]; omega)
  have written := Cells.putAll_toArray [0] (List.replicate n 0) (List.replicate (515 - n) 0)
    (frequencies.toList.map Weight.ofFrequency) 1 rfl (by simp)
  rw [← split] at written
  refine ⟨_, by rw [ofFrequencies, written]; rfl, ⟨?_, ?_, ?_⟩, fun symbol => ?_⟩
  · simp only [Array.size_replicate, CodingSpace.largestAlphabet]
    omega
  · simp
    omega
  · simp only [Array.size_replicate, CodingSpace.largestAlphabet]
    omega
  · have inside := symbol.isLt
    simp [Vector.get_eq_getElem, List.getElem?_append_left]

end NodeSpace

end BlockSort
