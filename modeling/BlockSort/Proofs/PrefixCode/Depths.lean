import BlockSort.PrefixCode.Lengths
import BlockSort.Proofs.PrefixCode.Least
import Mathlib

namespace BlockSort.PrefixCode

theorem toList_eq_map_finRange {α : Type} {n : Nat} (items : Vector α n) :
    items.toList = (List.finRange n).map items.get := by
  apply List.ext_getElem <;> simp [Vector.get_eq_getElem]

/-- Lengths that fill the code space: none is zero or above the limit, and the shares of all
symbols add up to the whole. -/
structure Complete (limit : Nat) (lengths : List Nat) : Prop where
  positive : ∀ length ∈ lengths, 1 ≤ length
  bounded : ∀ length ∈ lengths, length ≤ limit
  whole : (lengths.map fun length => 2 ^ (limit - length)).sum = 2 ^ limit

namespace Tree

variable {α : Type} {n : Nat}

/-- The leaves from left to right, each with its depth below a root at the given depth. -/
def leafDepths (depth : Nat) : Tree α → List (α × Nat)
  | .leaf symbol => [(symbol, depth)]
  | .node left right => left.leafDepths (depth + 1) ++ right.leafDepths (depth + 1)

theorem leafDepths_map_fst (tree : Tree α) (depth : Nat) :
    (tree.leafDepths depth).map Prod.fst = tree.leaves := by
  induction tree generalizing depth with
  | leaf symbol => rfl
  | node left right first second => simp [leafDepths, leaves, first, second]

theorem exists_leafDepths (tree : Tree α) (depth : Nat) : ∃ leaf, leaf ∈ tree.leafDepths depth := by
  induction tree generalizing depth with
  | leaf symbol => exact ⟨(symbol, depth), by simp [leafDepths]⟩
  | node left right first second =>
    obtain ⟨leaf, member⟩ := first (depth + 1)
    exact ⟨leaf, List.mem_append_left _ member⟩

theorem le_leafDepths {tree : Tree α} {depth : Nat} :
    ∀ leaf ∈ tree.leafDepths depth, depth ≤ leaf.2 ∧ leaf.2 ≤ depth + tree.height := by
  induction tree generalizing depth with
  | leaf symbol => simp [leafDepths]
  | node left right first second =>
    intro leaf member
    rw [height]
    rcases List.mem_append.mp member with inside | inside
    · have bounds := first leaf inside
      omega
    · have bounds := second leaf inside
      omega

/-- With more than one leaf, every leaf is below the root. -/
theorem lt_leafDepths {tree : Tree α} {depth : Nat} (several : 2 ≤ tree.leaves.length) :
    ∀ leaf ∈ tree.leafDepths depth, depth < leaf.2 := by
  cases tree with
  | leaf symbol => simp [leaves] at several
  | node left right =>
    intro leaf member
    rcases List.mem_append.mp member with inside | inside
    · exact (le_leafDepths leaf inside).1
    · exact (le_leafDepths leaf inside).1

/-- The leaves share the code space of their root without a rest. -/
theorem leafDepths_share (tree : Tree α) {depth limit : Nat}
    (bounded : ∀ leaf ∈ tree.leafDepths depth, leaf.2 ≤ limit) :
    ((tree.leafDepths depth).map fun leaf => 2 ^ (limit - leaf.2)).sum = 2 ^ (limit - depth) := by
  induction tree generalizing depth with
  | leaf symbol => simp [leafDepths]
  | node left right first second =>
    have half := first fun leaf member => bounded leaf (List.mem_append_left _ member)
    have other := second fun leaf member => bounded leaf (List.mem_append_right _ member)
    have room : depth < limit := by
      obtain ⟨leaf, member⟩ := left.exists_leafDepths (depth + 1)
      have above := (le_leafDepths leaf member).1
      have below := bounded leaf (List.mem_append_left _ member)
      omega
    have level : limit - depth = limit - (depth + 1) + 1 := by omega
    rw [leafDepths, List.map_append, List.sum_append, half, other, level, Nat.pow_succ]
    omega

theorem recordDepths_eq (tree : Tree (Fin n)) (depths : Vector Nat n) (depth : Nat) :
    recordDepths depths depth tree =
      (tree.leafDepths depth).foldl (fun depths leaf => depths.set leaf.1 leaf.2) depths := by
  induction tree generalizing depths depth with
  | leaf symbol => rfl
  | node left right first second =>
    rw [recordDepths, first, second, leafDepths, List.foldl_append]

private theorem foldl_set_absent (pairs : List (Fin n × Nat)) (depths : Vector Nat n)
    (symbol : Fin n) (absent : symbol ∉ pairs.map Prod.fst) :
    (pairs.foldl (fun depths leaf => depths.set leaf.1 leaf.2) depths).get symbol =
      depths.get symbol := by
  induction pairs generalizing depths with
  | nil => rfl
  | cons pair rest ih =>
    simp only [List.map_cons, List.mem_cons, not_or] at absent
    rw [List.foldl_cons, ih _ absent.2]
    exact Vector.getElem_set_ne _ _ (fun same => absent.1 (Fin.ext same.symm))

private theorem foldl_set_present (pairs : List (Fin n × Nat)) (depths : Vector Nat n)
    (distinct : (pairs.map Prod.fst).Nodup) (leaf : Fin n × Nat) (member : leaf ∈ pairs) :
    (pairs.foldl (fun depths leaf => depths.set leaf.1 leaf.2) depths).get leaf.1 = leaf.2 := by
  induction pairs generalizing depths with
  | nil => simp at member
  | cons pair rest ih =>
    simp only [List.map_cons, List.nodup_cons] at distinct
    rw [List.foldl_cons]
    rcases List.mem_cons.mp member with rfl | inside
    · rw [foldl_set_absent _ _ _ distinct.1]
      exact Vector.getElem_set_self _
    · exact ih _ distinct.2 inside

/-- In a tree over all symbols, every symbol's recorded depth is that of its leaf. -/
theorem recordDepths_get {tree : Tree (Fin n)} (whole : tree.leaves.Perm (List.finRange n))
    (depths : Vector Nat n) (depth : Nat) :
    ∀ leaf ∈ tree.leafDepths depth, (recordDepths depths depth tree).get leaf.1 = leaf.2 := by
  intro leaf member
  rw [recordDepths_eq]
  refine foldl_set_present _ _ ?_ leaf member
  rw [leafDepths_map_fst]
  exact whole.nodup_iff.mpr (List.nodup_finRange n)

theorem recordDepths_perm {tree : Tree (Fin n)} (whole : tree.leaves.Perm (List.finRange n))
    (depths : Vector Nat n) (depth : Nat) :
    (recordDepths depths depth tree).toList.Perm ((tree.leafDepths depth).map Prod.snd) := by
  have read : (tree.leafDepths depth).map Prod.snd =
      tree.leaves.map (recordDepths depths depth tree).get := by
    rw [← leafDepths_map_fst tree depth, List.map_map]
    exact List.map_congr_left fun leaf member => (recordDepths_get whole depths depth leaf
      member).symm
  rw [toList_eq_map_finRange, read]
  exact (whole.map _).symm

theorem recordDepths_le {tree : Tree (Fin n)} (whole : tree.leaves.Perm (List.finRange n))
    (depths : Vector Nat n) (depth : Nat) :
    ∀ length ∈ (recordDepths depths depth tree).toList, length ≤ depth + tree.height := by
  intro length member
  obtain ⟨leaf, inside, rfl⟩ := List.mem_map.mp
    ((recordDepths_perm whole depths depth).mem_iff.mp member)
  exact (le_leafDepths leaf inside).2

end Tree

/-- The symbols of an alphabet, each as deep as its code is long. -/
def Placement.ofLengths {n : Nat} (frequency length : Fin n → Nat) : Placement :=
  Finset.univ.val.map fun symbol => (⟨frequency symbol, 0⟩, length symbol)

/-- The leaves of a tree over all symbols stand at the recorded depths. -/
theorem Tree.placement_eq {n : Nat} {tree : Tree (Fin n)}
    (whole : tree.leaves.Perm (List.finRange n)) (frequency : Fin n → Nat) (depths : Vector Nat n) :
    tree.placement frequency 0 =
      .ofLengths frequency (Tree.recordDepths depths 0 tree).get := by
  have listed (tree : Tree (Fin n)) (depth : Nat) : tree.placement frequency depth =
      ((tree.leafDepths depth).map fun leaf =>
        ((⟨frequency leaf.1, 0⟩, leaf.2) : Load × Nat) :) := by
    induction tree generalizing depth with
    | leaf symbol => rfl
    | node left right first second =>
      rw [placement, first, second, leafDepths, List.map_append, Multiset.coe_add]
  have read : (tree.leafDepths 0).map (fun leaf => ((⟨frequency leaf.1, 0⟩, leaf.2) : Load × Nat)) =
      tree.leaves.map fun symbol =>
        (⟨frequency symbol, 0⟩, (Tree.recordDepths depths 0 tree).get symbol) := by
    rw [← leafDepths_map_fst tree 0, List.map_map]
    exact List.map_congr_left fun leaf member => by
      simp only [Function.comp_apply, recordDepths_get whole depths 0 leaf member]
  rw [listed, read]
  exact Multiset.coe_eq_coe.mpr (whole.map _)

/-- Weights of leaves with the given frequencies, which together do not overflow. -/
structure Weighed {n : Nat} (weights : Vector Weight n) (frequency : Fin n → Nat) : Prop where
  packs : ∀ symbol : Fin n, (weights.get symbol).Packs (frequency symbol) 0
  positive : ∀ symbol, 1 ≤ frequency symbol
  bounded : ((List.finRange n).map frequency).sum < 2 ^ 24

variable {n : Nat}

theorem Weighed.forest {weights : Vector Weight n} {frequency : Fin n → Nat}
    (weighed : Weighed weights frequency) :
    Forest frequency ((List.finRange n).map fun symbol =>
      (⟨weights.get symbol, .leaf symbol⟩ : Weighted (Tree (Fin n)))) := by
  constructor
  · intro entry member
    obtain ⟨symbol, -, rfl⟩ := List.mem_map.mp member
    exact ⟨weighed.packs symbol, weighed.positive symbol⟩
  · intro entry member other present part inside
    obtain ⟨symbol, -, rfl⟩ := List.mem_map.mp member
    simp [Tree.parts] at inside
  · simpa [Tree.total, Function.comp_def] using weighed.bounded

/-- The leaves of all symbols in order. -/
def leavesOf (weights : Vector Weight n) : Heap (Tree (Fin n)) n :=
  Vector.ofFn fun symbol => ⟨weights[symbol], .leaf symbol⟩

/-- The tree that weights lead to. -/
def treeOf (weights : Vector Weight (n + 1)) : Tree (Fin (n + 1)) :=
  (Tree.merge (Heap.ofVector (leavesOf weights))).item

theorem leavesOf_toList (weights : Vector Weight n) :
    (leavesOf weights).toList = (List.finRange n).map fun symbol =>
      ⟨weights.get symbol, .leaf symbol⟩ := by
  apply List.ext_getElem <;> simp [leavesOf, Vector.get_eq_getElem]

theorem Weighed.planted {weights : Vector Weight n} {frequency : Fin n → Nat}
    (weighed : Weighed weights frequency) :
    Forest frequency (Heap.ofVector (leavesOf weights)).toList :=
  (leavesOf_toList weights ▸ weighed.forest).perm
    (Heap.ofVector_perm (leavesOf weights)).toList.symm

/-- Every symbol has one leaf in the tree, whatever the weights are. -/
theorem whole_treeOf (weights : Vector Weight (n + 1)) :
    (treeOf weights).leaves.Perm (List.finRange (n + 1)) := by
  have perm := (Heap.ofVector_perm (leavesOf weights)).toList
  have spread := Tree.merge_leaves _ (Heap.ofVector_ordered (leavesOf weights))
  refine spread.trans ((perm.flatMap_right _).trans ?_)
  rw [leavesOf_toList, List.flatMap_map]
  simp [Tree.leaves]

/-- No code is longer than all other symbols demand. -/
theorem depths_lt (weights : Vector Weight (n + 1)) :
    ∀ depth ∈ (depths weights).toList, depth < n + 1 := by
  intro depth member
  have whole := whole_treeOf weights
  have bound := Tree.recordDepths_le whole (Vector.replicate (n + 1) 0) 0 depth member
  have low := (treeOf weights).height_lt_length
  rw [whole.length_eq, List.length_finRange] at low
  omega

theorem Weighed.tree {weights : Vector Weight (n + 1)} {frequency : Fin (n + 1) → Nat}
    (weighed : Weighed weights frequency) :
    ∃ tree : Tree (Fin (n + 1)), tree.leaves.Perm (List.finRange (n + 1)) ∧
      tree.Least frequency ∧
      depths weights = Tree.recordDepths (Vector.replicate (n + 1) 0) 0 tree := by
  have perm := (Heap.ofVector_perm (leavesOf weights)).toList
  have whole := whole_treeOf weights
  refine ⟨treeOf weights, whole, fun placement loads room => ?_, rfl⟩
  have least := Tree.merge_bestOf _ (Heap.ofVector_ordered (leavesOf weights)) weighed.planted
    placement (loads.trans ?_) room
  · rwa [(perm.map _).sum_eq, leavesOf_toList, List.map_map, List.sum_eq_zero (by simp [Tree.cost]),
      Nat.zero_add] at least
  · rw [Multiset.coe_eq_coe]
    refine (whole.map _).trans (((perm.map _).trans ?_).symm)
    rw [leavesOf_toList, List.map_map]
    exact .refl _

/-- Depths fill the code space of any limit that they keep. -/
theorem Weighed.complete {weights : Vector Weight n} {frequency : Fin n → Nat}
    (weighed : Weighed weights frequency) (several : 2 ≤ n) {limit : Nat}
    (bounded : ∀ depth ∈ (depths weights).toList, depth ≤ limit) :
    Complete limit (depths weights).toList := by
  obtain ⟨n, rfl⟩ : ∃ count, n = count + 1 := ⟨n - 1, by omega⟩
  obtain ⟨tree, whole, -, found⟩ := weighed.tree
  have perm := Tree.recordDepths_perm whole (Vector.replicate (n + 1) 0) 0
  rw [← found] at perm
  have count := whole.length_eq
  rw [List.length_finRange] at count
  refine ⟨?_, bounded, ?_⟩
  · intro depth member
    obtain ⟨leaf, inside, rfl⟩ := List.mem_map.mp (perm.mem_iff.mp member)
    exact Tree.lt_leafDepths (by omega) leaf inside
  · rw [(perm.map _).sum_eq, List.map_map]
    refine @Tree.leafDepths_share _ tree 0 limit fun leaf member => bounded _ (perm.mem_iff.mpr ?_)
    exact List.mem_map_of_mem member

/-- Depths keep every limit that leaves room for all symbols, once no symbol counts more than
twice. -/
theorem Weighed.depths_le {weights : Vector Weight n} {frequency : Fin n → Nat}
    (weighed : Weighed weights frequency) (several : 2 ≤ n)
    (light : ∀ symbol, frequency symbol ≤ 2) {limit : Nat} (room : n ≤ 2 ^ limit) :
    ∀ depth ∈ (depths weights).toList, depth ≤ limit := by
  obtain ⟨n, rfl⟩ : ∃ count, n = count + 1 := ⟨n - 1, by omega⟩
  obtain ⟨tree, whole, least, found⟩ := weighed.tree
  have count := whole.length_eq
  rw [List.length_finRange] at count
  have low := least.height_le (fun symbol _ => ⟨weighed.positive symbol, light symbol⟩)
    (several.trans_eq count.symm) (count.trans_le room)
  rw [found]
  intro depth member
  have bound := Tree.recordDepths_le whole _ 0 depth member
  omega

theorem Weighed.halve {weights : Vector Weight n} {frequency : Fin n → Nat}
    (weighed : Weighed weights frequency) :
    Weighed (weights.map Weight.halve) fun symbol => 1 + frequency symbol / 2 := by
  constructor
  · intro symbol
    simpa using Weight.packs_halve (weighed.packs symbol)
  · intro symbol
    omega
  · refine Nat.lt_of_le_of_lt (List.sum_le_sum ?_) weighed.bounded
    intro symbol _
    have positive := weighed.positive symbol
    omega

/-- The weights after a number of halvings. -/
def halved (count : Nat) (weights : Vector Weight n) : Vector Weight n :=
  (·.map Weight.halve)^[count] weights

/-- The depths after a number of halvings are the first that keep the limit. -/
structure FitsAfter (limit : Nat) (weights : Vector Weight n) (count : Nat) : Prop where
  earlier : ∀ fewer < count, ∃ depth ∈ (depths (halved fewer weights)).toList, limit < depth
  fits : ∀ depth ∈ (depths (halved count weights)).toList, depth ≤ limit

/-- Halving comes to an end, when all frequencies are one or two at the latest, and then the depths
are complete. -/
theorem Weighed.fitDepths_spec {limit rounds : Nat} {weights : Vector Weight n}
    {frequency : Fin n → Nat} (weighed : Weighed weights frequency) (several : 2 ≤ n)
    (room : n ≤ 2 ^ limit) (light : ∀ symbol, frequency symbol ≤ 2 ^ rounds + 1) :
    ∃ count, FitsAfter limit weights count ∧
      fitDepths limit rounds weights = depths (halved count weights) ∧
      ∃ frequency, Weighed (halved count weights) frequency := by
  induction rounds generalizing weights frequency with
  | zero =>
    exact ⟨0, ⟨by simp, weighed.depths_le several light room⟩, rfl, frequency, weighed⟩
  | succ rounds ih =>
    rw [fitDepths]
    simp only [← Vector.any_toList, List.any_eq_true, decide_eq_true_eq]
    split
    · rename_i deep
      obtain ⟨count, ⟨earlier, fits⟩, same, found⟩ := ih weighed.halve fun symbol => by
        have bound := light symbol
        rw [Nat.pow_succ] at bound
        omega
      refine ⟨count + 1, ⟨fun fewer less => ?_, fits⟩, same, found⟩
      cases fewer with
      | zero => exact deep
      | succ fewer => exact earlier fewer (Nat.lt_of_succ_lt_succ less)
    · rename_i low
      simp only [not_exists, not_and, Nat.not_lt] at low
      exact ⟨0, ⟨by simp, low⟩, rfl, frequency, weighed⟩

/-- The weights of frequencies that a block can have. -/
theorem weighed_ofFrequency {frequencies : Vector UInt32 n}
    (bounded : (frequencies.toList.map fun frequency => max frequency.toNat 1).sum < 2 ^ 24) :
    Weighed (frequencies.map Weight.ofFrequency)
      fun symbol => max (frequencies.get symbol).toNat 1 := by
  rw [toList_eq_map_finRange, List.map_map] at bounded
  refine ⟨fun symbol => ?_, fun symbol => by omega, bounded⟩
  have each : max (frequencies.get symbol).toNat 1 < 2 ^ 24 :=
    Nat.lt_of_le_of_lt (List.single_le_sum (by simp) _ (by simp)) bounded
  simpa using Weight.packs_ofFrequency (Nat.lt_of_le_of_lt (Nat.le_max_left _ _) each)

theorem lengths_fit {frequencies : Vector UInt32 n} {limit : Nat} (several : 2 ≤ n)
    (room : n ≤ 2 ^ limit)
    (bounded : (frequencies.toList.map fun frequency => max frequency.toNat 1).sum < 2 ^ 24) :
    ∃ count, FitsAfter limit (frequencies.map Weight.ofFrequency) count ∧
      lengths frequencies limit = depths (halved count (frequencies.map Weight.ofFrequency)) ∧
      ∃ frequency, Weighed (halved count (frequencies.map Weight.ofFrequency)) frequency := by
  have weighed := weighed_ofFrequency bounded
  refine weighed.fitDepths_spec several room fun symbol => ?_
  have small := (weighed.packs symbol).total_lt
  have large : 2 ^ 24 ≤ 2 ^ halvings := Nat.pow_le_pow_right (by omega) (by decide)
  omega

theorem lengths_complete {frequencies : Vector UInt32 n} {limit : Nat} (several : 2 ≤ n)
    (room : n ≤ 2 ^ limit)
    (bounded : (frequencies.toList.map fun frequency => max frequency.toNat 1).sum < 2 ^ 24) :
    Complete limit (lengths frequencies limit).toList := by
  obtain ⟨count, fits, same, frequency, weighed⟩ := lengths_fit several room bounded
  rw [same]
  exact weighed.complete several fits.fits

end BlockSort.PrefixCode
