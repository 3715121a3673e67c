import BlockSort.PrefixCode.Lengths
import BlockSort.Proofs.PrefixCode.HeapOrder
import Mathlib

namespace BlockSort.PrefixCode

namespace Weight

/-- The parts that a weight packs: the total frequency and the height. -/
structure Packs (weight : Weight) (total height : Nat) : Prop where
  value : weight.toNat = 256 * total + height
  low : height < 256

theorem Packs.total_lt {weight : Weight} {total height : Nat}
    (packs : Packs weight total height) : total < 2 ^ 24 := by
  have value := packs.value
  have bound := UInt32.toNat_lt weight
  omega

theorem Packs.total_le {first second : Weight} {total height other lower : Nat}
    (packs : Packs first total height) (packed : Packs second other lower)
    (lighter : first ≤ second) : total ≤ other := by
  have order := UInt32.le_iff_toNat_le.mp lighter
  have value := packs.value
  have low := packed.low
  have bound := packed.value
  omega

private theorem and_high {value : Nat} (bound : value < 2 ^ 32) :
    value &&& 0xFFFFFF00 = 256 * (value / 256) := by
  have mask : 0xFFFFFF00 = (2 ^ 24 - 1) <<< 8 := by decide
  have shape : 256 * (value / 256) = (value >>> 8) <<< 8 := by
    rw [Nat.shiftLeft_eq, Nat.shiftRight_eq_div_pow, Nat.mul_comm]
  rw [mask, shape]
  apply Nat.eq_of_testBit_eq
  intro place
  rw [Nat.testBit_and, Nat.testBit_shiftLeft, Nat.testBit_shiftLeft, Nat.testBit_shiftRight,
    Nat.testBit_two_pow_sub_one]
  by_cases low : 8 ≤ place
  · rw [Nat.add_sub_cancel' low]
    by_cases high : place < 32
    · have shifted : place - 8 < 24 := by omega
      simp [low, shifted]
    · have unset : value.testBit place = false :=
        Nat.testBit_lt_two_pow (Nat.lt_of_lt_of_le bound (Nat.pow_le_pow_right (by omega)
          (by omega)))
      simp [unset]
  · simp [low]

theorem Packs.high {weight : Weight} {total height : Nat} (packs : Packs weight total height) :
    (weight &&& 0xFFFFFF00).toNat = 256 * total := by
  have value := packs.value
  have low := packs.low
  rw [UInt32.toNat_and]
  refine (and_high (UInt32.toNat_lt weight)).trans ?_
  omega

theorem Packs.part {weight : Weight} {total height : Nat} (packs : Packs weight total height) :
    (weight &&& 0xFF).toNat = height := by
  have value := packs.value
  have low := packs.low
  rw [UInt32.toNat_and]
  refine (Nat.and_two_pow_sub_one_eq_mod weight.toNat 8).trans ?_
  omega

/-- As long as nothing overflows, a join adds the totals and is one higher. -/
theorem Packs.join {first second : Weight} {total height other lower : Nat}
    (packs : Packs first total height) (packed : Packs second other lower)
    (bounded : total + other < 2 ^ 24) (flat : max height lower < 255) :
    Packs (Weight.join first second) (total + other) (1 + max height lower) := by
  have sum : ((first &&& 0xFFFFFF00) + (second &&& 0xFFFFFF00)).toNat =
      2 ^ 8 * (total + other) := by
    rw [UInt32.toNat_add, packs.high, packed.high]
    omega
  have higher : (max (first &&& 0xFF) (second &&& 0xFF)).toNat = max height lower := by
    have unfolded : max (first &&& 0xFF) (second &&& 0xFF) =
        if first &&& 0xFF ≤ second &&& 0xFF then second &&& 0xFF else first &&& 0xFF := rfl
    rw [unfolded]
    split
    · rename_i order
      rw [UInt32.le_iff_toNat_le, packs.part, packed.part] at order
      rw [packed.part, Nat.max_eq_right order]
    · rename_i order
      rw [UInt32.le_iff_toNat_le, packs.part, packed.part] at order
      rw [packs.part, Nat.max_eq_left (by omega)]
  have top : (1 + max (first &&& 0xFF) (second &&& 0xFF)).toNat = 1 + max height lower := by
    rw [UInt32.toNat_add, higher]
    exact Nat.mod_eq_of_lt (by simp only [UInt32.reduceToNat]; omega)
  constructor
  · rw [Weight.join, UInt32.toNat_or, sum, top,
      ← Nat.two_pow_add_eq_or_of_lt (by omega : 1 + max height lower < 2 ^ 8)]
  · omega

/-- The weight of a leaf packs what is left of its frequency in 24 bits. -/
theorem packs_ofFrequency_mod (frequency : UInt32) :
    Packs (ofFrequency frequency) (max frequency.toNat 1 % 2 ^ 24) 0 := by
  have unfolded : max frequency 1 = if frequency ≤ 1 then 1 else frequency := rfl
  have value : (max frequency 1).toNat = max frequency.toNat 1 := by
    rw [unfolded]
    split
    · rename_i order
      rw [UInt32.le_iff_toNat_le] at order
      exact (Nat.max_eq_right order).symm
    · rename_i order
      rw [UInt32.le_iff_toNat_le] at order
      simp only [UInt32.reduceToNat] at order
      exact (Nat.max_eq_left (by omega)).symm
  constructor
  · rw [ofFrequency, UInt32.toNat_shiftLeft, value, Nat.shiftLeft_eq]
    simp only [UInt32.reduceToNat, Nat.reduceMod, Nat.reducePow]
    omega
  · omega

theorem packs_ofFrequency {frequency : UInt32} (bounded : frequency.toNat < 2 ^ 24) :
    Packs (ofFrequency frequency) (max frequency.toNat 1) 0 := by
  have packs := packs_ofFrequency_mod frequency
  rwa [Nat.mod_eq_of_lt (by omega)] at packs

theorem packs_halve {weight : Weight} {total : Nat} (packs : Packs weight total 0) :
    Packs weight.halve (1 + total / 2) 0 := by
  have value := packs.value
  have bounded := packs.total_lt
  have frequency : (weight >>> 8).toNat = total := by
    rw [UInt32.toNat_shiftRight, value, Nat.shiftRight_eq_div_pow]
    simp only [UInt32.reduceToNat, Nat.reduceMod, Nat.reducePow]
    omega
  have half : ((1 : UInt32) + (weight >>> 8 : UInt32) / 2).toNat = 1 + total / 2 := by
    rw [UInt32.toNat_add, UInt32.toNat_div, frequency]
    simp only [UInt32.reduceToNat, Nat.reducePow]
    omega
  constructor
  · rw [halve, UInt32.toNat_shiftLeft, half, Nat.shiftLeft_eq]
    simp only [UInt32.reduceToNat, Nat.reduceMod, Nat.reducePow]
    omega
  · omega

end Weight

namespace Tree

variable {α : Type}

/-- The symbols of a tree from left to right. -/
def leaves : Tree α → List α
  | .leaf symbol => [symbol]
  | .node left right => left.leaves ++ right.leaves

def height : Tree α → Nat
  | .leaf _ => 0
  | .node left right => 1 + max left.height right.height

theorem height_lt_length (tree : Tree α) : tree.height < tree.leaves.length := by
  induction tree with
  | leaf symbol => exact Nat.zero_lt_one
  | node left right first second =>
    rw [height, leaves, List.length_append]
    omega

/-- The sum of the frequencies of all leaves. -/
def total (frequency : α → Nat) : Tree α → Nat
  | .leaf symbol => frequency symbol
  | .node left right => left.total frequency + right.total frequency

/-- The totals of the trees right below the root. -/
def parts (frequency : α → Nat) : Tree α → List Nat
  | .leaf _ => []
  | .node left right => [left.total frequency, right.total frequency]

/-- Every subtree is at least as heavy as its height demands. -/
def Grown (frequency : α → Nat) : Tree α → Prop
  | .leaf symbol => 1 ≤ frequency symbol
  | .node left right => left.Grown frequency ∧ right.Grown frequency ∧
      Nat.fib (height (.node left right) + 2) ≤ total frequency (.node left right)

variable {frequency : α → Nat}

theorem Grown.fib_le {tree : Tree α} (grown : tree.Grown frequency) :
    Nat.fib (tree.height + 2) ≤ tree.total frequency := by
  cases tree with
  | leaf symbol => exact grown
  | node left right => exact grown.2.2

/-- A tree is as heavy as its highest part, and what is at least as heavy as the parts of that. -/
theorem Grown.fib_succ_le {tree : Tree α} {other : Nat} (grown : tree.Grown frequency)
    (positive : 1 ≤ other) (heavy : ∀ part ∈ tree.parts frequency, part ≤ other) :
    Nat.fib (tree.height + 3) ≤ tree.total frequency + other := by
  have low := grown.fib_le
  have rest : Nat.fib (tree.height + 1) ≤ other := by
    cases tree with
    | leaf symbol => simpa [height] using positive
    | node left right =>
      have first := grown.1.fib_le
      have second := grown.2.1.fib_le
      have leftPart := heavy (left.total frequency) (by simp [parts])
      have rightPart := heavy (right.total frequency) (by simp [parts])
      rw [height, Nat.add_comm 1]
      rcases Nat.le_total left.height right.height with order | order
      · rw [Nat.max_eq_right order]
        exact Nat.le_trans second rightPart
      · rw [Nat.max_eq_left order]
        exact Nat.le_trans first leftPart
  have step : Nat.fib (tree.height + 3) = Nat.fib (tree.height + 1) + Nat.fib (tree.height + 2) :=
    Nat.fib_add_two
  omega

theorem Grown.total_pos {tree : Tree α} (grown : tree.Grown frequency) :
    1 ≤ tree.total frequency :=
  Nat.le_trans (Nat.fib_pos.mpr (by omega)) grown.fib_le

theorem Grown.node {left right : Tree α} (first : left.Grown frequency)
    (second : right.Grown frequency)
    (leftHeavy : ∀ part ∈ right.parts frequency, part ≤ left.total frequency)
    (rightHeavy : ∀ part ∈ left.parts frequency, part ≤ right.total frequency) :
    (Tree.node left right).Grown frequency := by
  refine ⟨first, second, ?_⟩
  rw [height, total]
  have leftBound := first.fib_succ_le second.total_pos rightHeavy
  have rightBound := second.fib_succ_le first.total_pos leftHeavy
  rcases Nat.le_total left.height right.height with order | order
  · rw [Nat.max_eq_right order, Nat.add_comm 1, Nat.add_comm (left.total frequency)]
    exact rightBound
  · rw [Nat.max_eq_left order, Nat.add_comm 1]
    exact leftBound

theorem Grown.height_lt {tree : Tree α} (grown : tree.Grown frequency) {limit : Nat}
    (bounded : tree.total frequency < Nat.fib (limit + 2)) : tree.height < limit := by
  have bound := Nat.lt_of_le_of_lt grown.fib_le bounded
  by_contra high
  have larger : limit + 2 ≤ tree.height + 2 := by omega
  exact Nat.not_lt.mpr (Nat.fib_mono larger) bound

end Tree

variable {α : Type} {frequency : α → Nat}

/-- A weighted tree as the joins make it: its weight packs its total and height. -/
structure Weighted.Sound (frequency : α → Nat) (entry : Weighted (Tree α)) : Prop where
  packs : entry.weight.Packs (entry.item.total frequency) entry.item.height
  grown : entry.item.Grown frequency

/-- The trees of a forest whose lightest two are joined next. -/
structure Forest (frequency : α → Nat) (entries : List (Weighted (Tree α))) : Prop where
  sound : ∀ entry ∈ entries, entry.Sound frequency
  /-- No tree is lighter than a part of another. -/
  heavy : ∀ entry ∈ entries, ∀ other ∈ entries,
    ∀ part ∈ entry.item.parts frequency, part ≤ other.item.total frequency
  bounded : (entries.map fun entry => entry.item.total frequency).sum < 2 ^ 24

theorem Forest.perm {entries others : List (Weighted (Tree α))} (forest : Forest frequency entries)
    (perm : entries.Perm others) : Forest frequency others := by
  constructor
  · exact fun entry member => forest.sound entry (perm.mem_iff.mpr member)
  · exact fun entry member other present =>
      forest.heavy entry (perm.mem_iff.mpr member) other (perm.mem_iff.mpr present)
  · rw [← (perm.map _).sum_eq]
    exact forest.bounded

/-- Trees that are at least as heavy as the lightest two are not lighter than a part of the joined
tree, whose parts are these two. -/
theorem Forest.join {first second : Weighted (Tree α)} {rest : List (Weighted (Tree α))}
    (forest : Forest frequency (first :: second :: rest))
    (least : ∀ entry ∈ rest, first.weight ≤ entry.weight)
    (next : ∀ entry ∈ rest, second.weight ≤ entry.weight) :
    Forest frequency (Tree.join first second :: rest) := by
  have one := forest.sound first (by simp)
  have two := forest.sound second (by simp)
  have grown : (Tree.join first second).item.Grown frequency :=
    one.grown.node two.grown (forest.heavy second (by simp) first (by simp))
      (forest.heavy first (by simp) second (by simp))
  have sum := forest.bounded
  simp only [List.map_cons, List.sum_cons] at sum
  have total : (Tree.join first second).item.total frequency =
      first.item.total frequency + second.item.total frequency := rfl
  have low : (Tree.join first second).item.height < 255 := by
    apply grown.height_lt
    have bound : Nat.fib 37 ≤ Nat.fib (255 + 2) := Nat.fib_mono (by omega)
    have value : Nat.fib 37 = 24157817 := by norm_num [Nat.fib_add_two]
    omega
  have height : (Tree.join first second).item.height =
      1 + max first.item.height second.item.height := rfl
  have older : ∀ entry ∈ rest, entry.Sound frequency :=
    fun entry member => forest.sound entry (by simp [member])
  constructor
  · intro entry member
    rcases List.mem_cons.mp member with rfl | present
    · exact ⟨one.packs.join two.packs (by omega) (by omega), grown⟩
    · exact older entry present
  · intro entry member other present part inside
    rcases List.mem_cons.mp member with rfl | member <;>
      rcases List.mem_cons.mp present with rfl | present
    · simp only [Tree.join, Tree.parts, List.mem_cons, List.not_mem_nil, or_false] at inside
      rcases inside with rfl | rfl <;> omega
    · simp only [Tree.join, Tree.parts, List.mem_cons, List.not_mem_nil, or_false] at inside
      have packs := (older other present).packs
      rcases inside with rfl | rfl
      · exact one.packs.total_le packs (least other present)
      · exact two.packs.total_le packs (next other present)
    · have heavy := forest.heavy entry (by simp [member]) first (by simp) part inside
      omega
    · exact forest.heavy entry (by simp [member]) other (by simp [present]) part inside
  · simp only [List.map_cons, List.sum_cons]
    omega

theorem Tree.merge_step {n : Nat} (heap : Heap (Tree α) (n + 2)) :
    Tree.merge heap = Tree.merge (heap.takeLeast.2.takeLeast.2.add
      (Tree.join heap.takeLeast.1 heap.takeLeast.2.takeLeast.1)) := rfl

/-- What holds for a single tree, and passes from a forest whose two lightest trees are joined to
the forest before, holds for every forest and the tree that the joins make of it. -/
theorem Tree.merge_induction {motive : List (Weighted (Tree α)) → Weighted (Tree α) → Prop}
    (perm : ∀ {entries others merged}, entries.Perm others → motive entries merged →
      motive others merged)
    (single : ∀ entry, motive [entry] entry)
    (join : ∀ {first second rest merged}, (∀ entry ∈ second :: rest, first.weight ≤ entry.weight) →
      (∀ entry ∈ rest, second.weight ≤ entry.weight) →
      motive (Tree.join first second :: rest) merged → motive (first :: second :: rest) merged)
    {n : Nat} (heap : Heap (Tree α) (n + 1)) (ordered : Heap.Ordered heap (n + 1)) :
    motive heap.toList (Tree.merge heap) := by
  induction n with
  | zero =>
    obtain ⟨⟨items⟩, size⟩ := heap
    obtain ⟨only, rfl⟩ := List.length_eq_one_iff.mp (by simpa using size)
    exact single only
  | succ n ih =>
    have taken := Heap.takeLeast_perm heap
    have again := Heap.takeLeast_perm heap.takeLeast.2
    have rest := Heap.takeLeast_ordered ordered
    have added := Heap.add_perm heap.takeLeast.2.takeLeast.2
      (Tree.join heap.takeLeast.1 heap.takeLeast.2.takeLeast.1)
    refine perm ((again.cons heap.takeLeast.1).trans taken) (join (fun entry member => ?_)
      (fun entry member => ?_) (perm added ?_))
    · exact Heap.takeLeast_le ordered entry
        (taken.mem_iff.mp (List.mem_cons_of_mem _ (again.mem_iff.mp member)))
    · exact Heap.takeLeast_le rest entry (again.mem_iff.mp (List.mem_cons_of_mem _ member))
    · rw [Tree.merge_step]
      exact ih _ (Heap.add_ordered (Heap.takeLeast_ordered rest) _)

/-- All joins together make one tree with the leaves of all trees. -/
theorem Tree.merge_leaves {n : Nat} (heap : Heap (Tree α) (n + 1))
    (ordered : Heap.Ordered heap (n + 1)) :
    (Tree.merge heap).item.leaves.Perm (heap.toList.flatMap fun entry => entry.item.leaves) := by
  refine Tree.merge_induction (motive := fun entries merged =>
    merged.item.leaves.Perm (entries.flatMap fun entry => entry.item.leaves)) ?_ ?_ ?_ heap ordered
  · exact fun perm found => found.trans (perm.flatMap_right _)
  · simp
  · intro first second rest merged least next found
    simpa [Tree.join, Tree.leaves] using found

end BlockSort.PrefixCode
