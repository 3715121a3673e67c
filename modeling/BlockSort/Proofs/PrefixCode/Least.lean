import BlockSort.Proofs.PrefixCode.Growth
import BlockSort.Proofs.PrefixCode.Placement
import Mathlib

/-!
Joins of the two lightest trees lead to a least tree: no placement of the same leaves is cheaper,
and none that is as cheap is lower.
-/
namespace BlockSort.PrefixCode

variable {α : Type}

namespace Tree

/-- The length of a text in which every symbol occurs as often as its frequency says: each node
stands for one bit of every leaf below it. -/
def cost (frequency : α → Nat) : Tree α → Nat
  | .leaf _ => 0
  | .node left right => left.cost frequency + right.cost frequency +
      (left.total frequency + right.total frequency)

/-- The tree as a part of a larger one. -/
def load (frequency : α → Nat) (tree : Tree α) : Load := ⟨tree.total frequency, tree.height⟩

/-- A tree to which no placement of its leaves is preferable. -/
def Least (frequency : α → Nat) (tree : Tree α) : Prop :=
  ∀ placement : Placement,
    placement.loads = (tree.leaves.map fun symbol => (⟨frequency symbol, 0⟩ : Load) :) →
    placement.share ≤ 1 → toLex (tree.cost frequency, tree.height) ≤ placement.measure

end Tree

variable {frequency : α → Nat}

/-- The order of the weights is that of the loads that they pack. -/
theorem Weighted.Sound.rank_le {one other : Weighted (Tree α)} (sound : one.Sound frequency)
    (sound' : other.Sound frequency) (lighter : one.weight ≤ other.weight) :
    (one.item.load frequency).rank ≤ (other.item.load frequency).rank := by
  have order := UInt32.le_iff_toNat_le.mp lighter
  have low := sound.packs.low
  have low' := sound'.packs.low
  rw [sound.packs.value, sound'.packs.value] at order
  rw [Load.rank_le_iff]
  simp only [Tree.load]
  omega

theorem Forest.rank_le {entries others : List (Weighted (Tree α))} {one : Weighted (Tree α)}
    (forest : Forest frequency entries) (member : one ∈ entries) (inside : others ⊆ entries)
    (lightest : ∀ entry ∈ others, one.weight ≤ entry.weight) :
    ∀ load ∈ others.map fun entry => entry.item.load frequency,
      (one.item.load frequency).rank ≤ load.rank := by
  rw [List.forall_mem_map]
  intro entry found
  exact (forest.sound one member).rank_le (forest.sound entry (inside found)) (lightest entry found)

namespace Tree

theorem cost_join (first second : Weighted (Tree α)) :
    (join first second).item.cost frequency = first.item.cost frequency +
      second.item.cost frequency +
        ((first.item.load frequency).total + (second.item.load frequency).total) := rfl

/-- A tree that is as good as any over the trees of a forest, at whatever depths they are placed.
Below their roots nothing can be saved. -/
def BestOf (frequency : α → Nat) (entries : List (Weighted (Tree α)))
    (merged : Weighted (Tree α)) : Prop :=
  Forest frequency entries → ∀ placement : Placement,
    placement.loads = (entries.map fun entry => entry.item.load frequency :) →
    placement.share ≤ 1 →
    toLex (merged.item.cost frequency, merged.item.height) ≤
      toLex ((entries.map fun entry => entry.item.cost frequency).sum + placement.cost,
        placement.reach)

variable {entries others rest : List (Weighted (Tree α))} {first second merged : Weighted (Tree α)}

theorem BestOf.perm (perm : entries.Perm others) (best : BestOf frequency entries merged) :
    BestOf frequency others merged := by
  intro forest placement loads room
  rw [← (perm.map _).sum_eq]
  refine best (forest.perm perm.symm) placement ?_ room
  rw [loads]
  exact (Multiset.coe_eq_coe.mpr (perm.map _)).symm

/-- The depth of a single tree can only add to its cost. -/
theorem BestOf.single (entry : Weighted (Tree α)) : BestOf frequency [entry] entry := by
  intro forest placement loads room
  rw [List.map_cons, ← Multiset.cons_coe] at loads
  obtain ⟨depth, rest, rfl, -⟩ := Placement.exists_cons_of_load loads
  rw [Prod.Lex.toLex_le_toLex]
  simp only [List.map_cons, List.map_nil, List.sum_singleton, Placement.cost_cons,
    Placement.reach_cons, load]
  omega

/-- A placement with the two lightest trees side by side is no worse than any other, so they may be
joined. -/
theorem BestOf.join (least : ∀ entry ∈ second :: rest, first.weight ≤ entry.weight)
    (next : ∀ entry ∈ rest, second.weight ≤ entry.weight)
    (best : BestOf frequency (Tree.join first second :: rest) merged) :
    BestOf frequency (first :: second :: rest) merged := by
  intro forest placement loads room
  rw [List.map_cons, List.map_cons, ← Multiset.cons_coe, ← Multiset.cons_coe] at loads
  obtain ⟨depth, left, same, fits, better⟩ := Placement.exists_siblings loads room
    (forest.rank_le (by simp) (List.subset_cons_self _ _) least)
    (forest.rank_le (by simp) (by simp) next)
  obtain ⟨share, reach, cost⟩ := Placement.join_siblings (first.item.load frequency)
    (second.item.load frequency) depth left
  have joined := best
    (forest.join (fun entry member => least entry (List.mem_cons_of_mem _ member)) next)
    (((first.item.load frequency).join (second.item.load frequency), depth) ::ₘ left)
    (by rw [Placement.loads_cons, same]; rfl) (share.symm.trans_le fits)
  refine joined.trans ?_
  rw [Placement.measure_le_iff, cost, reach] at better
  rw [Prod.Lex.toLex_le_toLex]
  simp only [List.map_cons, List.sum_cons, cost_join]
  omega

theorem merge_bestOf {n : Nat} (heap : Heap (Tree α) (n + 1))
    (ordered : Heap.Ordered heap (n + 1)) : BestOf frequency heap.toList (merge heap) :=
  merge_induction (motive := BestOf frequency) BestOf.perm BestOf.single BestOf.join heap ordered

/-- The leaves of a tree where they stand, below a root at the given depth. -/
def placement (frequency : α → Nat) (depth : Nat) : Tree α → Placement
  | .leaf symbol => {(⟨frequency symbol, 0⟩, depth)}
  | .node left right =>
    left.placement frequency (depth + 1) + right.placement frequency (depth + 1)

section Placement

variable (frequency) (tree : Tree α) (depth : Nat)

theorem loads_placement : (tree.placement frequency depth).loads =
    (tree.leaves.map fun symbol => (⟨frequency symbol, 0⟩ : Load) :) := by
  induction tree generalizing depth with
  | leaf symbol => rfl
  | node left right first second =>
    rw [placement, Placement.loads_add, first, second, leaves, List.map_append, Multiset.coe_add]

theorem share_placement : (tree.placement frequency depth).share = (1 / 2 : ℚ) ^ depth := by
  induction tree generalizing depth with
  | leaf symbol => simp [placement, Placement.share]
  | node left right first second =>
    rw [placement, Placement.share_add, first, second, pow_succ]
    ring

theorem cost_placement : (tree.placement frequency depth).cost =
    tree.cost frequency + tree.total frequency * depth := by
  induction tree generalizing depth with
  | leaf symbol => simp [placement, Placement.cost, cost, total]
  | node left right first second =>
    rw [placement, Placement.cost_add, first, second, cost, total]
    ring

theorem reach_placement : (tree.placement frequency depth).reach = depth + tree.height := by
  induction tree generalizing depth with
  | leaf symbol => simp [placement, Placement.reach, height]
  | node left right first second =>
    rw [placement, Placement.reach_add, first, second, height]
    omega

theorem measure_placement : (tree.placement frequency 0).measure =
    toLex (tree.cost frequency, tree.height) := by
  rw [Placement.measure, cost_placement, reach_placement, Nat.mul_zero, Nat.zero_add, Nat.add_zero]

end Placement

/-- A least tree over symbols that occur once or twice is no higher than the number of its leaves
demands. -/
theorem Least.height_le {tree : Tree α} (least : tree.Least frequency) {limit : Nat}
    (light : ∀ symbol ∈ tree.leaves, 1 ≤ frequency symbol ∧ frequency symbol ≤ 2)
    (several : 2 ≤ tree.leaves.length) (few : tree.leaves.length ≤ 2 ^ limit) :
    tree.height ≤ limit := by
  have loads := loads_placement frequency tree 0
  have count : Multiset.card (tree.placement frequency 0) = tree.leaves.length := by
    simpa [Placement.loads] using congrArg Multiset.card loads
  obtain ⟨shallow, same, room, cheap, within⟩ := @Placement.exists_shallow
    (tree.placement frequency 0) limit (by simpa [loads] using light) (by omega) (by omega)
    (by simp [share_placement])
  have better := least shallow (same.trans loads) room
  have low := Placement.reach_le (by simp [same, loads]) within
  rw [← measure_placement, Placement.measure_le_iff, reach_placement] at better
  omega

end Tree

end BlockSort.PrefixCode
