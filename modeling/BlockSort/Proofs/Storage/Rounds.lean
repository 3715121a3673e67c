import BlockSort.Proofs.PrefixCode.Limit
import BlockSort.Proofs.Storage.Planting

/-!
What the arrays hold whenever two nodes are joined, in all rounds. Weights never overflow, as a tree
of bounded weight is low; so the order of the heap is the order of totals and heights.
-/
namespace BlockSort

open PrefixCode (Heap Weight Weighted Weighed)

namespace NodeSpace

variable {n m : Nat} {space next : NodeSpace} {leaves : Vector Weight n} {frequency : Fin n → Nat}
variable {tree : Nat → PrefixCode.Tree (Fin n)} {frequencies : Vector UInt32 n}

/-- The nodes that are still to be joined. -/
def pending (space : NodeSpace) : List Nat := (space.heap.toList.drop 1).take space.count

theorem Holds.pending {heap : Heap Nat m} (holds : space.Holds heap) :
    space.pending = heap.toList.map Weighted.item := by
  apply List.ext_getElem?
  intro place
  rw [NodeSpace.pending, holds.count, List.getElem?_take, List.getElem?_drop,
    Array.getElem?_toList, Nat.add_comm 1]
  by_cases within : place < m
  · rw [if_pos within, holds.lists place within within (Nat.ne_of_lt within)]
    simp [within]
  · rw [if_neg within, List.getElem?_eq_none]
    simpa using within

/-- What the arrays hold between two joins. -/
structure Forested (space : NodeSpace) (frequency : Fin n → Nat)
    (tree : Nat → PrefixCode.Tree (Fin n)) : Prop where
  /-- The first nodes are the leaves of the symbols. -/
  leaves : n ≤ space.nodes ∧ ∀ symbol : Fin n, tree (symbol.val + 1) = .leaf symbol
  stands : ∀ node, 1 ≤ node → node ≤ space.nodes → Stands space.parents node (tree node)
  /-- The parts of a weight do not overflow. -/
  weighs : ∀ node, 1 ≤ node → node ≤ space.nodes → ∃ weight, space.weights[node]? = some weight ∧
    weight.toNat = 256 * (tree node).total frequency + (tree node).height ∧
    256 * (tree node).total frequency < 2 ^ 32 ∧ (tree node).height ≤ 255
  roots : space.pending.Perm
    ((List.range' 1 space.nodes).filter fun node => space.parents[node]? = some none)
  front : space.heap[0]? = some 0 ∧ space.weights[0]? = some 0
  ordered : ∀ place, 2 ≤ place → place ≤ space.count → ∃ upper lower above below,
    space.heap[place / 2]? = some upper ∧ space.heap[place]? = some lower ∧
    space.weights[upper]? = some above ∧ space.weights[lower]? = some below ∧ above ≤ below

theorem Rooted.forested {heap : Heap Nat m} (rooted : Rooted space leaves tree heap)
    (loaded : Loaded space frequency tree heap) : space.Forested frequency tree := by
  obtain ⟨-, -, holds, -, enough, roots, -, leaf, stands, ordered⟩ := rooted
  refine ⟨⟨enough, leaf⟩, stands, fun node positive within => ?_, holds.pending ▸ roots,
    ⟨holds.front, holds.least⟩, fun place inner within => ?_⟩
  · obtain ⟨weight, found, packed⟩ := loaded.packs node positive within
    have total := packed.total_lt
    have low := packed.low
    exact ⟨weight, found, packed.value, by omega, by omega⟩
  · rw [holds.count] at within
    obtain ⟨child, rfl⟩ := Nat.exists_eq_add_of_le' (Nat.one_le_of_lt inner)
    have upper : (child - 1) / 2 < m := by omega
    have half : (child + 1) / 2 = (child - 1) / 2 + 1 := by omega
    refine ⟨_, _, _, _, ?_, holds.lists child within within (by omega), holds.weighs.get upper,
      holds.weighs.get within, ordered child within within (by omega)⟩
    rw [half]
    exact holds.lists _ upper upper (by omega)

/-- What a join does: two nodes get a new one above them. No other root comes before them in the
order of totals and heights. -/
structure Merged (space next : NodeSpace) (frequency : Fin n → Nat)
    (tree : Nat → PrefixCode.Tree (Fin n)) : Prop where
  nodes : next.nodes = space.nodes + 1
  count : next.count + 1 = space.count
  least : ∃ first second rest, space.pending.Perm (first :: second :: rest) ∧
    next.pending.Perm (next.nodes :: rest) ∧
    next.parents[first]? = some (some next.nodes) ∧
    next.parents[second]? = some (some next.nodes) ∧
    (∀ other ∈ second :: rest,
      ((tree first).load frequency).rank ≤ ((tree other).load frequency).rank) ∧
    ∀ other ∈ rest, ((tree second).load frequency).rank ≤ ((tree other).load frequency).rank

theorem Rooted.merges {heap : Heap Nat (m + 2)} (rooted : Rooted space leaves tree heap)
    (loaded : Loaded space frequency tree heap) :
    ∃ next after, space.joinLeast = some next ∧ Merged space next frequency tree ∧
      ∃ heap : Heap Nat (m + 1), Rooted next leaves after heap ∧
        Loaded next frequency after heap := by
  obtain ⟨perm, least, second_least⟩ := rooted.least
  obtain ⟨next, run, joined, after⟩ := rooted.joinLeast
  have still := loaded.step rooted joined perm
    (fun entry found => least entry (List.mem_cons_of_mem _ found)) second_least
  refine ⟨next, _, run, ⟨joined.nodes, count_joinLeast run, ?_⟩, _, after, still⟩
  have sound {entry : Weighted Nat} (found : entry ∈ heap.takeLeast.1 ::
      heap.takeLeast.2.takeLeast.1 :: heap.takeLeast.2.takeLeast.2.toList) :
      (rootOf tree entry).Sound frequency :=
    loaded.forest.sound _ (List.mem_map_of_mem (perm.mem_iff.mp found))
  refine ⟨_, _, _, rooted.holds.pending ▸ (perm.map Weighted.item).symm, ?_, joined.linked.left,
    joined.linked.right, fun other member => ?_, fun other member => ?_⟩
  · rw [joined.holds.pending]
    exact (Heap.add_perm _ _).map Weighted.item
  · obtain ⟨entry, found, rfl⟩ := List.mem_map.mp (by simpa only [← List.map_cons] using member)
    exact (sound List.mem_cons_self).rank_le (sound (List.mem_cons_of_mem _ found))
      (least entry found)
  · obtain ⟨entry, found, rfl⟩ := List.mem_map.mp member
    exact (sound (List.mem_cons_of_mem _ List.mem_cons_self)).rank_le
      (sound (List.mem_cons_of_mem _ (List.mem_cons_of_mem _ found))) (second_least entry found)

/-- The frequencies in a round. A symbol that does not occur counts as one that occurs once. -/
def frequencyAt (frequencies : Vector UInt32 n) (round : Nat) (symbol : Fin n) : Nat :=
  (fun frequency => 1 + frequency / 2)^[round] (max (frequencies.get symbol).toNat 1)

/-- What the arrays may hold between two joins, in each round. A round follows on another, also if
no depth exceeds the limit. -/
inductive Reached (frequencies : Vector UInt32 n) : (round : Nat) → NodeSpace → Prop where
  | start {given planted : NodeSpace} (ready : ofFrequencies frequencies.toList = some given)
      (plants : given.plant n = some planted) : Reached frequencies 0 planted
  | join {round : Nat} {space next : NodeSpace} (earlier : Reached frequencies round space)
      (several : 1 < space.count) (joins : space.joinLeast = some next) :
      Reached frequencies round next
  | again {round : Nat} {space halved planted : NodeSpace}
      (earlier : Reached frequencies round space) (single : space.count ≤ 1)
      (halves : space.halve n = some halved)
      (plants : halved.plant n = some planted) : Reached frequencies (round + 1) planted

/-- The joins of a round go on until the next round may follow. -/
theorem Reached.joinAll {round : Nat} (reached : Reached frequencies round space)
    (joins : space.joinAll = some next) : Reached frequencies round next ∧ next.count ≤ 1 := by
  fun_induction NodeSpace.joinAll space with
  | case1 space several missing => cases joins
  | case2 space several other joined ih => exact ih (.join reached several joined) joins
  | case3 space single =>
    rw [Option.some.injEq] at joins
    subst joins
    exact ⟨reached, Nat.not_lt.mp single⟩

/-- No leaf is heavier after its frequency is halved. -/
def Lightened (n : Nat) (before after : NodeSpace) : Prop :=
  ∀ symbol < n, ∃ one other, before.weights[symbol + 1]? = some one ∧
    after.weights[symbol + 1]? = some other ∧ other ≤ one

theorem weighed_halved (bounded : ∑ symbol, max (frequencies.get symbol).toNat 1 < 2 ^ 24)
    (round : Nat) : Weighed (PrefixCode.halved round (frequencies.map Weight.ofFrequency))
      (frequencyAt frequencies round) := by
  induction round with
  | zero =>
    rw [← PrefixCode.sum_frequencies] at bounded
    exact PrefixCode.weighed_ofFrequency bounded
  | succ round ih =>
    have next := ih.halve
    rw [PrefixCode.halved, Function.iterate_succ_apply']
    have same : frequencyAt frequencies (round + 1) =
        fun symbol => 1 + frequencyAt frequencies round symbol / 2 :=
      funext fun symbol => Function.iterate_succ_apply' ..
    rw [same]
    exact next

theorem Reached.rooted (positive : 0 < n) (small : n ≤ CodingSpace.largestAlphabet)
    (bounded : ∑ symbol, max (frequencies.get symbol).toNat 1 < 2 ^ 24) {round : Nat}
    (reached : Reached frequencies round space) :
    ∃ (tree : Nat → PrefixCode.Tree (Fin n)) (m : Nat) (heap : Heap Nat (m + 1)),
      Rooted space (PrefixCode.halved round (frequencies.map Weight.ofFrequency)) tree heap ∧
        Loaded space (frequencyAt frequencies round) tree heap := by
  obtain ⟨count, rfl⟩ := Nat.exists_eq_add_of_le' positive
  induction reached with
  | start ready plants =>
    obtain ⟨_, given, roomy, bears⟩ := ofFrequencies_spec small
    rw [ready, Option.some.injEq] at given
    subst given
    obtain ⟨_, run, planted⟩ := plant_spec positive roomy bears
    rw [plants, Option.some.injEq] at run
    subst run
    exact ⟨_, _, _, planted.rooted positive, planted.loaded positive (weighed_halved bounded 0)⟩
  | @join round space next earlier several joins ih =>
    obtain ⟨tree, m, heap, rooted, loaded⟩ := ih
    rw [rooted.holds.count] at several
    obtain ⟨m, rfl⟩ := Nat.exists_eq_add_of_le' (Nat.lt_of_succ_lt_succ several)
    obtain ⟨_, after, run, -, heap, result⟩ := rooted.merges loaded
    rw [joins, Option.some.injEq] at run
    subst run
    exact ⟨after, m, heap, result⟩
  | @again round space halved planted earlier single halves plants ih =>
    obtain ⟨tree, m, heap, rooted, -⟩ := ih
    obtain ⟨_, half, roomy, bears⟩ := halve_spec rooted.roomy rooted.bears
    rw [halves, Option.some.injEq] at half
    subst half
    obtain ⟨_, run, result⟩ := plant_spec positive roomy bears
    rw [plants, Option.some.injEq] at run
    subst run
    have weighed := weighed_halved bounded (round + 1)
    rw [PrefixCode.halved, Function.iterate_succ_apply'] at weighed ⊢
    exact ⟨_, _, _, result.rooted positive, result.loaded positive weighed⟩

/-- In every round and between any two joins, each node has a tree below it, and weighs 256 times
the total of its leaves' frequencies and the height, which never overflow. The heap holds each root
once and in order, so that a join takes the two roots that come first in the order of totals and
heights. The joins go on until one root is left. Then the frequencies can be halved, which makes no
leaf heavier, and the next round begins. -/
theorem reached_forested (several : 2 ≤ n) (small : n ≤ CodingSpace.largestAlphabet)
    (bounded : ∑ symbol, max (frequencies.get symbol).toNat 1 < 2 ^ 24) :
    (∃ space, Reached frequencies 0 space) ∧
    ∀ round space, Reached frequencies round space →
      ∃ tree : Nat → PrefixCode.Tree (Fin n),
        space.Forested (frequencyAt frequencies round) tree ∧
        (1 < space.count → ∃ next, space.joinLeast = some next ∧
          Merged space next (frequencyAt frequencies round) tree) ∧
        (∃ last, space.joinAll = some last ∧ Reached frequencies round last ∧ last.count ≤ 1) ∧
        (space.count ≤ 1 → ∃ halved next, space.halve n = some halved ∧
          Lightened n space halved ∧ halved.plant n = some next) := by
  have positive : 0 < n := Nat.lt_of_succ_lt several
  constructor
  · obtain ⟨given, ready, roomy, bears⟩ := @ofFrequencies_spec n frequencies small
    obtain ⟨planted, plants, -⟩ := plant_spec positive roomy bears
    exact ⟨planted, .start ready plants⟩
  · intro round space reached
    obtain ⟨tree, m, heap, rooted, loaded⟩ := reached.rooted positive small bounded
    refine ⟨tree, rooted.forested loaded, fun more => ?_, ?_, fun single => ?_⟩
    · rw [rooted.holds.count] at more
      obtain ⟨m, rfl⟩ := Nat.exists_eq_add_of_le' (Nat.lt_of_succ_lt_succ more)
      obtain ⟨next, -, run, merged, -⟩ := rooted.merges loaded
      exact ⟨next, run, merged⟩
    · obtain ⟨last, -, -, joins, -⟩ := rooted.joinAll
      exact ⟨last, joins, reached.joinAll joins⟩
    · obtain ⟨halved, halves, roomy, bears⟩ := halve_spec rooted.roomy rooted.bears
      obtain ⟨next, plants, -⟩ := plant_spec positive roomy bears
      refine ⟨halved, next, halves, fun symbol inside => ?_, plants⟩
      have weighed := weighed_halved bounded round
      have before := weighed.packs ⟨symbol, inside⟩
      have after := weighed.halve.packs ⟨symbol, inside⟩
      have least := weighed.positive ⟨symbol, inside⟩
      refine ⟨_, _, rooted.bears ⟨symbol, inside⟩, bears ⟨symbol, inside⟩, ?_⟩
      rw [UInt32.le_iff_toNat_le, before.value, after.value]
      omega

/-- Five symbols of which each but the first two occurs as often as all before it. -/
theorem reached_forested_skewed :
    let frequencies : Vector UInt32 5 := #v[1, 1, 2, 4, 8]
    ∃ (space next : NodeSpace) (tree : Nat → PrefixCode.Tree (Fin 5)),
      Reached frequencies 0 space ∧ space.count = 5 ∧
      space.Forested (frequencyAt frequencies 0) tree ∧ space.joinLeast = some next ∧
      Merged space next (frequencyAt frequencies 0) tree := by
  intro frequencies
  obtain ⟨-, forests⟩ := @reached_forested 5 frequencies (by decide) (by decide) (by decide)
  obtain ⟨given, ready, roomy, bears⟩ := @ofFrequencies_spec 5 frequencies (by decide)
  obtain ⟨planted, plants, result⟩ := plant_spec (by decide) roomy bears
  have count := result.holds.count
  have reached : Reached frequencies 0 planted := .start ready plants
  obtain ⟨tree, forested, merges, -⟩ := forests 0 planted reached
  obtain ⟨next, joins, merged⟩ := merges (count ▸ by decide)
  exact ⟨planted, next, tree, reached, count, forested, joins, merged⟩

end NodeSpace

end BlockSort
