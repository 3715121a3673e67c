import BlockSort.Proofs.PrefixCode.HeapItems
import BlockSort.Proofs.Storage.Planting
import BlockSort.Proofs.Storage.Spread

namespace BlockSort

open PrefixCode (Heap Weight Weighted Weighed)

namespace NodeSpace

variable {n m : Nat} {space : NodeSpace} {leaves : Vector Weight n}
variable {tree : Nat → PrefixCode.Tree (Fin n)} {parents : Array (Option Nat)}

theorem joinAll_single (single : space.count ≤ 1) : space.joinAll = some space := by
  rw [joinAll, if_neg (by omega)]

theorem joinAll_several {next : NodeSpace} (several : 1 < space.count)
    (joins : space.joinLeast = some next) : space.joinAll = next.joinAll := by
  rw [joinAll, if_pos several]
  split
  · rename_i missing
    rw [joins] at missing
    cases missing
  · rename_i found
    rw [joins, Option.some.injEq] at found
    rw [found]

theorem rootOf_weight (entry : Weighted Nat) : (rootOf tree entry).weight = entry.weight := rfl

theorem Rooted.map_join {heap : Heap Nat (m + 2)} (rooted : Rooted space leaves tree heap)
    {above : Nat} (fresh : space.nodes < above) :
    (heap.takeLeast.2.takeLeast.2.add
        ⟨Weight.join heap.takeLeast.1.weight heap.takeLeast.2.takeLeast.1.weight, above⟩).map
        (rootOf (joinTrees tree heap.takeLeast.1 heap.takeLeast.2.takeLeast.1 above)) =
      Heap.add (Heap.takeLeast (Heap.takeLeast (heap.map (rootOf tree))).2).2
        (PrefixCode.Tree.join (Heap.takeLeast (heap.map (rootOf tree))).1
          (Heap.takeLeast (Heap.takeLeast (heap.map (rootOf tree))).2).1) := by
  obtain ⟨perm, -, -⟩ := rooted.least
  rw [Heap.map_add rootOf_weight, Heap.map_takeLeast rootOf_weight,
    Heap.map_takeLeast rootOf_weight]
  have others : heap.takeLeast.2.takeLeast.2.map
      (rootOf (joinTrees tree heap.takeLeast.1 heap.takeLeast.2.takeLeast.1 above)) =
      heap.takeLeast.2.takeLeast.2.map (rootOf tree) := by
    refine Vector.map_congr_left fun entry member => ?_
    have within := (rooted.root (perm.mem_iff.mp (List.mem_cons_of_mem _
      (List.mem_cons_of_mem _ (Vector.mem_toList_iff.mpr member))))).within
    rw [rootOf, rootOf, joinTrees, Function.update_of_ne (by omega)]
  rw [others]
  congr 1
  rw [rootOf, joinTrees, Function.update_self]
  rfl

/-- All joins together make the tree that they make of a heap of trees. -/
theorem Rooted.joinAll {heap : Heap Nat (m + 1)} (rooted : Rooted space leaves tree heap) :
    ∃ (final : NodeSpace) (after : Nat → PrefixCode.Tree (Fin n)) (last : Heap Nat 1),
      space.joinAll = some final ∧ Rooted final leaves after last ∧
      rootOf after last[0] = PrefixCode.Tree.merge (heap.map (rootOf tree)) := by
  induction m generalizing space tree with
  | zero =>
    refine ⟨space, tree, heap, joinAll_single rooted.holds.count.le, rooted, ?_⟩
    rw [PrefixCode.Tree.merge, Vector.getElem_map]
  | succ m ih =>
    obtain ⟨next, run, joined, after⟩ := rooted.joinLeast
    obtain ⟨final, trees, last, joins, result, same⟩ := ih after
    refine ⟨final, trees, last, ?_, result, ?_⟩
    · rw [joinAll_several (rooted.holds.count ▸ Nat.lt_add_left m Nat.one_lt_two) run, joins]
    · rw [same, rooted.map_join (joined.nodes ▸ Nat.lt_succ_self space.nodes),
        PrefixCode.Tree.merge_step]

/-- The way from a leaf up to the root of a tree takes as many steps as the leaf is below it. -/
theorem Stands.climb_eq {node : Nat} {tree : PrefixCode.Tree (Fin n)}
    (stands : Stands parents node tree) {depth : Nat} {leaf : Fin n × Nat}
    (member : leaf ∈ tree.leafDepths depth) (places steps : Nat) :
    climb parents (places + (leaf.2 - depth)) (leaf.1.val + 1) steps =
      climb parents places node (steps + (leaf.2 - depth)) := by
  induction stands generalizing depth places steps with
  | leaf symbol bare =>
    obtain rfl : leaf = (symbol, depth) := by simpa [PrefixCode.Tree.leafDepths] using member
    simp
  | @node above left right first second apart leftBelow rightBelow children one other ih ih' =>
    rw [PrefixCode.Tree.leafDepths, List.mem_append] at member
    have level : leaf.2 - depth = leaf.2 - (depth + 1) + 1 := by
      rcases member with inside | inside
      · have deeper := (PrefixCode.Tree.le_leafDepths leaf inside).1
        omega
      · have deeper := (PrefixCode.Tree.le_leafDepths leaf inside).1
        omega
    have up {child : Nat} (near : child < above) (below : child = left ∨ child = right)
        (steps : Nat) :
        climb parents (places + 1) child steps = climb parents places above (steps + 1) := by
      rw [climb, (children child near).mpr below]
      rfl
    rw [level, Nat.add_comm _ 1, ← Nat.add_assoc places]
    rcases member with inside | inside
    · rw [ih inside, up leftBelow (.inl rfl), Nat.add_comm 1, Nat.add_assoc]
    · rw [ih' inside, up rightBelow (.inr rfl), Nat.add_comm 1, Nat.add_assoc]

theorem Stands.climb_root {node : Nat} {tree : PrefixCode.Tree (Fin n)}
    (stands : Stands parents node tree) (free : parents[node]? = some none) {leaf : Fin n × Nat}
    (member : leaf ∈ tree.leafDepths 0) {places : Nat} (room : leaf.2 < places) :
    climb parents places (leaf.1.val + 1) 0 = some leaf.2 := by
  obtain ⟨rest, rfl⟩ := Nat.exists_eq_add_of_lt room
  have way := stands.climb_eq member (rest + 1) 0
  rw [Nat.sub_zero, Nat.zero_add] at way
  rw [show leaf.2 + rest + 1 = rest + 1 + leaf.2 by omega, way, climb, free]
  rfl

/-- The ways up from all leaves give the depths of a tree that has one for every symbol. -/
theorem depths_eq {root : Nat} {tree : PrefixCode.Tree (Fin n)}
    (stands : Stands space.parents root tree) (free : space.parents[root]? = some none)
    (whole : tree.leaves.Perm (List.finRange n)) (wide : n ≤ space.parents.size)
    (old : Vector Nat n) :
    space.depths n = some (PrefixCode.Tree.recordDepths old 0 tree).toList := by
  have climbs (place item : Nat)
      (found : (PrefixCode.Tree.recordDepths old 0 tree).toList[place]? = some item) :
      climb space.parents space.parents.size (place + 1) 0 = some item := by
    obtain ⟨inside, rfl⟩ := List.getElem?_eq_some_iff.mp found
    have within : place < n := by simpa using inside
    obtain ⟨leaf, member, same⟩ : ∃ leaf ∈ tree.leafDepths 0, leaf.1 = ⟨place, within⟩ := by
      rw [← List.mem_map, PrefixCode.Tree.leafDepths_map_fst, whole.mem_iff]
      exact List.mem_finRange _
    have recorded := PrefixCode.Tree.recordDepths_get whole old 0 leaf member
    have bound := (PrefixCode.Tree.le_leafDepths leaf member).2
    have deep := tree.height_lt_length
    rw [whole.length_eq, List.length_finRange] at deep
    have way := stands.climb_root free member (by omega : leaf.2 < space.parents.size)
    rw [same] at way recorded
    rw [way, ← recorded, Vector.get_eq_getElem, Vector.getElem_toList]
  have all := mapM_range climbs
  rwa [Vector.length_toList] at all

/-- The leaves in the arrays make up the heap that the trees of one leaf do. -/
theorem map_grove (positive : 0 < n) (leaves : Vector Weight n) :
    (grove leaves n (Nat.le_refl n)).map (rootOf (leafTree positive)) =
      Heap.ofVector (PrefixCode.leavesOf leaves) := by
  symm
  refine Heap.ofVector_eq (fun count fits => (grove leaves count fits).map
    (rootOf (leafTree positive))) fun count fits => ?_
  rw [grove, Heap.map_add rootOf_weight, rootOf, leafTree_succ positive ⟨count, fits⟩]
  simp [PrefixCode.leavesOf]

theorem Planted.joinAll {leaves : Vector Weight (n + 1)}
    (planted : space.Planted leaves (n + 1) (Nat.le_refl _)) :
    ∃ final, space.joinAll = some final ∧ final.Roomy (n + 1) ∧ final.Bears leaves ∧
      final.depths (n + 1) = some (PrefixCode.depths leaves).toList := by
  obtain ⟨final, tree, last, joins, rooted, same⟩ := (planted.rooted (Nat.succ_pos n)).joinAll
  rw [map_grove] at same
  have tall : tree last[0].item = PrefixCode.treeOf leaves := congrArg Weighted.item same
  have root := rooted.root (show last[0] ∈ last.toList by simp)
  have stands := rooted.stands _ root.positive root.within
  rw [tall] at stands
  have wide := (Nat.le_mul_of_pos_left _ Nat.two_pos).trans rooted.roomy.parents
  exact ⟨final, joins, rooted.roomy, rooted.bears,
    depths_eq stands root.free (PrefixCode.whole_treeOf leaves) wide _⟩

/-- If a depth exceeds the limit, the next round begins with halved frequencies. -/
theorem fit_succ {limit rounds : Nat} (flat : limit ≤ 255) (positive : 0 < n)
    (roomy : space.Roomy n) (bears : space.Bears leaves) :
    ∃ halved : NodeSpace, halved.Roomy n ∧ halved.Bears (leaves.map Weight.halve) ∧
      fit limit n (rounds + 1) space =
        if (PrefixCode.depths leaves).any (limit < ·) then fit limit n rounds halved
        else some (PrefixCode.depths leaves).toList := by
  obtain ⟨n, rfl⟩ : ∃ count, n = count + 1 := ⟨n - 1, by omega⟩
  obtain ⟨planted, plants, sown⟩ := plant_spec positive roomy bears
  obtain ⟨final, joins, roomy, bears, climbs⟩ := sown.joinAll
  obtain ⟨halved, halves, roomy, bears⟩ := halve_spec roomy bears
  refine ⟨halved, roomy, bears, ?_⟩
  rw [fit, plants]
  simp only [Option.bind_eq_bind, Option.bind_some, joins, climbs, halves, ← Vector.any_toList]
  split
  · rfl
  · rename_i low
    simp only [List.any_eq_true, decide_eq_true_eq, not_exists, not_and, Nat.not_lt] at low
    exact congrArg some ((List.map_congr_left fun depth member =>
      Nat.min_eq_left ((low depth member).trans flat)).trans (List.map_id _))

/-- Leaves whose frequencies are one or two after the given number of halvings. -/
def Waning (rounds : Nat) (leaves : Vector Weight n) : Prop :=
  ∀ symbol, ∃ total, (leaves.get symbol).Packs total 0 ∧ total ≤ 2 ^ rounds + 1 ∧
    (1 ≤ total ∨ 0 < rounds)

theorem waning_ofFrequency (frequencies : Vector UInt32 n) :
    Waning PrefixCode.halvings (frequencies.map Weight.ofFrequency) := by
  intro symbol
  have packs := Weight.packs_ofFrequency_mod (frequencies.get symbol)
  have bound := packs.total_lt
  refine ⟨_, by simpa using packs, ?_, .inr (by decide)⟩
  have large : 2 ^ 24 ≤ 2 ^ PrefixCode.halvings := Nat.pow_le_pow_right Nat.two_pos (by decide)
  omega

theorem Waning.halve {rounds : Nat} (waning : Waning (rounds + 1) leaves) :
    Waning rounds (leaves.map Weight.halve) := by
  intro symbol
  obtain ⟨total, packs, light, -⟩ := waning symbol
  rw [Nat.pow_succ] at light
  exact ⟨1 + total / 2, by simpa using Weight.packs_halve packs, by omega, .inl (by omega)⟩

/-- In the last round no frequencies overflow, and every depth keeps the limit. -/
theorem Waning.depths_le (waning : Waning 0 leaves) (positive : 0 < n)
    (small : n ≤ CodingSpace.largestAlphabet) {limit : Nat} (room : n ≤ 2 ^ limit) :
    ∀ depth ∈ (PrefixCode.depths leaves).toList, depth ≤ limit := by
  choose frequency packs light least using waning
  have one (symbol : Fin n) : 1 ≤ frequency symbol := (least symbol).resolve_right (Nat.lt_irrefl 0)
  have bounded : ((List.finRange n).map frequency).sum < 2 ^ 24 := by
    have sum := List.sum_le_card_nsmul ((List.finRange n).map frequency) 2 (by simpa using light)
    simp only [List.length_map, List.length_finRange, smul_eq_mul,
      CodingSpace.largestAlphabet] at sum small
    omega
  rcases Nat.lt_or_ge n 2 with single | several
  · obtain rfl : n = 1 := by omega
    intro depth member
    have low := PrefixCode.depths_lt leaves depth member
    omega
  · exact (⟨packs, one, bounded⟩ : Weighed leaves frequency).depths_le several light room

/-- Rounds follow on one another as they do for trees. -/
theorem fit_eq {limit rounds : Nat} (waning : Waning rounds leaves) (positive : 0 < n)
    (small : n ≤ CodingSpace.largestAlphabet) (room : n ≤ 2 ^ limit) (flat : limit ≤ 255)
    (roomy : space.Roomy n) (bears : space.Bears leaves) :
    fit limit n (rounds + 1) space = some (PrefixCode.fitDepths limit rounds leaves).toList := by
  induction rounds generalizing space leaves with
  | zero =>
    obtain ⟨_, _, _, run⟩ := fit_succ flat positive roomy bears
    have fits := waning.depths_le positive small room
    rw [run, PrefixCode.fitDepths, if_neg]
    rw [← Vector.any_toList, List.any_eq_true]
    rintro ⟨depth, member, deep⟩
    exact absurd (of_decide_eq_true deep) (Nat.not_lt.mpr (fits depth member))
  | succ rounds ih =>
    obtain ⟨halved, roomy, bears, run⟩ := fit_succ flat positive roomy bears
    rw [run, PrefixCode.fitDepths]
    split
    · exact ih waning.halve roomy bears
    · rfl

theorem fit_nil (heap : 0 < space.heap.size) (weights : 0 < space.weights.size)
    (parents : 0 < space.parents.size) (limit rounds : Nat) :
    fit limit 0 (rounds + 1) space = some [] := by
  obtain ⟨planted, plants, empty⟩ : ∃ planted, space.plant 0 = some planted ∧ planted.count = 0 := by
    simp [plant, Cells.put, heap, weights, parents]
  simp [fit, plants, joinAll_single (empty.trans_le (Nat.zero_le 1)), depths]

theorem lengths_nil (limit : Nat) : lengths [] limit = some [] := by
  rw [lengths, ofFrequencies, List.map_nil, Cells.putAll]
  simp only [Option.bind_eq_bind, Option.bind_some, Option.pure_def, List.length_nil]
  refine fit_nil ?_ ?_ ?_ limit _
  all_goals
    rw [Array.size_replicate]
    decide

/-- The lengths that come from arrays are those that come from trees, for every alphabet and all
frequencies. -/
theorem lengths_eq (frequencies : Vector UInt32 n) {limit : Nat}
    (small : n ≤ CodingSpace.largestAlphabet) (room : n ≤ 2 ^ limit) (flat : limit ≤ 255) :
    lengths frequencies.toList limit = some (PrefixCode.lengths frequencies limit).toList := by
  rcases Nat.eq_zero_or_pos n with rfl | positive
  · have empty : frequencies.toList = [] := List.eq_nil_of_length_eq_zero frequencies.length_toList
    rw [empty, lengths_nil]
    simp
  · obtain ⟨space, ready, roomy, bears⟩ := ofFrequencies_spec small
    rw [lengths, ready, Option.bind_eq_bind, Option.bind_some, Vector.length_toList]
    exact fit_eq (waning_ofFrequency frequencies) positive small room flat roomy bears

end NodeSpace

end BlockSort
