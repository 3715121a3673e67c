import BlockSort.Proofs.PrefixCode.Depths
import BlockSort.Proofs.Storage.NodeHeap

/-!
Trees of nodes in arrays. Every node has a tree below it, which no later join changes; as in a
forest of trees, weights pack totals and heights, and the two nodes that are joined are the least.
-/
namespace BlockSort

open PrefixCode (Heap Weight Weighted Forest Weighed)

namespace Cells

variable {α : Type} {cells after : Array α}

theorem put_spec {place : Nat} (inside : place < cells.size) (item : α) :
    ∃ after, put cells place item = some after ∧ after.size = cells.size ∧
      ∀ other, after[other]? = if other = place then some item else cells[other]? := by
  refine ⟨_, put_of_lt inside item, Array.size_set .., fun other => ?_⟩
  split
  · rename_i same
    rw [same]
    exact Array.getElem?_set_self ..
  · exact Array.getElem?_set_ne _ (Ne.symm ‹_›)

end Cells

namespace NodeSpace

variable {n m : Nat} {parents : Array (Option Nat)} {space : NodeSpace} {leaves : Vector Weight n}
variable {frequency : Fin n → Nat} {tree : Nat → PrefixCode.Tree (Fin n)} {heap : Heap Nat m}

/-- The tree that stands below a node, as the parents tell: the leaf of a symbol has no nodes below
it, and every other node has two. -/
inductive Stands (parents : Array (Option Nat)) : Nat → PrefixCode.Tree (Fin n) → Prop where
  | leaf (symbol : Fin n)
      (bare : ∀ child < symbol.val + 1, parents[child]? ≠ some (some (symbol.val + 1))) :
      Stands parents (symbol.val + 1) (.leaf symbol)
  | node {above left right : Nat} {first second : PrefixCode.Tree (Fin n)} (apart : left ≠ right)
      (leftBelow : left < above) (rightBelow : right < above)
      (children : ∀ child < above,
        parents[child]? = some (some above) ↔ child = left ∨ child = right)
      (one : Stands parents left first) (other : Stands parents right second) :
      Stands parents above (.node first second)

/-- A tree stands as long as no node gets another parent up to its root. -/
theorem Stands.congr {after : Array (Option Nat)} {node limit : Nat}
    {tree : PrefixCode.Tree (Fin n)} (stands : Stands parents node tree) (within : node ≤ limit)
    (same : ∀ child above, child < above → above ≤ limit →
      (after[child]? = some (some above) ↔ parents[child]? = some (some above))) :
    Stands after node tree := by
  induction stands with
  | leaf symbol bare =>
    exact .leaf symbol fun child below => mt (same child _ below within).mp (bare child below)
  | node apart leftBelow rightBelow children one other first second =>
    refine .node apart leftBelow rightBelow (fun child below => ?_) (first (by omega))
      (second (by omega))
    rw [same child _ below within]
    exact children child below

/-- There is room for all nodes of an alphabet. -/
structure Roomy (n : Nat) (space : NodeSpace) : Prop where
  heap : n < space.heap.size
  weights : 2 * n ≤ space.weights.size
  parents : 2 * n ≤ space.parents.size

/-- The leaves of all symbols have the given weights. -/
def Bears (space : NodeSpace) (leaves : Vector Weight n) : Prop :=
  ∀ symbol : Fin n, space.weights[symbol.val + 1]? = some (leaves.get symbol)

/-- A node that has no parent. -/
structure IsRoot (space : NodeSpace) (node : Nat) : Prop where
  positive : 1 ≤ node
  within : node ≤ space.nodes
  free : space.parents[node]? = some none

/-- A node as the root of its tree. -/
def rootOf (tree : Nat → PrefixCode.Tree (Fin n)) (entry : Weighted Nat) :
    Weighted (PrefixCode.Tree (Fin n)) := ⟨entry.weight, tree entry.item⟩

/-- What holds between two joins. -/
structure Rooted (space : NodeSpace) (leaves : Vector Weight n)
    (tree : Nat → PrefixCode.Tree (Fin n)) (heap : Heap Nat m) : Prop where
  roomy : space.Roomy n
  bears : space.Bears leaves
  holds : space.Holds heap
  number : space.nodes + m = 2 * n
  enough : n ≤ space.nodes
  roots : (heap.toList.map Weighted.item).Perm
    ((List.range' 1 space.nodes).filter fun node => space.parents[node]? = some none)
  links : ∀ node ≤ space.nodes, ∀ above, space.parents[node]? = some (some above) →
    above ≤ space.nodes
  leaf : ∀ symbol : Fin n, tree (symbol.val + 1) = .leaf symbol
  stands : ∀ node, 1 ≤ node → node ≤ space.nodes → Stands space.parents node (tree node)
  ordered : Heap.Ordered heap m

/-- As long as no frequencies overflow, weights pack the totals and heights of trees. -/
structure Loaded (space : NodeSpace) (frequency : Fin n → Nat)
    (tree : Nat → PrefixCode.Tree (Fin n)) (heap : Heap Nat m) : Prop where
  packs : ∀ node, 1 ≤ node → node ≤ space.nodes → ∃ weight, space.weights[node]? = some weight ∧
    weight.Packs ((tree node).total frequency) (tree node).height
  forest : Forest frequency (heap.toList.map (rootOf tree))

namespace Rooted

theorem root (rooted : Rooted space leaves tree heap) {entry : Weighted Nat}
    (member : entry ∈ heap.toList) : space.IsRoot entry.item := by
  have listed := rooted.roots.mem_iff.mp (List.mem_map_of_mem member)
  rw [List.mem_filter, List.mem_range'_1, decide_eq_true_eq] at listed
  exact ⟨listed.1.1, by omega, listed.2⟩

theorem nodup (rooted : Rooted space leaves tree heap) :
    (heap.toList.map Weighted.item).Nodup :=
  rooted.roots.nodup_iff.mpr (List.Nodup.filter _ List.nodup_range')

/-- The nodes that are taken are the roots of the least two trees. -/
theorem least {heap : Heap Nat (m + 2)} (rooted : Rooted space leaves tree heap) :
    (heap.takeLeast.1 :: heap.takeLeast.2.takeLeast.1 :: heap.takeLeast.2.takeLeast.2.toList).Perm
        heap.toList ∧
      (∀ entry ∈ heap.takeLeast.2.takeLeast.1 :: heap.takeLeast.2.takeLeast.2.toList,
        heap.takeLeast.1.weight ≤ entry.weight) ∧
      ∀ entry ∈ heap.takeLeast.2.takeLeast.2.toList,
        heap.takeLeast.2.takeLeast.1.weight ≤ entry.weight := by
  have taken := Heap.takeLeast_perm heap
  have again := Heap.takeLeast_perm heap.takeLeast.2
  refine ⟨(again.cons _).trans taken, fun entry member => ?_, fun entry member => ?_⟩
  · exact Heap.takeLeast_le rooted.ordered entry
      (taken.mem_iff.mp (List.mem_cons_of_mem _ (again.mem_iff.mp member)))
  · exact Heap.takeLeast_le (Heap.takeLeast_ordered rooted.ordered) entry
      (again.mem_iff.mp (List.mem_cons_of_mem _ member))

end Rooted

/-- The parents after a join: two roots get a new one above them. -/
structure Linked (before after : Array (Option Nat)) (first second above : Nat) : Prop where
  size : after.size = before.size
  root : after[above]? = some none
  left : after[first]? = some (some above)
  right : after[second]? = some (some above)
  others : ∀ node, node ≠ above → node ≠ first → node ≠ second → after[node]? = before[node]?

variable {before after : Array (Option Nat)} {first second above : Nat}

theorem linked_put (firstIn : first < above) (secondIn : second < above)
    (room : above < before.size) :
    ∃ half both after, Cells.put before first (some above) = some half ∧
      Cells.put half second (some above) = some both ∧ Cells.put both above none = some after ∧
      Linked before after first second above := by
  obtain ⟨half, putFirst, halfSize, halfAt⟩ :=
    Cells.put_spec (firstIn.trans room) (some above)
  obtain ⟨both, putSecond, bothSize, bothAt⟩ :=
    Cells.put_spec ((secondIn.trans room).trans_eq halfSize.symm) (some above)
  obtain ⟨after, putRoot, size, afterAt⟩ :=
    Cells.put_spec (room.trans_eq (bothSize.trans halfSize).symm) (none : Option Nat)
  refine ⟨half, both, after, putFirst, putSecond, putRoot, by omega, ?_, ?_, ?_,
    fun node root one two => ?_⟩
  · exact (afterAt _).trans (if_pos rfl)
  · rw [afterAt, if_neg firstIn.ne, bothAt]
    split
    · rfl
    · rw [halfAt, if_pos rfl]
  · rw [afterAt, if_neg secondIn.ne, bothAt, if_pos rfl]
  · rw [afterAt, if_neg root, bothAt, if_neg two, halfAt, if_neg one]

/-- If no node had a parent from the new one on, then none has one beyond it. -/
theorem Linked.bounded (linked : Linked before after first second above)
    (links : ∀ node < above, ∀ parent, before[node]? = some (some parent) → parent < above)
    {node parent : Nat} (within : node ≤ above) (found : after[node]? = some (some parent)) :
    parent ≤ above := by
  by_cases root : node = above
  · rw [root, linked.root] at found
    cases found
  by_cases one : node = first
  · rw [one, linked.left] at found
    cases found
    exact Nat.le_refl _
  by_cases two : node = second
  · rw [two, linked.right] at found
    cases found
    exact Nat.le_refl _
  rw [linked.others node root one two] at found
  exact (links node (by omega) parent found).le

theorem Linked.children (linked : Linked before after first second above)
    (links : ∀ node < above, ∀ parent, before[node]? = some (some parent) → parent < above)
    {child : Nat} (below : child < above) :
    after[child]? = some (some above) ↔ child = first ∨ child = second := by
  constructor
  · intro found
    by_contra neither
    obtain ⟨one, two⟩ := not_or.mp neither
    rw [linked.others child below.ne one two] at found
    exact absurd (links child below above found) (lt_irrefl above)
  · rintro (rfl | rfl)
    · exact linked.left
    · exact linked.right

theorem Linked.same (linked : Linked before after first second above)
    (firstRoot : before[first]? = some none) (secondRoot : before[second]? = some none)
    {child node : Nat} (below : child < node) (within : node < above) :
    after[child]? = some (some node) ↔ before[child]? = some (some node) := by
  by_cases one : child = first
  · subst one
    simp only [linked.left, firstRoot, Option.some.injEq]
    constructor
    · rintro rfl
      omega
    · rintro ⟨⟩
  by_cases two : child = second
  · subst two
    simp only [linked.right, secondRoot, Option.some.injEq]
    constructor
    · rintro rfl
      omega
    · rintro ⟨⟩
  rw [linked.others child (by omega) one two]

theorem Linked.stands (linked : Linked before after first second above)
    (firstRoot : before[first]? = some none) (secondRoot : before[second]? = some none)
    {node : Nat} {tree : PrefixCode.Tree (Fin n)} (stands : Stands before node tree)
    (within : node < above) : Stands after node tree :=
  stands.congr (Nat.le_sub_one_of_lt within) fun _ _ below inside =>
    linked.same firstRoot secondRoot below (by omega)

/-- What a join does to the arrays. -/
structure Joined (space next : NodeSpace) (first second : Weighted Nat) (rest : Heap Nat m) :
    Prop where
  nodes : next.nodes = space.nodes + 1
  linked : Linked space.parents next.parents first.item second.item next.nodes
  weight : next.weights[next.nodes]? = some (Weight.join first.weight second.weight)
  others : ∀ node, node ≠ next.nodes → next.weights[node]? = space.weights[node]?
  weights : next.weights.size = space.weights.size
  heap : next.heap.size = space.heap.size
  holds : next.Holds (rest.add ⟨Weight.join first.weight second.weight, next.nodes⟩)

theorem Rooted.joins {heap : Heap Nat (m + 2)} (rooted : Rooted space leaves tree heap) :
    ∃ next, space.joinLeast = some next ∧ Joined space next heap.takeLeast.1
      heap.takeLeast.2.takeLeast.1 heap.takeLeast.2.takeLeast.2 := by
  obtain ⟨perm, -, -⟩ := rooted.least
  obtain ⟨roomHeap, roomWeights, roomParents⟩ := rooted.roomy
  have number := rooted.number
  have enough := rooted.enough
  have member {entry : Weighted Nat} (found : entry ∈ heap.takeLeast.1 ::
      heap.takeLeast.2.takeLeast.1 :: heap.takeLeast.2.takeLeast.2.toList) :
      entry.item ≤ space.nodes ∧ space.weights[entry.item]? = some entry.weight :=
    ⟨(rooted.root (perm.mem_iff.mp found)).within, rooted.holds.weighs _ (perm.mem_iff.mp found)⟩
  obtain ⟨firstIn, firstWeight⟩ := member List.mem_cons_self
  obtain ⟨secondIn, secondWeight⟩ := member (List.mem_cons_of_mem _ List.mem_cons_self)
  have restIn {entry : Weighted Nat} (found : entry ∈ heap.takeLeast.2.takeLeast.2.toList) :=
    member (List.mem_cons_of_mem _ (List.mem_cons_of_mem _ found))
  obtain ⟨cells, taken, one, size⟩ := rooted.holds.takeLeast
  obtain ⟨cells', again, two, size'⟩ := one.takeLeast
  dsimp only at size'
  generalize heap.takeLeast.1 = first at *
  generalize heap.takeLeast.2.takeLeast.1 = second at *
  generalize heap.takeLeast.2.takeLeast.2 = rest at *
  obtain ⟨half, both, parents, putFirst, putSecond, putRoot, linked⟩ := linked_put
    (Nat.lt_succ_of_le firstIn) (Nat.lt_succ_of_le secondIn)
    (show space.nodes + 1 < space.parents.size by omega)
  obtain ⟨weights, putWeight, weightsSize, weightsAt⟩ := Cells.put_spec
    (show space.nodes + 1 < space.weights.size by omega) (Weight.join first.weight second.weight)
  have kept : Holds ⟨cells', weights, parents, m, space.nodes + 1⟩ rest := by
    refine ⟨rfl, two.room, two.front, ?_, two.lists, fun entry found => ?_⟩
    · exact (weightsAt 0).trans ((if_neg (Nat.succ_ne_zero _).symm).trans two.least)
    · obtain ⟨within, weight⟩ := restIn found
      exact (weightsAt entry.item).trans ((if_neg (by omega)).trans weight)
  obtain ⟨cells'', added, holds, size''⟩ := kept.add
    ⟨Weight.join first.weight second.weight, space.nodes + 1⟩ (by dsimp only; omega)
    ((weightsAt _).trans (if_pos rfl))
  refine ⟨_, ?_, rfl, linked, ?_, fun node other => ?_, weightsSize, ?_, holds⟩
  · rw [joinLeast, taken]
    simp only [Option.bind_eq_bind, Option.bind_some]
    rw [again]
    simp only [Option.bind_some, putFirst, putSecond, firstWeight, secondWeight, putWeight, putRoot]
    exact added
  · exact (weightsAt _).trans (if_pos rfl)
  · exact (weightsAt node).trans (if_neg other)
  · exact size''.trans (size'.trans size)

/-- The trees after a join: there is a new one. -/
abbrev joinTrees (tree : Nat → PrefixCode.Tree (Fin n)) (first second : Weighted Nat)
    (above : Nat) : Nat → PrefixCode.Tree (Fin n) :=
  Function.update tree above (.node (tree first.item) (tree second.item))

section Step

variable {next : NodeSpace} {first second : Weighted Nat} {rest : Heap Nat m}
variable {heap : Heap Nat (m + 2)}

/-- The two roots that are joined, and the others. -/
structure Rooted.Parts (space : NodeSpace) (first second : Weighted Nat)
    (rest : List (Weighted Nat)) : Prop where
  left : space.IsRoot first.item
  right : space.IsRoot second.item
  apart : first.item ≠ second.item
  others : ∀ entry ∈ rest, entry.item ≤ space.nodes ∧ entry.item ≠ first.item ∧
    entry.item ≠ second.item

theorem Rooted.parts (rooted : Rooted space leaves tree heap)
    (perm : (first :: second :: rest.toList).Perm heap.toList) :
    Parts space first second rest.toList := by
  have member {entry : Weighted Nat} (found : entry ∈ first :: second :: rest.toList) :=
    rooted.root (perm.mem_iff.mp found)
  have distinct := (perm.map Weighted.item).nodup_iff.mpr rooted.nodup
  simp only [List.map_cons, List.nodup_cons, List.mem_cons, not_or] at distinct
  obtain ⟨⟨apart, fromFirst⟩, fromSecond, -⟩ := distinct
  refine ⟨member List.mem_cons_self, member (List.mem_cons_of_mem _ List.mem_cons_self), apart,
    fun entry found => ⟨?_, ?_, ?_⟩⟩
  · exact (member (List.mem_cons_of_mem _ (List.mem_cons_of_mem _ found))).within
  · rintro same
    exact fromFirst (same ▸ List.mem_map_of_mem found)
  · rintro same
    exact fromSecond (same ▸ List.mem_map_of_mem found)

theorem Rooted.roots_join (rooted : Rooted space leaves tree heap)
    (joined : Joined space next first second rest)
    (perm : (first :: second :: rest.toList).Perm heap.toList) :
    ((⟨Weight.join first.weight second.weight, next.nodes⟩ :: rest.toList).map Weighted.item).Perm
      ((List.range' 1 next.nodes).filter fun node => next.parents[node]? = some none) := by
  have parts := rooted.parts perm
  have linked := joined.linked
  have distinct := (perm.map Weighted.item).nodup_iff.mpr rooted.nodup
  simp only [List.map_cons, List.nodup_cons] at distinct
  have old : (rest.toList.map Weighted.item).Perm
      ((List.range' 1 space.nodes).filter fun node => next.parents[node]? = some none) := by
    refine (List.perm_ext_iff_of_nodup distinct.2.2
      (List.Nodup.filter _ List.nodup_range')).mpr fun node => ?_
    have before := ((perm.map Weighted.item).trans rooted.roots).mem_iff (a := node)
    simp only [List.map_cons, List.mem_cons, List.mem_filter, List.mem_range'_1,
      decide_eq_true_eq] at before ⊢
    constructor
    · intro found
      obtain ⟨inside, root⟩ := before.mp (.inr (.inr found))
      obtain ⟨entry, member, rfl⟩ := List.mem_map.mp found
      obtain ⟨within, one, two⟩ := parts.others entry member
      exact ⟨inside, by rw [linked.others _ (by rw [joined.nodes]; omega) one two, root]⟩
    · rintro ⟨inside, root⟩
      have one : node ≠ first.item := by
        rintro rfl
        rw [linked.left] at root
        cases root
      have two : node ≠ second.item := by
        rintro rfl
        rw [linked.right] at root
        cases root
      rw [linked.others node (by rw [joined.nodes]; omega) one two] at root
      exact ((before.mpr ⟨inside, root⟩).resolve_left one).resolve_left two
  have last := linked.root
  rw [joined.nodes] at last ⊢
  rw [List.range'_concat, List.filter_append, List.map_cons, Nat.one_mul, Nat.add_comm 1]
  simp only [List.filter_cons, last, decide_true, if_true, List.filter_nil]
  exact (old.cons _).trans (List.perm_append_singleton _ _).symm

/-- A join adds one tree, and leaves the others as they are. -/
theorem Joined.trees_of_le (joined : Joined space next first second rest) {node : Nat}
    (within : node ≤ space.nodes) : joinTrees tree first second next.nodes node = tree node :=
  Function.update_of_ne (by rw [joined.nodes]; omega) ..

/-- The trees of the nodes that are still to be joined are those of a forest after a join. -/
theorem Loaded.forest_join (loaded : Loaded space frequency tree heap)
    (rooted : Rooted space leaves tree heap) (joined : Joined space next first second rest)
    (perm : (first :: second :: rest.toList).Perm heap.toList)
    (least : ∀ entry ∈ rest.toList, first.weight ≤ entry.weight)
    (second_least : ∀ entry ∈ rest.toList, second.weight ≤ entry.weight) :
    Forest frequency ((⟨Weight.join first.weight second.weight, next.nodes⟩ :: rest.toList).map
      (rootOf (joinTrees tree first second next.nodes))) := by
  have before := loaded.forest.perm (perm.map (rootOf tree)).symm
  have others : rest.toList.map (rootOf (joinTrees tree first second next.nodes)) =
      rest.toList.map (rootOf tree) := List.map_congr_left fun entry found => by
    rw [rootOf, rootOf, joined.trees_of_le ((rooted.parts perm).others entry found).1]
  rw [List.map_cons, others, rootOf, joinTrees, Function.update_self]
  refine before.join (fun entry found => ?_) (fun entry found => ?_)
  all_goals obtain ⟨root, listed, rfl⟩ := List.mem_map.mp found
  · exact least root listed
  · exact second_least root listed

theorem Rooted.links_lt (rooted : Rooted space leaves tree heap)
    (joined : Joined space next first second rest) :
    ∀ node < next.nodes, ∀ parent, space.parents[node]? = some (some parent) →
      parent < next.nodes := by
  intro node within parent found
  have nodes := joined.nodes
  exact nodes ▸ Nat.lt_succ_of_le (rooted.links node (by omega) parent found)

theorem Rooted.stands_join (rooted : Rooted space leaves tree heap)
    (joined : Joined space next first second rest)
    (perm : (first :: second :: rest.toList).Perm heap.toList) {node : Nat} (positive : 1 ≤ node)
    (within : node ≤ next.nodes) :
    Stands next.parents node (joinTrees tree first second next.nodes node) := by
  have parts := rooted.parts perm
  have nodes := joined.nodes
  have old {root : Nat} (positive : 1 ≤ root) (within : root < next.nodes) :
      Stands next.parents root (tree root) :=
    joined.linked.stands parts.left.free parts.right.free
      (rooted.stands root positive (by omega)) within
  rcases Nat.lt_or_ge node next.nodes with earlier | latest
  · rw [joined.trees_of_le (by omega)]
    exact old positive earlier
  · obtain rfl : node = next.nodes := Nat.le_antisymm within latest
    have left : first.item < next.nodes := nodes ▸ Nat.lt_succ_of_le parts.left.within
    have right : second.item < next.nodes := nodes ▸ Nat.lt_succ_of_le parts.right.within
    rw [joinTrees, Function.update_self]
    exact .node parts.apart left right
      (fun child below => joined.linked.children (rooted.links_lt joined) below)
      (old parts.left.positive left) (old parts.right.positive right)

theorem Rooted.step (rooted : Rooted space leaves tree heap)
    (joined : Joined space next first second rest)
    (perm : (first :: second :: rest.toList).Perm heap.toList) (ordered : Heap.Ordered rest m) :
    Rooted next leaves (joinTrees tree first second next.nodes)
      (rest.add ⟨Weight.join first.weight second.weight, next.nodes⟩) := by
  have nodes := joined.nodes
  have number := rooted.number
  have enough := rooted.enough
  have added := Heap.add_perm rest ⟨Weight.join first.weight second.weight, next.nodes⟩
  refine ⟨⟨?_, ?_, ?_⟩, fun symbol => ?_, joined.holds, by omega, by omega, ?_,
    fun node within above => joined.linked.bounded (rooted.links_lt joined) within,
    fun symbol => ?_, fun node => rooted.stands_join joined perm, Heap.add_ordered ordered _⟩
  · exact rooted.roomy.heap.trans_eq joined.heap.symm
  · exact rooted.roomy.weights.trans_eq joined.weights.symm
  · exact rooted.roomy.parents.trans_eq joined.linked.size.symm
  · rw [joined.others _ (by omega)]
    exact rooted.bears symbol
  · exact (added.map _).trans (rooted.roots_join joined perm)
  · rw [joined.trees_of_le (by omega), rooted.leaf symbol]

theorem Loaded.step (loaded : Loaded space frequency tree heap)
    (rooted : Rooted space leaves tree heap) (joined : Joined space next first second rest)
    (perm : (first :: second :: rest.toList).Perm heap.toList)
    (least : ∀ entry ∈ rest.toList, first.weight ≤ entry.weight)
    (second_least : ∀ entry ∈ rest.toList, second.weight ≤ entry.weight) :
    Loaded next frequency (joinTrees tree first second next.nodes)
      (rest.add ⟨Weight.join first.weight second.weight, next.nodes⟩) := by
  have nodes := joined.nodes
  have added := Heap.add_perm rest ⟨Weight.join first.weight second.weight, next.nodes⟩
  have forest := loaded.forest_join rooted joined perm least second_least
  refine ⟨fun node positive within => ?_, forest.perm (added.map _).symm⟩
  rcases Nat.lt_or_ge node next.nodes with earlier | latest
  · rw [joined.trees_of_le (by omega), joined.others _ (by omega)]
    exact loaded.packs node positive (by omega)
  · obtain rfl : node = next.nodes := Nat.le_antisymm within latest
    exact ⟨_, joined.weight, (forest.sound _ List.mem_cons_self).packs⟩

theorem Rooted.joinLeast (rooted : Rooted space leaves tree heap) :
    ∃ next, space.joinLeast = some next ∧
      Joined space next heap.takeLeast.1 heap.takeLeast.2.takeLeast.1
        heap.takeLeast.2.takeLeast.2 ∧
      Rooted next leaves
        (joinTrees tree heap.takeLeast.1 heap.takeLeast.2.takeLeast.1 next.nodes)
        (heap.takeLeast.2.takeLeast.2.add ⟨Weight.join heap.takeLeast.1.weight
          heap.takeLeast.2.takeLeast.1.weight, next.nodes⟩) := by
  obtain ⟨perm, -, -⟩ := rooted.least
  obtain ⟨next, run, joined⟩ := rooted.joins
  exact ⟨next, run, joined, rooted.step joined perm
    (Heap.takeLeast_ordered (Heap.takeLeast_ordered rooted.ordered))⟩

end Step

end NodeSpace

end BlockSort
