import BlockSort.Proofs.Storage.Coding
import Mathlib.Algebra.BigOperators.Group.Finset.Basic
import Mathlib.Algebra.BigOperators.Group.Finset.Piecewise
import Mathlib.Algebra.Order.BigOperators.Group.Finset

namespace BlockSort.Coding

variable {α : Type} {n : Nat}

/-- The symbols that share a table, by the place of their group. -/
def groupAt (symbols : List α) (place : Nat) : List α :=
  (symbols.drop (groupSize * place)).take groupSize

/-- How many groups symbols are cut into. -/
def groupCount (symbols : List α) : Nat := (symbols.length + (groupSize - 1)) / groupSize

theorem groupAt_succ (symbols : List α) (place : Nat) :
    groupAt symbols (place + 1) = groupAt (symbols.drop groupSize) place := by
  rw [groupAt, groupAt, List.drop_drop, Nat.mul_succ, Nat.add_comm]

theorem groupsOf_eq (symbols : List α) :
    groupsOf symbols = (List.range (groupCount symbols)).map (groupAt symbols) := by
  fun_induction groupsOf symbols with
  | case1 => simp [groupCount, groupSize]
  | case2 first rest ih =>
    have dropped : (first :: rest).drop groupSize = rest.drop (groupSize - 1) := rfl
    have count : groupCount (first :: rest) =
        groupCount (rest.drop (groupSize - 1)) + 1 := by
      simp only [groupCount, groupSize, List.length_cons, List.length_drop]
      omega
    rw [count, List.range_succ_eq_map, List.map_cons, List.map_map, ih]
    congr 1
    refine List.map_congr_left fun place _ => ?_
    rw [Function.comp_apply, groupAt_succ, dropped]

theorem flatMap_groupAt (symbols : List α) :
    (List.range (groupCount symbols)).flatMap (groupAt symbols) = symbols := by
  rw [List.flatMap_def, ← groupsOf_eq, flatten_groupsOf]

/-- A group selects a table that exists, no table takes fewer bits for it, and each one before it
takes more. -/
theorem cheapest_spec {tables : List (Vector Nat n)} (nonempty : tables ≠ []) (group : List (Fin n)) :
    ∃ table, tables[(cheapest tables group).1]? = some table ∧
      cost table group = (cheapest tables group).2 ∧
      (∀ other ∈ tables, cost table group ≤ cost other group) ∧
      ∀ earlier < (cheapest tables group).1, ∀ other,
        tables[earlier]? = some other → cost table group < cost other group := by
  have costs : tables.map (cost · group) ≠ [] := by simpa using nonempty
  obtain ⟨least, found⟩ := Option.isSome_iff_exists.mp (List.isSome_min?_of_ne_nil costs)
  obtain ⟨member, below⟩ := List.min?_eq_some_iff.mp found
  have inside := List.idxOf_lt_length_of_mem member
  have bound := cheapest_lt nonempty group
  have first : (cheapest tables group).1 = (tables.map (cost · group)).idxOf least := by
    simp only [cheapest, found, Option.getD_some]
  have value : (cheapest tables group).2 = least := by
    simp only [cheapest, found, Option.getD_some]
  have price : cost tables[(cheapest tables group).1] group = least := by
    have read := List.getElem_idxOf inside
    simp only [List.getElem_map, ← first] at read
    exact read
  refine ⟨_, List.getElem?_eq_getElem bound, price.trans value.symm, fun other known => ?_,
    fun earlier before other known => ?_⟩
  · rw [price]
    exact below _ (List.mem_map_of_mem known)
  · have near := List.mem_of_getElem? known
    rw [price]
    refine lt_of_le_of_ne (below _ (List.mem_map_of_mem near)) fun same => ?_
    have inside := (List.getElem?_eq_some_iff.mp known).1
    have differs := List.not_of_lt_findIdx (p := (· == least)) (first ▸ before)
    rw [List.getElem_map, List.getElem_eq_iff inside |>.mpr known, beq_eq_false_iff_ne] at differs
    exact differs same.symm

/-- The symbols of the groups that selected a table. -/
def served (places : List Nat) (select : Nat → Option Nat) (group : Nat → List α) (table : Nat) :
    List α :=
  places.flatMap fun place => if select place = some table then group place else []

theorem served_map {β : Type} (value : α → β) (places : List Nat) (select : Nat → Option Nat)
    (group : Nat → List α) (table : Nat) :
    (served places select group table).map value =
      served places select (fun place => (group place).map value) table := by
  rw [served, served, List.map_flatMap]
  refine List.flatMap_congr fun place _ => ?_
  split <;> rfl

/-- A symbol is counted for the table that its group selected, and for no other. -/
theorem sum_count_served [BEq α] {tables : Nat} {select : Nat → Option Nat} (group : Nat → List α)
    {places : List Nat} (selected : ∀ place ∈ places, ∃ table < tables, select place = some table)
    (symbol : α) :
    ∑ table ∈ Finset.range tables, (served places select group table).count symbol =
      (places.flatMap group).count symbol := by
  induction places with
  | nil => simp [served]
  | cons place places ih =>
    obtain ⟨own, inside, choice⟩ := selected place List.mem_cons_self
    have once : ∑ table ∈ Finset.range tables,
        (if select place = some table then group place else []).count symbol =
          (group place).count symbol := by
      rw [choice, Finset.sum_eq_single_of_mem own (Finset.mem_range.mpr inside) fun table _ other =>
        by rw [if_neg fun same => other (Option.some.inj same).symm, List.count_nil], if_pos rfl]
    simp only [served, List.flatMap_cons, List.count_append, Finset.sum_add_distrib] at ih ⊢
    rw [once, ih fun other member => selected other (List.mem_cons_of_mem _ member)]

theorem symbolsOf_eq_served {places : List Nat} (group : Nat → List (Fin n)) (select : Nat → Nat)
    (table : Nat) :
    symbolsOf (places.map group) (places.map select) table =
      served places (fun place => some (select place)) group table := by
  rw [symbolsOf, served, List.zip_map', List.flatMap_map]
  simp only [Option.some.injEq]

/-- The table that the group at a place selects. -/
def selected (symbols : List (Fin n)) (tables : List (Vector Nat n)) (place : Nat) : Nat :=
  (cheapest tables (groupAt symbols place)).1

theorem selectors_revise (symbols : List (Fin n)) (tables : List (Vector Nat n)) :
    (revise (groupsOf symbols) tables).selectors =
      (List.range (groupCount symbols)).map (selected symbols tables) := by
  rw [revise, groupsOf_eq, List.map_map, List.map_map]
  rfl

theorem bits_revise (symbols : List (Fin n)) (tables : List (Vector Nat n)) :
    (revise (groupsOf symbols) tables).bits =
      ∑ place ∈ Finset.range (groupCount symbols), (cheapest tables (groupAt symbols place)).2 := by
  rw [revise, groupsOf_eq]
  simp only [List.map_map, ← List.sum_eq_foldl]
  rfl

theorem symbolsOf_revise (symbols : List (Fin n)) (tables : List (Vector Nat n)) (table : Nat) :
    symbolsOf (groupsOf symbols) (revise (groupsOf symbols) tables).selectors table =
      served (List.range (groupCount symbols)) (fun place => some (selected symbols tables place))
        (groupAt symbols) table := by
  rw [selectors_revise, groupsOf_eq, symbolsOf_eq_served]

theorem cost_eq_sum (table : Vector Nat n) (group : List (Fin n)) :
    cost table group = (group.map table.get).sum := by
  rw [cost, List.sum_eq_foldl, List.foldl_map]

theorem groupAt_map {β : Type} (value : α → β) (symbols : List α) (place : Nat) :
    groupAt (symbols.map value) place = (groupAt symbols place).map value := by
  rw [groupAt, groupAt, ← List.map_drop, ← List.map_take]

end BlockSort.Coding
