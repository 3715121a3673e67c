import BlockSort.CodedStream
import BlockSort.Proofs.PrefixCode.Depths

/-!
What every choice of tables guarantees, whatever the symbols are: each group selects a table that
exists, and every table is complete, so that each symbol has a code.
-/
namespace BlockSort

namespace Coding

variable {α : Type} {n : Nat}

theorem flatten_groupsOf (symbols : List α) : (groupsOf symbols).flatten = symbols := by
  fun_induction groupsOf symbols with
  | case1 => rfl
  | case2 first rest ih =>
    rw [List.flatten_cons, ih, List.cons_append, List.take_append_drop]

theorem length_groupsOf_le (symbols : List α) :
    (groupsOf symbols).length * groupSize < symbols.length + groupSize := by
  fun_induction groupsOf symbols with
  | case1 => simp [groupSize]
  | case2 first rest ih =>
    rw [List.length_cons, List.length_cons]
    rw [List.length_drop] at ih
    simp only [groupSize] at ih ⊢
    omega

theorem tableCount_bounds (symbols : Nat) : 2 ≤ tableCount symbols ∧ tableCount symbols ≤ 6 := by
  rw [tableCount]
  split_ifs <;> decide

theorem Slice.length_cut (tables parts start remaining : Nat) (frequencies : List Nat) :
    (cut tables parts start remaining frequencies).length = parts := by
  induction parts generalizing start remaining frequencies with
  | zero => rfl
  | succ parts ih => rw [cut, List.length_cons, ih]

theorem length_firstTables (tables : Nat) (frequencies : Vector Nat n) :
    (firstTables tables frequencies).length = tables := by
  rw [firstTables, List.length_reverse, List.length_map, Slice.ofFrequencies, Slice.length_cut]

theorem cheapest_lt {tables : List (Vector Nat n)} (nonempty : tables ≠ []) (group : List (Fin n)) :
    (cheapest tables group).1 < tables.length := by
  have costs : tables.map (cost · group) ≠ [] := by simpa using nonempty
  obtain ⟨least, found⟩ := Option.isSome_iff_exists.mp (List.isSome_min?_of_ne_nil costs)
  have selected := List.idxOf_lt_length_of_mem (List.min?_mem found)
  rw [List.length_map] at selected
  simpa only [cheapest, found, Option.getD_some] using selected

theorem sum_histogram (symbols : List (Fin n)) :
    (SymbolStream.histogram symbols).toList.sum = symbols.length := by
  have grows (counts : Vector Nat n) :
      (symbols.foldl (fun (counts : Vector Nat n) (symbol : Fin n) =>
        counts.set symbol (counts.get symbol + 1) symbol.isLt) counts).toList.sum =
        counts.toList.sum + symbols.length := by
    induction symbols generalizing counts with
    | nil => rfl
    | cons symbol rest ih =>
      have bound : symbol.val < counts.toList.length := by simp
      have split := List.sum_take_add_sum_drop counts.toList symbol.val
      rw [List.drop_eq_getElem_cons bound, List.sum_cons] at split
      rw [List.foldl_cons, ih, Vector.toList_set, List.sum_set, if_pos bound, List.length_cons]
      simp only [Vector.get_eq_getElem, Vector.getElem_toList] at split ⊢
      omega
  rw [SymbolStream.histogram, grows]
  simp

/-- What groups give with their selectors is no more than the groups hold, if each gives no more
than it holds itself. -/
theorem length_flatMap_zip_le {α β : Type} {part : List α × Nat → List β}
    (each : ∀ group selector, (part (group, selector)).length ≤ group.length)
    (groups : List (List α)) (selectors : List Nat) :
    ((groups.zip selectors).flatMap part).length ≤ groups.flatten.length := by
  induction groups generalizing selectors with
  | nil => simp
  | cons group rest ih =>
    cases selectors with
    | nil => simp
    | cons selector others =>
      rw [List.zip_cons_cons, List.flatMap_cons, List.length_append, List.flatten_cons,
        List.length_append]
      exact Nat.add_le_add (each group selector) (ih others)

theorem length_symbolsOf_le (groups : List (List (Fin n))) (selectors : List Nat) (table : Nat) :
    (symbolsOf groups selectors table).length ≤ groups.flatten.length := by
  refine length_flatMap_zip_le (fun group selector => ?_) groups selectors
  dsimp only
  split <;> simp

theorem tableFor_complete (several : 2 ≤ n) (few : n ≤ 258) {symbols : List (Fin n)}
    (bounded : symbols.length < 2 ^ 23) :
    PrefixCode.Complete longestCode (tableFor symbols).toList := by
  have room : n ≤ 2 ^ longestCode := few.trans (by decide)
  refine PrefixCode.lengths_complete several room ?_
  have each (count : Nat) : max (UInt32.ofNat count).toNat 1 ≤ count + 1 := by
    rw [UInt32.toNat_ofNat']
    omega
  have total : ((SymbolStream.histogram symbols).toList.map (· + 1)).sum = symbols.length + n := by
    rw [List.sum_map_add, List.map_id', sum_histogram]
    simp
  rw [Vector.toList_map, List.map_map]
  refine Nat.lt_of_le_of_lt (List.sum_le_sum fun count _ => each count) ?_
  rw [total]
  omega

/-- A choice of tables by which the groups can be written and read back. -/
structure Choice.Sound (groups : List (List (Fin n))) (choice : Choice n) : Prop where
  tables : 2 ≤ choice.tables.length ∧ choice.tables.length ≤ 6
  selectors : choice.selectors.length = groups.length
  selected : ∀ selector ∈ choice.selectors, selector < choice.tables.length
  complete : ∀ table ∈ choice.tables, PrefixCode.Complete longestCode table.toList

theorem revise_sound {groups : List (List (Fin n))} {tables : List (Vector Nat n)}
    (several : 2 ≤ n) (few : n ≤ 258) (bounded : groups.flatten.length < 2 ^ 23)
    (count : 2 ≤ tables.length ∧ tables.length ≤ 6) : (revise groups tables).Sound groups := by
  have nonempty : tables ≠ [] := List.ne_nil_of_length_pos (by omega)
  constructor
  · simpa [revise] using count
  · simp [revise]
  · intro selector member
    simp only [revise, List.map_map, List.mem_map, Function.comp_apply, List.length_map,
      List.length_range] at member ⊢
    obtain ⟨group, _, rfl⟩ := member
    exact cheapest_lt nonempty group
  · intro table member
    obtain ⟨place, _, rfl⟩ := List.mem_map.mp member
    exact tableFor_complete several few
      (Nat.lt_of_le_of_lt (length_symbolsOf_le groups _ place) bounded)

theorem revisions_sound {groups : List (List (Fin n))} {tables : List (Vector Nat n)}
    (several : 2 ≤ n) (few : n ≤ 258) (bounded : groups.flatten.length < 2 ^ 23)
    (count : 2 ≤ tables.length ∧ tables.length ≤ 6) (passes : Nat) :
    ∀ choice ∈ revisions groups passes tables, choice.Sound groups := by
  induction passes generalizing tables with
  | zero => simp [revisions]
  | succ passes ih =>
    have sound := revise_sound several few bounded count
    intro choice member
    rw [revisions] at member
    rcases List.mem_cons.mp member with rfl | later
    · exact sound
    · exact ih sound.tables choice later

end Coding

namespace CodedStream

theorem choice_sound (stream : SymbolStream) (several : 2 ≤ stream.alphabet)
    (few : stream.alphabet ≤ 258) (bounded : stream.symbols.length < 2 ^ 23) :
    (ofSymbols stream).choice.Sound (ofSymbols stream).groups := by
  have count := Coding.tableCount_bounds stream.symbols.length
  have sound : ∀ choice ∈ (ofSymbols stream).passes,
      choice.Sound (Coding.groupsOf stream.symbols) :=
    Coding.revisions_sound several few (by rwa [Coding.flatten_groupsOf])
      (by rwa [Coding.length_firstTables]) Coding.passCount
  have nonempty : (ofSymbols stream).passes ≠ [] := by
    simp [ofSymbols, Coding.revisions, Coding.passCount]
  rw [choice, List.getLast?_eq_some_getLast nonempty]
  exact sound _ (List.getLast_mem nonempty)

end CodedStream

end BlockSort
