import BlockSort.Proofs.Selection
import BlockSort.Proofs.Slices
import Mathlib.Order.Bounds.Basic

namespace BlockSort.CodingSpace

variable {α : Type} {alphabet tables : Nat} {space : CodingSpace} {stream : SymbolStream}

/-- The length of a symbol's code in a table. -/
def lengthAt (space : CodingSpace) (table symbol : Nat) : Option Nat :=
  space.lengths[table]?.bind (·[symbol]?)

/-- The symbols of a group. -/
def group (space : CodingSpace) (place : Nat) : List Nat :=
  Coding.groupAt space.symbols.toList place

/-- The bits that a table takes for a group. -/
def price (space : CodingSpace) (table place : Nat) : Nat :=
  ((space.group place).map fun symbol => (space.lengthAt table symbol).getD 0).sum

/-- The symbols of all groups that have selected a table. -/
def served (space : CodingSpace) (table : Nat) : List Nat :=
  Coding.served (List.range space.selectors.size) (space.selectors[·]?) space.group table

/-- The first guesses: each table is near to the symbols of one slice and far from all others. The
slices follow each other from the first symbol on, the last table has the first slice, and no
difference on the way is negative. -/
structure Seeded (tables alphabet : Nat) (space after : CodingSpace) (bounds : Nat → Nat) :
    Prop where
  run : seed tables alphabet space = some after
  cut : ∃ frequencies, Cells.front space.counts alphabet = some frequencies ∧
    Coding.Slice.cutChecked tables tables 0 space.symbols.size frequencies =
      some ((List.range tables).map fun part => ⟨bounds part, bounds (part + 1) - bounds part⟩)
  starts : bounds 0 = 0
  ascends : Monotone bounds
  inside : bounds tables ≤ alphabet
  covers : alphabet - 1 ∈ space.symbols → bounds tables = alphabet
  lengths : ∀ part < tables, ∀ symbol < alphabet,
    after.lengthAt (tables - 1 - part) symbol =
      some (if bounds part ≤ symbol ∧ symbol < bounds (part + 1) then 0 else 15)

/-- A pass: each group selects the first of the tables that take the fewest bits for it, no other
selection takes fewer bits for all groups, and each table is built for the symbols of the groups
that selected it, every symbol being counted for one table. -/
structure Refined (tables alphabet : Nat) (space after : CodingSpace) (bits : Nat) : Prop where
  run : refine tables alphabet space = some (bits, after)
  selectors : after.selectors.size = (space.symbols.size + 49) / 50
  first : ∀ place selector, after.selectors[place]? = some selector →
    selector < tables ∧ (∀ table < tables, space.price selector place ≤ space.price table place) ∧
      ∀ table < selector, space.price selector place < space.price table place
  least : IsLeast {total | ∃ select : Nat → Nat,
    (∀ place < after.selectors.size, select place < tables) ∧
      ∑ place ∈ Finset.range after.selectors.size, space.price (select place) place = total} bits
  rebuilt : ∀ table < tables,
    let frequencies := Vector.ofFn fun symbol : Fin alphabet =>
      UInt32.ofNat ((after.served table).count symbol.val)
    NodeSpace.lengths frequencies.toList 20 = some (PrefixCode.lengths frequencies 20).toList ∧
      ∃ row, after.lengths[table]? = some row ∧
        Cells.front row alphabet = some (PrefixCode.lengths frequencies 20).toList
  counted : ∀ symbol < alphabet, space.counts[symbol]? =
    some (∑ table ∈ Finset.range tables, (after.served table).count symbol)

theorem Rows.begins {rows : Array (Array α)} (sized : Rows rows) (limited : tables ≤ tableLimit)
    (few : alphabet ≤ largestAlphabet) :
    ∃ found : List (Vector α alphabet), found.length = tables ∧
      Begins rows (found.map Vector.toList) := by
  have each (place : Fin tables) : ∃ (front : Vector α alphabet) (rest : List α),
      rows[place.val]? = some (front.toList ++ rest).toArray := by
    have bound : place.val < rows.size := by
      have size := sized.count
      omega
    have room := few.trans_eq (sized.room _ (Array.getElem_mem bound)).symm
    refine ⟨⟨rows[place.val].extract 0 alphabet, by simpa using room⟩,
      rows[place.val].toList.drop alphabet, ?_⟩
    rw [Array.getElem?_eq_getElem bound]
    simp
  choose front rest row using each
  refine ⟨List.ofFn front, List.length_ofFn, fun place items found => ?_⟩
  rw [List.getElem?_map, List.getElem?_ofFn] at found
  split at found
  · rename_i bound
    obtain rfl : (front ⟨place, bound⟩).toList = items := Option.some.inj found
    exact ⟨rest ⟨place, bound⟩, row ⟨place, bound⟩⟩
  · cases found

theorem lengthAt_begins {found : List (Vector Nat alphabet)}
    (begins : Begins space.lengths (found.map Vector.toList)) {place : Nat}
    {table : Vector Nat alphabet} (known : found[place]? = some table) (symbol : Fin alphabet) :
    space.lengthAt place symbol.val = some (table.get symbol) := by
  obtain ⟨rest, row⟩ := begins place table.toList (by rw [List.getElem?_map, known]; rfl)
  have bound : symbol.val < table.toList.length :=
    symbol.isLt.trans_eq table.length_toList.symm
  rw [lengthAt, row, Option.bind_some, List.getElem?_toArray, List.getElem?_append_left bound,
    List.getElem?_eq_getElem bound, Vector.getElem_toList]
  rfl

theorem Counts.group (counts : space.Counts stream) (place : Nat) :
    space.group place = (Coding.groupAt stream.symbols place).map Fin.val := by
  rw [CodingSpace.group, counts.symbols, Coding.groupAt_map]

theorem Counts.price (counts : space.Counts stream) {found : List (Vector Nat stream.alphabet)}
    (begins : Begins space.lengths (found.map Vector.toList)) {place : Nat}
    {table : Vector Nat stream.alphabet} (known : found[place]? = some table) (group : Nat) :
    space.price place group = Coding.cost table (Coding.groupAt stream.symbols group) := by
  rw [CodingSpace.price, counts.group, List.map_map, Coding.cost_eq_sum]
  refine congrArg List.sum (List.map_congr_left fun symbol _ => ?_)
  rw [Function.comp_apply, lengthAt_begins begins known]
  rfl

theorem Counts.ends (counts : space.Counts stream)
    (occurs : stream.alphabet - 1 ∈ space.symbols) :
    Coding.Slice.Ends (SymbolStream.histogram stream.symbols).toList := by
  intro frequency found
  rw [counts.symbols, List.mem_toArray] at occurs
  obtain ⟨symbol, member, greatest⟩ := List.mem_map.mp occurs
  rw [List.getLast?_eq_getElem?, Vector.length_toList, ← greatest,
    List.getElem?_eq_getElem (by simp), Vector.getElem_toList, Option.some.injEq] at found
  rw [← found, ← Vector.get_eq_getElem, SymbolStream.histogram_get]
  exact (List.count_pos_iff.mpr member).ne'

theorem seed_seeded (counts : space.Counts stream) (sized : space.Sized)
    (few : stream.alphabet ≤ largestAlphabet) (positive : 0 < tables)
    (limited : tables ≤ tableLimit) :
    ∃ after bounds, Seeded tables stream.alphabet space after bounds ∧
      after.Counts stream ∧ after.Sized := by
  obtain ⟨after, run, chosen⟩ := seed_spec counts sized few limited
  have ends := counts.ends
  have known := counts.frequencies few
  have size : space.symbols.size =
      Coding.Slice.total (SymbolStream.histogram stream.symbols).toList := by
    rw [total_histogram, counts.size_symbols]
  generalize SymbolStream.histogram stream.symbols = frequencies at chosen ends known size
  refine ⟨after, Coding.Slice.boundary (Coding.Slice.ofFrequencies tables frequencies.toList),
    ⟨run, ⟨_, known, ?_⟩, rfl, Coding.Slice.boundary_mono _,
      (Coding.Slice.boundary_cut_le tables tables 0 _ _ tables).trans_eq frequencies.length_toList,
      fun occurs => (Coding.Slice.boundary_cut (ends occurs) positive).trans
        frequencies.length_toList,
      fun part inside symbol near => ?_⟩, chosen.counts, chosen.sized⟩
  · rw [size, Coding.Slice.cutChecked_eq]
    exact congrArg some (Coding.Slice.cut_eq_map tables tables _ _)
  · have guess := Coding.Slice.firstTables_getElem? tables frequencies inside
    rw [lengthAt_begins chosen.begins guess ⟨symbol, near⟩, Vector.get_ofFn]
    rfl

theorem Sized.chosen (sized : space.Sized) (counts : space.Counts stream)
    (few : stream.alphabet ≤ largestAlphabet) (limited : tables ≤ tableLimit) :
    ∃ old : List (Vector Nat stream.alphabet), old.length = tables ∧
      space.Chosen stream ⟨space.selectors.toList, 0, old⟩ := by
  obtain ⟨old, number, begins⟩ := sized.lengths.begins limited few
  exact ⟨old, number, counts, sized, begins, by simp⟩

theorem Counts.picks (counts : space.Counts stream) {old : List (Vector Nat stream.alphabet)}
    (begins : Begins space.lengths (old.map Vector.toList)) (nonempty : old ≠ []) (place : Nat) :
    let choice := Coding.selected stream.symbols old place
    choice < old.length ∧
      space.price choice place =
        (Coding.cheapest old (Coding.groupAt stream.symbols place)).2 ∧
      (∀ table < old.length, space.price choice place ≤ space.price table place) ∧
      ∀ table < choice, space.price choice place < space.price table place := by
  intro choice
  obtain ⟨table, known, price, below, before⟩ :=
    Coding.cheapest_spec nonempty (Coding.groupAt stream.symbols place)
  have inside := Coding.cheapest_lt nonempty (Coding.groupAt stream.symbols place)
  have own := counts.price begins known place
  refine ⟨inside, own.trans price, fun other near => ?_, fun other near => ?_⟩
  · have found := List.getElem?_eq_getElem near
    exact (own.trans_le (below _ (List.getElem_mem near))).trans_eq
      (counts.price begins found place).symm
  · have found := List.getElem?_eq_getElem (near.trans inside)
    exact (own.trans_lt (before other near _ found)).trans_eq
      (counts.price begins found place).symm

section Revised

variable {after : CodingSpace} {old : List (Vector Nat stream.alphabet)}

theorem Chosen.size_selectors
    (next : after.Chosen stream (Coding.revise (Coding.groupsOf stream.symbols) old)) :
    after.selectors.size = Coding.groupCount stream.symbols := by
  rw [next.selectors, Coding.selectors_revise, List.size_toArray, List.length_map,
    List.length_range]

theorem Chosen.selector
    (next : after.Chosen stream (Coding.revise (Coding.groupsOf stream.symbols) old)) {place : Nat}
    (inside : place < after.selectors.size) :
    after.selectors[place]? = some (Coding.selected stream.symbols old place) := by
  rw [next.selectors, Coding.selectors_revise, List.getElem?_toArray, List.getElem?_map,
    List.getElem?_range (inside.trans_eq next.size_selectors), Option.map_some]

/-- The stored selectors serve a table with the symbols that it is rebuilt for. -/
theorem Chosen.served
    (next : after.Chosen stream (Coding.revise (Coding.groupsOf stream.symbols) old))
    (table : Nat) :
    after.served table = (Coding.symbolsOf (Coding.groupsOf stream.symbols)
      (Coding.revise (Coding.groupsOf stream.symbols) old).selectors table).map Fin.val := by
  rw [Coding.symbolsOf_revise, Coding.served_map, CodingSpace.served, Coding.served, Coding.served,
    next.size_selectors]
  refine List.flatMap_congr fun place member => ?_
  rw [next.selector ((List.mem_range.mp member).trans_eq next.size_selectors.symm),
    next.counts.group]

/-- Each table is stored as it is built for the symbols that it serves. -/
theorem Chosen.rebuilt (few : stream.alphabet ≤ largestAlphabet)
    (next : after.Chosen stream (Coding.revise (Coding.groupsOf stream.symbols) old))
    {table : Nat} (inside : table < old.length) :
    let frequencies := Vector.ofFn fun symbol : Fin stream.alphabet =>
      UInt32.ofNat ((after.served table).count symbol.val)
    NodeSpace.lengths frequencies.toList 20 = some (PrefixCode.lengths frequencies 20).toList ∧
      ∃ row, after.lengths[table]? = some row ∧
        Cells.front row stream.alphabet = some (PrefixCode.lengths frequencies 20).toList := by
  intro frequencies
  have room : largestAlphabet ≤ 2 ^ 20 := by decide
  have served := next.served table
  generalize symbols : Coding.symbolsOf (Coding.groupsOf stream.symbols)
    (Coding.revise (Coding.groupsOf stream.symbols) old).selectors table = members at served
  have counted : (SymbolStream.histogram members).map UInt32.ofNat = frequencies := by
    refine Vector.ext fun symbol bound => ?_
    have count := SymbolStream.histogram_get members ⟨symbol, bound⟩
    rw [Vector.get_eq_getElem] at count
    rw [Vector.getElem_map, count, Vector.getElem_ofFn, served]
    exact congrArg UInt32.ofNat
      (List.count_map_of_injective _ Fin.val Fin.val_injective ⟨symbol, bound⟩).symm
  obtain ⟨rest, row⟩ := next.begins table (Coding.tableFor members).toList
    (by rw [← symbols]; simp [Coding.revise, List.getElem?_range inside])
  refine ⟨NodeSpace.lengths_eq frequencies few (few.trans room) (by decide), _, row,
    (Cells.front_toArray _ rest (by simp)).trans ?_⟩
  rw [Coding.tableFor, counted]
  rfl

theorem Chosen.groups
    (next : after.Chosen stream (Coding.revise (Coding.groupsOf stream.symbols) old)) :
    (List.range after.selectors.size).flatMap after.group = stream.symbols.map Fin.val := by
  rw [next.size_selectors, ← Coding.flatMap_groupAt (stream.symbols.map Fin.val),
    Coding.groupCount, Coding.groupCount, List.length_map]
  refine List.flatMap_congr fun place _ => ?_
  rw [next.counts.group, Coding.groupAt_map]

end Revised

theorem refine_refined (counts : space.Counts stream) (sized : space.Sized)
    (few : stream.alphabet ≤ largestAlphabet) (positive : 0 < tables)
    (limited : tables ≤ tableLimit) :
    ∃ after bits, Refined tables stream.alphabet space after bits ∧
      after.Counts stream ∧ after.Sized := by
  obtain ⟨old, rfl, chosen⟩ := sized.chosen counts few limited
  obtain ⟨after, run, next⟩ := refine_spec chosen few limited
  have picks := counts.picks chosen.begins (List.ne_nil_of_length_pos positive)
  have number : Coding.groupCount stream.symbols = (space.symbols.size + 49) / 50 := by
    rw [counts.size_symbols]
    rfl
  refine ⟨after, _, ⟨run, next.size_selectors.trans number, fun place selector found => ?_, ?_,
    fun table inside => next.rebuilt few inside, fun symbol near => ?_⟩, next.counts, next.sized⟩
  · obtain ⟨bound, -⟩ := Array.getElem?_eq_some_iff.mp found
    obtain rfl : Coding.selected stream.symbols old place = selector :=
      Option.some.inj ((next.selector bound).symm.trans found)
    exact ⟨(picks place).1, (picks place).2.2⟩
  · rw [Coding.bits_revise, next.size_selectors]
    refine ⟨⟨Coding.selected stream.symbols old, fun place _ => (picks place).1,
      Finset.sum_congr rfl fun place _ => (picks place).2.1⟩, ?_⟩
    rintro _ ⟨other, inside, rfl⟩
    refine Finset.sum_le_sum fun place member => ?_
    rw [← (picks place).2.1]
    exact (picks place).2.2.1 _ (inside place (Finset.mem_range.mp member))
  · have selected : ∀ place ∈ List.range after.selectors.size,
        ∃ table < old.length, after.selectors[place]? = some table := fun place member =>
      ⟨_, (picks place).1, next.selector (List.mem_range.mp member)⟩
    have once := Coding.sum_count_served after.group selected symbol
    rw [next.groups] at once
    exact (counts.counts.get symbol (near.trans_le few)).trans (congrArg some once.symm)

theorem refineAll_kept (counts : space.Counts stream) (sized : space.Sized)
    (few : stream.alphabet ≤ largestAlphabet) (limited : tables ≤ tableLimit)
    (passes first : Nat) :
    ∃ notes after, refineAll tables stream.alphabet passes first space = some (notes, after) ∧
      after.Counts stream ∧ after.Sized := by
  obtain ⟨old, rfl, chosen⟩ := sized.chosen counts few limited
  obtain ⟨after, run, result⟩ := refineAll_spec chosen few limited passes first
  exact ⟨_, after, run, result.counts, result.sized⟩

/-- Tables are guessed for any symbols of an alphabet, and revised from whatever lengths they have.
No difference is negative in the guesses, which share the alphabet out among the tables in ascending
order. Every pass, after as many others as may be, finds a least selection, the first table of least
price for each group, and leaves each table built for the groups that selected it. -/
theorem guessed_and_revised (counts : space.Counts stream) (sized : space.Sized)
    (few : stream.alphabet ≤ 258) (several : 2 ≤ tables) (limited : tables ≤ 6) :
    (∃ after bounds, Seeded tables stream.alphabet space after bounds ∧
      after.Counts stream ∧ after.Sized) ∧
    ∀ passes first, ∃ notes before,
      refineAll tables stream.alphabet passes first space = some (notes, before) ∧
      before.Counts stream ∧ before.Sized ∧
      ∃ after bits, Refined tables stream.alphabet before after bits ∧
        after.Counts stream ∧ after.Sized := by
  have positive : 0 < tables := by omega
  refine ⟨seed_seeded counts sized few positive limited, fun passes first => ?_⟩
  obtain ⟨notes, before, run, kept, room⟩ :=
    refineAll_kept counts sized few limited passes first
  exact ⟨notes, before, run, kept, room, refine_refined kept room few positive limited⟩

/-- Two groups, the second one short, of an alphabet of four, cut for three tables of which the
second slice may give a symbol back. The tables hold what other blocks have left in them. -/
theorem guessed_and_revised_groups :
    let symbols : List (Fin 4) := List.replicate 49 1 ++ [0, 2, 2, 1, 3, 3]
    let space : CodingSpace :=
      { symbols := (symbols.map Fin.val).toArray
        counts := (Array.range largestAlphabet).map (symbols.map Fin.val).count
        lengths := Array.replicate tableLimit (Array.replicate largestAlphabet 9)
        codes := Array.replicate tableLimit (Array.replicate largestAlphabet 5)
        selectors := #[3, 3]
        selectorRanks := #[1] }
    (∃ after bounds, Seeded 3 4 space after bounds ∧
      after.Counts ⟨4, symbols⟩ ∧ after.Sized) ∧
    ∀ passes first, ∃ notes before,
      refineAll 3 4 passes first space = some (notes, before) ∧
      before.Counts ⟨4, symbols⟩ ∧ before.Sized ∧
      ∃ after bits, Refined 3 4 before after bits ∧ after.Counts ⟨4, symbols⟩ ∧ after.Sized := by
  intro symbols space
  have counts : space.Counts ⟨4, symbols⟩ :=
    ⟨rfl, by simp [space], fun symbol near => by simp [space, near]⟩
  exact guessed_and_revised counts ⟨by simp [space], rows_replicate 9, rows_replicate 5⟩ (by decide)
    (by decide)
    (by decide)

end BlockSort.CodingSpace
