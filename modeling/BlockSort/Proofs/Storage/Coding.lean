import BlockSort.Proofs.Slices
import BlockSort.Proofs.Storage.CodeNumbers
import BlockSort.Proofs.Storage.NodeLengths
import BlockSort.Proofs.Storage.Symbols

namespace BlockSort

namespace SymbolStream

variable {alphabet : Nat}

theorem histogram_get (symbols : List (Fin alphabet)) (symbol : Fin alphabet) :
    (histogram symbols).get symbol = symbols.count symbol := by
  have counted (counts : Vector Nat alphabet) :
      (symbols.foldl (fun (counts : Vector Nat alphabet) (symbol : Fin alphabet) =>
        counts.set symbol (counts.get symbol + 1) symbol.isLt) counts).get symbol =
        counts.get symbol + symbols.count symbol := by
    induction symbols generalizing counts with
    | nil => rfl
    | cons first rest ih =>
      rw [List.foldl_cons, ih, List.count_cons]
      simp only [Vector.get_eq_getElem, Vector.getElem_set]
      by_cases same : first = symbol
      · subst same
        simp [Nat.add_assoc, Nat.add_comm]
      · have different : first.val ≠ symbol.val := fun equal => same (Fin.ext equal)
        simp [same, different]
  rw [histogram, counted]
  simp [Vector.get_eq_getElem]

end SymbolStream

namespace CodingSpace

variable {α : Type}

/-- Tables begin with the given fronts. -/
def Begins (tables : Array (Array α)) (fronts : List (List α)) : Prop :=
  ∀ (place : Nat) (front : List α), fronts[place]? = some front →
    ∃ rest : List α, tables[place]? = some (front ++ rest).toArray

theorem putFront_spec {tables : Array (Array α)} (rows : Rows tables) {done : List (List α)}
    (begin : Begins tables done) (few : done.length < tableLimit) {front : List α}
    (narrow : front.length ≤ largestAlphabet) :
    ∃ after, Cells.update tables done.length (Cells.putAll · 0 front) = some after ∧
      Rows after ∧ Begins after (done ++ [front]) := by
  have inside : done.length < tables.size := few.trans_eq rows.count.symm
  have wide : tables[done.length].size = largestAlphabet :=
    rows.room _ (Array.getElem_mem inside)
  have put := Cells.putAll_toArray [] (tables[done.length].toList.take front.length)
    (tables[done.length].toList.drop front.length) front 0 rfl (by simpa [wide] using narrow)
  have length : front.length + (tables[done.length].toList.drop front.length).length =
      largestAlphabet := by
    rw [List.length_drop, @Array.length_toList _ tables[done.length], wide]
    omega
  rw [List.nil_append, List.take_append_drop, Array.toArray_toList, List.nil_append] at put
  generalize tables[done.length].toList.drop front.length = rest at put length
  refine ⟨tables.set done.length (front ++ rest).toArray inside, ?_,
    ⟨(Array.size_set ..).trans rows.count, fun row member => ?_⟩, ?_⟩
  · rw [Cells.update, Array.getElem?_eq_getElem inside]
    simp only [Option.bind_eq_bind, Option.bind_some, put]
    exact Cells.put_of_lt inside _
  · rcases Array.mem_or_eq_of_mem_set member with before | rfl
    · exact rows.room row before
    · simpa using length
  · intro place other found
    rw [Array.getElem?_set]
    by_cases here : done.length = place
    · subst here
      rw [List.getElem?_append_right (Nat.le_refl _), Nat.sub_self, List.getElem?_cons_zero,
        Option.some.injEq] at found
      subst found
      exact ⟨_, if_pos rfl⟩
    · have bound := (List.getElem?_eq_some_iff.mp found).1
      rw [List.length_append, List.length_singleton] at bound
      rw [List.getElem?_append_left (by omega)] at found
      rw [if_neg here]
      exact begin place other found

theorem putFronts_spec {tables : Array (Array α)} (rows : Rows tables) {done fronts : List (List α)}
    (begin : Begins tables done) (few : done.length + fronts.length ≤ tableLimit)
    (narrow : ∀ front ∈ fronts, front.length ≤ largestAlphabet) :
    ∃ after, putFronts done.length fronts tables = some after ∧ Rows after ∧
      Begins after (done ++ fronts) := by
  induction fronts generalizing tables done with
  | nil => exact ⟨tables, rfl, rows, by rwa [List.append_nil]⟩
  | cons front fronts ih =>
    rw [List.length_cons] at few
    obtain ⟨tables, put, rows, begin⟩ :=
      putFront_spec rows begin (by omega) (narrow front (by simp))
    obtain ⟨after, others, result⟩ := ih rows begin
      (by rw [List.length_append, List.length_singleton]; omega)
      fun other member => narrow other (by simp [member])
    refine ⟨after, ?_, ?_⟩
    · rw [List.length_append, List.length_singleton] at others
      rw [putFronts]
      simp only [Option.bind_eq_bind, put, Option.bind_some, others]
    · rwa [List.append_assoc, List.singleton_append] at result

theorem putFronts_zero {tables : Array (Array α)} (rows : Rows tables)
    (fronts : List (List α)) (few : fronts.length ≤ tableLimit)
    (narrow : ∀ front ∈ fronts, front.length ≤ largestAlphabet) :
    ∃ after, putFronts 0 fronts tables = some after ∧ Rows after ∧ Begins after fronts :=
  @putFronts_spec _ _ rows [] fronts (fun place front found => by simp at found)
    (by simpa using few) narrow

variable {alphabet : Nat}

theorem fronts_spec {tables : Array (Array α)} {found : List (Vector α alphabet)}
    (begin : Begins tables (found.map Vector.toList)) :
    fronts tables found.length alphabet = some found := by
  refine mapM_range fun place item inside => ?_
  obtain ⟨rest, read⟩ := begin place item.toList (by rw [List.getElem?_map, inside]; rfl)
  have length : item.toList.length = alphabet := item.length_toList
  have front := Cells.front_toArray item.toList rest length.symm
  simp only [read, Option.bind_eq_bind, Option.bind_some, front, dif_pos length]
  rfl

theorem members_spec (symbols : List (Fin alphabet)) :
    members (symbols.map Fin.val).toArray alphabet = some symbols := by
  rw [members, List.mapM_map,
    mapM_of_forall id fun symbol _ => dif_pos symbol.isLt, List.map_id]

/-- A coding space holds the tables and selectors of a choice for a stream. -/
structure Chosen (space : CodingSpace) (stream : SymbolStream)
    (choice : Coding.Choice stream.alphabet) : Prop where
  counts : space.Counts stream
  sized : space.Sized
  begins : Begins space.lengths (choice.tables.map Vector.toList)
  selectors : space.selectors = choice.selectors.toArray

variable {space : CodingSpace} {stream : SymbolStream}

theorem Counts.size_symbols (counts : space.Counts stream) :
    space.symbols.size = stream.symbols.length := by
  rw [counts.symbols, List.size_toArray, List.length_map]

theorem total_histogram (symbols : List (Fin alphabet)) :
    Coding.Slice.total (SymbolStream.histogram symbols).toList = symbols.length := by
  rw [← Coding.sum_histogram symbols, Coding.Slice.total, List.sum_eq_foldl]

theorem Counts.frequencies (counts : space.Counts stream)
    (few : stream.alphabet ≤ largestAlphabet) :
    Cells.front space.counts stream.alphabet =
      some (SymbolStream.histogram stream.symbols).toList := by
  have room : stream.alphabet ≤ space.counts.size := few.trans_eq counts.counts.extent.symm
  rw [Cells.front, if_pos room, Option.some.injEq]
  refine List.ext_getElem (by simp [room]) fun place inside bound => ?_
  rw [Vector.length_toList] at bound
  have read := counts.counts.get place (bound.trans_le few)
  have counted := SymbolStream.histogram_get stream.symbols ⟨place, bound⟩
  rw [Vector.get_eq_getElem] at counted
  rw [Array.getElem?_eq_getElem (bound.trans_le room), Option.some.injEq] at read
  rw [List.getElem_take, Array.getElem_toList, read, Vector.getElem_toList, counted]
  exact List.count_map_of_injective stream.symbols Fin.val Fin.val_injective ⟨place, bound⟩

theorem seed_spec (counts : space.Counts stream) (sized : space.Sized)
    (few : stream.alphabet ≤ largestAlphabet) {tables : Nat} (limited : tables ≤ tableLimit) :
    ∃ after, seed tables stream.alphabet space = some after ∧
      after.Chosen stream ⟨space.selectors.toList, 0,
        Coding.firstTables tables (SymbolStream.histogram stream.symbols)⟩ := by
  have frequencies := counts.frequencies few
  have size : space.symbols.size = Coding.Slice.total
      (SymbolStream.histogram stream.symbols).toList := by
    rw [total_histogram, counts.size_symbols]
  generalize guessed : Coding.firstTables tables (SymbolStream.histogram stream.symbols) = guesses
  have number : guesses.length = tables := by rw [← guessed, Coding.length_firstTables]
  have same : ((Coding.Slice.ofFrequencies tables
      (SymbolStream.histogram stream.symbols).toList).map fun slice =>
        (Coding.firstTable stream.alphabet slice).toList).reverse = guesses.map Vector.toList := by
    rw [← guessed, Coding.firstTables, List.map_reverse, List.map_map]
    rfl
  obtain ⟨lengths, put, rows, begin⟩ := putFronts_zero sized.lengths
    (guesses.map Vector.toList) (by simpa [number] using limited) (by
      rintro _ member
      obtain ⟨guess, -, rfl⟩ := List.mem_map.mp member
      simpa using few)
  refine ⟨{ space with lengths }, ?_, ⟨⟨counts.symbols, counts.counts⟩,
    ⟨sized.counts, rows, sized.codes⟩, begin, by simp⟩⟩
  rw [seed]
  simp only [frequencies, Option.bind_eq_bind, Option.bind_some, size, Coding.Slice.cutChecked_eq]
  rw [← Coding.Slice.ofFrequencies, same, put]
  rfl

theorem rebuild_eq (few : alphabet ≤ largestAlphabet) (symbols : List (Fin alphabet)) :
    rebuild symbols = some (Coding.tableFor symbols).toList := by
  have wide : largestAlphabet ≤ 2 ^ Coding.longestCode := by decide
  exact NodeSpace.lengths_eq _ few (few.trans wide) (by decide)

/-- A pass in the storage is a revision of the choice. -/
theorem refine_spec {choice : Coding.Choice stream.alphabet} (chosen : space.Chosen stream choice)
    (few : stream.alphabet ≤ largestAlphabet) (limited : choice.tables.length ≤ tableLimit) :
    let next := Coding.revise (Coding.groupsOf stream.symbols) choice.tables
    ∃ after, refine choice.tables.length stream.alphabet space = some (next.bits, after) ∧
      after.Chosen stream next := by
  intro next
  have number : next.tables.length = choice.tables.length := by simp [next, Coding.revise]
  obtain ⟨lengths, put, rows, begin⟩ := putFronts_zero chosen.sized.lengths
    (next.tables.map Vector.toList) (by simpa [number] using limited) (by
      rintro _ member
      obtain ⟨table, -, rfl⟩ := List.mem_map.mp member
      simpa using few)
  have rebuilt : ((List.range choice.tables.length).mapM fun table =>
      rebuild (Coding.symbolsOf (Coding.groupsOf stream.symbols) next.selectors table)) =
        some (next.tables.map Vector.toList) := by
    rw [mapM_of_forall _ fun table _ => rebuild_eq few _]
    simp [next, Coding.revise]
  refine ⟨{ space with lengths, selectors := next.selectors.toArray }, ?_,
    ⟨⟨chosen.counts.symbols, chosen.counts.counts⟩,
      ⟨chosen.sized.counts, rows, chosen.sized.codes⟩, begin, rfl⟩⟩
  simp only [next, Coding.revise] at rebuilt put
  rw [refine]
  simp only [chosen.counts.symbols, members_spec, fronts_spec chosen.begins, Option.bind_eq_bind,
    Option.bind_some, rebuilt, put]
  rfl

/-- The notes of passes, the first one with the given number. -/
def passNotes {n : Nat} (choices : List (Coding.Choice n)) (first : Nat) : List Emission :=
  choices.mapIdx fun pass choice =>
    .note (.tablePass (first + pass) choice.selectors.length choice.bits)

theorem refineAll_spec {choice : Coding.Choice stream.alphabet} (chosen : space.Chosen stream choice)
    (few : stream.alphabet ≤ largestAlphabet) (limited : choice.tables.length ≤ tableLimit)
    (count first : Nat) :
    let choices := Coding.revisions (Coding.groupsOf stream.symbols) count choice.tables
    ∃ after, refineAll choice.tables.length stream.alphabet count first space =
        some (passNotes choices first, after) ∧
      after.Chosen stream (choices.getLastD choice) := by
  induction count generalizing choice space first with
  | zero => exact ⟨space, rfl, chosen⟩
  | succ count ih =>
    obtain ⟨middle, step, next⟩ := refine_spec chosen few limited
    have number : (Coding.revise (Coding.groupsOf stream.symbols) choice.tables).tables.length =
        choice.tables.length := by
      simp [Coding.revise]
    obtain ⟨after, others, result⟩ := ih next (by rwa [number]) (first + 1)
    refine ⟨after, ?_, ?_⟩
    · rw [number] at others
      rw [refineAll, step]
      simp only [Option.bind_eq_bind, Option.bind_some, others, next.selectors, passNotes,
        Coding.revisions, List.mapIdx_cons, Nat.add_zero, List.size_toArray]
      simp only [Nat.add_assoc, Nat.add_comm 1]
      rfl
    · rw [Coding.revisions]
      rwa [List.getLastD_cons]

/-- Selectors that name a table in use are ranked by their latest use. -/
theorem rankSelectors_spec {selectors recent : List Nat}
    (known : ∀ selector ∈ selectors, selector ∈ recent) (ranks : Array Nat) :
    rankSelectors selectors recent ranks =
      some (ranks.toList ++ Recency.ranks recent selectors).toArray := by
  induction selectors generalizing recent ranks with
  | nil => simp [rankSelectors]
  | cons selector rest ih =>
    have onward := @ih (Recency.touch recent selector)
      fun other member => Recency.mem_touch (known other (List.mem_cons_of_mem _ member))
    rw [rankSelectors, Recency.idxOf?_of_mem (known selector List.mem_cons_self),
      Recency.ranks_cons]
    simp only [Option.bind_eq_bind, Option.bind_some, onward]
    simp

end CodingSpace

namespace Coding

theorem groupsOf_map {α β : Type} (value : α → β) (symbols : List α) :
    groupsOf (symbols.map value) = (groupsOf symbols).map (List.map value) := by
  fun_induction groupsOf symbols with
  | case1 => simp [groupsOf]
  | case2 first rest ih =>
    rw [List.map_cons, groupsOf, ← List.map_take, ← List.map_drop, ih, List.map_cons, List.map_cons]

end Coding

namespace CodedStream

theorem choice_eq (stream : SymbolStream) (initial : Coding.Choice stream.alphabet) :
    (ofSymbols stream).choice = (ofSymbols stream).passes.getLastD initial := by
  rw [choice]
  simp only [ofSymbols, Coding.passCount, Coding.revisions]
  rfl

theorem length_tables (stream : SymbolStream) :
    (ofSymbols stream).choice.tables.length = Coding.tableCount stream.symbols.length := by
  have kept (groups : List (List (Fin stream.alphabet))) (count : Nat)
      (initial : Coding.Choice stream.alphabet) :
      ((Coding.revisions groups count initial.tables).getLastD initial).tables.length =
        initial.tables.length := by
    induction count generalizing initial with
    | zero => rfl
    | succ count ih =>
      rw [Coding.revisions, List.getLastD_cons, ih]
      simp [Coding.revise]
  have same := kept (Coding.groupsOf stream.symbols) Coding.passCount
    ⟨[], 0, Coding.firstTables (Coding.tableCount stream.symbols.length)
      (SymbolStream.histogram stream.symbols)⟩
  rw [Coding.length_firstTables] at same
  exact (congrArg (·.tables.length) (choice_eq stream _)).trans same

end CodedStream

namespace CodingSpace

variable {space : CodingSpace} {stream : SymbolStream} {choice : Coding.Choice stream.alphabet}

/-- The codes of the first tables. -/
def codeFronts {n : Nat} (tables : List (Vector Nat n)) : List (List UInt32) :=
  tables.map fun table => PrefixCode.codes table.toList

theorem assign_spec (chosen : space.Chosen stream choice)
    (few : stream.alphabet ≤ largestAlphabet) (limited : choice.tables.length ≤ tableLimit)
    (complete : ∀ table ∈ choice.tables,
      PrefixCode.Complete Coding.longestCode table.toList) :
    ∃ codes, assign choice.tables.length stream.alphabet space = some { space with codes } ∧
      Rows codes ∧ Begins codes (codeFronts choice.tables) := by
  have within : (choice.tables.all fun table =>
      table.all fun length => 1 ≤ length && length ≤ Coding.longestCode) = true := by
    rw [List.all_eq_true]
    intro table member
    obtain ⟨positive, bounded, -⟩ := complete table member
    rw [← Vector.all_toList, List.all_eq_true]
    intro length inside
    simp [positive length inside, bounded length inside]
  obtain ⟨codes, put, rows, begin⟩ := putFronts_zero chosen.sized.codes
    (codeFronts choice.tables) (by simpa [codeFronts] using limited) (by
      rintro _ member
      obtain ⟨table, -, rfl⟩ := List.mem_map.mp member
      rw [PrefixCode.length_codes]
      simpa using few)
  have numbered : choice.tables.mapM (fun table => number table.toList) =
      some (codeFronts choice.tables) :=
    mapM_of_forall _ fun table member => number_eq fun length inside =>
      ((complete table member).bounded length inside).trans_lt (by decide)
  refine ⟨codes, ?_, rows, begin⟩
  rw [assign]
  simp only [fronts_spec chosen.begins, Option.bind_eq_bind, Option.bind_some, if_pos within,
    numbered, put]
  rfl

theorem symbolField_spec (chosen : space.Chosen stream choice)
    (codes : Begins space.codes (codeFronts choice.tables)) {selector : Nat}
    {table : Vector Nat stream.alphabet} (selected : choice.tables[selector]? = some table)
    (symbol : Fin stream.alphabet) :
    symbolField space selector symbol.val = some ((Coding.codeFields table).get symbol) := by
  obtain ⟨behind, lengthRow⟩ := chosen.begins selector table.toList
    (by rw [List.getElem?_map, selected]; rfl)
  obtain ⟨rest, codeRow⟩ := codes selector (PrefixCode.codes table.toList)
    (by rw [codeFronts, List.getElem?_map, selected]; rfl)
  have number : (PrefixCode.codes table.toList).length = stream.alphabet := by
    rw [PrefixCode.length_codes, Vector.length_toList]
  simp only [symbolField, lengthRow, codeRow, Option.bind_eq_bind, Option.bind_some,
    List.getElem?_toArray]
  rw [List.getElem?_append_left (by rw [number]; exact symbol.isLt),
    List.getElem?_append_left (by simp)]
  simp [Coding.codeFields, Vector.get_eq_getElem, number]

theorem symbolFields_spec (chosen : space.Chosen stream choice)
    (codes : Begins space.codes (codeFronts choice.tables))
    (groups : List (List (Fin stream.alphabet))) {selectors : List Nat}
    (selected : ∀ selector ∈ selectors, selector < choice.tables.length) :
    symbolFields space ((groups.map (List.map Fin.val)).zip selectors) =
      some (Coding.symbolFields groups { choice with selectors }) := by
  induction groups generalizing selectors with
  | nil => rfl
  | cons group groups ih =>
    cases selectors with
    | nil => rfl
    | cons selector selectors =>
      have inside := selected selector List.mem_cons_self
      have table := List.getElem?_eq_getElem inside
      have first : (group.map Fin.val).mapM (symbolField space selector) =
          some (group.map (Coding.codeFields choice.tables[selector]).get) := by
        rw [List.mapM_map]
        exact mapM_of_forall _ fun symbol _ => symbolField_spec chosen codes table symbol
      have others := ih fun other member => selected other (List.mem_cons_of_mem _ member)
      rw [Coding.symbolFields] at others ⊢
      rw [List.map_cons, List.zip_cons_cons, symbolFields, List.zip_cons_cons, List.flatMap_cons]
      simp only [first, others, Option.bind_eq_bind, Option.bind_some, List.getElem?_toArray,
        List.getElem?_map, table, Option.map_some]
      rfl

theorem fields_spec (chosen : space.Chosen stream choice)
    (codes : Begins space.codes (codeFronts choice.tables))
    (sound : choice.Sound (Coding.groupsOf stream.symbols))
    (ranks : space.selectorRanks =
      (Recency.ranks (List.range choice.tables.length) choice.selectors).toArray) :
    fields choice.tables.length stream.alphabet space =
      some (Coding.fields (Coding.groupsOf stream.symbols) choice) := by
  have symbols := symbolFields_spec chosen codes (Coding.groupsOf stream.symbols)
    sound.selected
  rw [fields, chosen.counts.symbols, Coding.groupsOf_map, chosen.selectors, ranks]
  simp only [fronts_spec chosen.begins, symbols, Option.bind_eq_bind, Option.bind_some]
  rfl

theorem passes_spec (counts : space.Counts stream) (sized : space.Sized)
    (few : stream.alphabet ≤ largestAlphabet) :
    ∃ seeded after,
      seed (Coding.tableCount stream.symbols.length) stream.alphabet space = some seeded ∧
      refineAll (Coding.tableCount stream.symbols.length) stream.alphabet Coding.passCount 0
        seeded = some (passNotes (CodedStream.ofSymbols stream).passes 0, after) ∧
      after.Chosen stream (CodedStream.ofSymbols stream).choice := by
  have limited := (Coding.tableCount_bounds stream.symbols.length).2
  obtain ⟨seeded, seed, start⟩ := seed_spec counts sized few limited
  have length := Coding.length_firstTables (Coding.tableCount stream.symbols.length)
    (SymbolStream.histogram stream.symbols)
  obtain ⟨after, passes, chosen⟩ :=
    refineAll_spec start few (length.trans_le limited) Coding.passCount 0
  dsimp only at passes
  rw [length] at passes
  exact ⟨seeded, after, seed, passes, (CodedStream.choice_eq stream _).symm ▸ chosen⟩

theorem selectors_le (chosen : space.Chosen stream choice)
    (sound : choice.Sound (Coding.groupsOf stream.symbols))
    (bounded : stream.symbols.length ≤ 900001) : space.selectors.size ≤ selectorLimit := by
  have groups := Coding.length_groupsOf_le stream.symbols
  rw [chosen.selectors, List.size_toArray, sound.selectors, selectorLimit]
  simp only [Coding.groupSize] at groups ⊢
  omega

/-- A sound choice is laid out: its selectors are ranked, its codes assigned, and all fields read
from the tables. -/
theorem layOut_spec (chosen : space.Chosen stream choice)
    (few : stream.alphabet ≤ largestAlphabet)
    (sound : choice.Sound (Coding.groupsOf stream.symbols)) {tables : Nat}
    (count : choice.tables.length = tables) :
    ∃ selectorRanks assigned,
      rankSelectors space.selectors.toList (List.range tables) #[] = some selectorRanks ∧
      assign tables stream.alphabet { space with selectorRanks } = some assigned ∧
      fields tables stream.alphabet assigned =
        some (Coding.fields (Coding.groupsOf stream.symbols) choice) ∧
      assigned.Chosen stream choice ∧ Begins assigned.codes (codeFronts choice.tables) := by
  subst count
  have ranks := @rankSelectors_spec choice.selectors (List.range choice.tables.length)
    (fun selector member => List.mem_range.mpr (sound.selected selector member)) #[]
  generalize ranked : (#[].toList ++ Recency.ranks (List.range choice.tables.length)
    choice.selectors).toArray = selectorRanks at ranks
  have kept : ({ space with selectorRanks } : CodingSpace).Chosen stream choice :=
    ⟨⟨chosen.counts.symbols, chosen.counts.counts⟩,
      ⟨chosen.sized.counts, chosen.sized.lengths, chosen.sized.codes⟩, chosen.begins,
      chosen.selectors⟩
  obtain ⟨codes, assigned, rows, begin⟩ := assign_spec kept few sound.tables.2 sound.complete
  have result : ({ space with selectorRanks, codes } : CodingSpace).Chosen stream choice :=
    ⟨⟨kept.counts.symbols, kept.counts.counts⟩,
      ⟨kept.sized.counts, kept.sized.lengths, rows⟩, kept.begins, kept.selectors⟩
  refine ⟨selectorRanks, _, ?_, assigned, fields_spec result begin sound ranked.symm, result,
    begin⟩
  rwa [chosen.selectors]

/-- The symbols of a stream are coded in storage as they are without. -/
theorem code_spec (counts : space.Counts stream) (sized : space.Sized)
    (several : 2 ≤ stream.alphabet) (few : stream.alphabet ≤ largestAlphabet)
    (bounded : stream.symbols.length ≤ 900001) :
    ∃ after, space.code stream.alphabet =
        some ((CodedStream.ofSymbols stream).emissions,
          ⟨(CodedStream.ofSymbols stream).symbolCount,
            (CodedStream.ofSymbols stream).choice.tables.length,
            (CodedStream.ofSymbols stream).choice.selectors.length⟩, after) ∧
      after.Chosen stream (CodedStream.ofSymbols stream).choice ∧
      Begins after.codes (codeFronts (CodedStream.ofSymbols stream).choice.tables) := by
  have sound := CodedStream.choice_sound stream several few (by omega)
  obtain ⟨seeded, revised, seed, passes, chosen⟩ := passes_spec counts sized few
  have tables := CodedStream.length_tables stream
  obtain ⟨selectorRanks, assigned, ranks, assign, fields, result, begin⟩ :=
    layOut_spec chosen few sound tables
  have emissions : (CodedStream.ofSymbols stream).emissions =
      passNotes (CodedStream.ofSymbols stream).passes 0 ++
        [.fields (Coding.fields (Coding.groupsOf stream.symbols)
          (CodedStream.ofSymbols stream).choice)] := by
    rw [CodedStream.emissions, passNotes]
    simp only [Nat.zero_add]
    rfl
  have number : space.symbols.size = stream.symbols.length := counts.size_symbols
  have selected : assigned.selectors.size = (CodedStream.ofSymbols stream).choice.selectors.length :=
    (congrArg Array.size result.selectors).trans List.size_toArray
  refine ⟨assigned, ?_, result, begin⟩
  rw [code, number]
  simp only [seed, passes, Option.bind_eq_bind, Option.bind_some,
    if_pos (selectors_le chosen sound bounded), ranks, assign, fields, emissions, tables,
    result.counts.size_symbols, selected]
  rfl

end CodingSpace

end BlockSort
