import BlockSort.Proofs.Inverse.Block
import BlockSort.Proofs.Storage.Store
import BlockSort.Storage.CodingSpace

namespace BlockSort

namespace Recency

variable {α β : Type} [BEq α] [LawfulBEq α] [BEq β] [LawfulBEq β] {label : α → β}

variable (label) in
theorem idxOf_map {recent : List α} {item : α}
    (apart : ∀ other ∈ recent, label other = label item → other = item) :
    (recent.map label).idxOf (label item) = recent.idxOf item := by
  induction recent with
  | nil => rfl
  | cons first rest ih =>
    rw [List.map_cons, List.idxOf_cons, List.idxOf_cons,
      ih fun other member => apart other (List.mem_cons_of_mem _ member)]
    by_cases same : first = item
    · rw [same, BEq.rfl, BEq.rfl]
    · have different : label first ≠ label item := fun equal => same (apart first (by simp) equal)
      rw [beq_false_of_ne different, beq_false_of_ne same]

theorem erase_map {recent : List α} {item : α}
    (apart : ∀ other ∈ recent, label other = label item → other = item) :
    (recent.map label).erase (label item) = (recent.erase item).map label := by
  induction recent with
  | nil => rfl
  | cons first rest ih =>
    by_cases same : first = item
    · simp [same]
    · have different : label first ≠ label item := fun equal => same (apart first (by simp) equal)
      rw [List.map_cons, List.erase_cons_tail (by simpa using different),
        List.erase_cons_tail (by simpa using same), List.map_cons,
        ih fun other member => apart other (List.mem_cons_of_mem _ member)]

variable (label) in
theorem touch_map {recent : List α} {item : α}
    (apart : ∀ other ∈ recent, label other = label item → other = item) :
    touch (recent.map label) (label item) = (touch recent item).map label := by
  rw [touch, touch, erase_map apart, List.map_cons]

omit [LawfulBEq α] in
theorem mem_of_mem_touch {recent : List α} {item other : α} (known : item ∈ recent)
    (member : other ∈ touch recent item) : other ∈ recent := by
  rcases List.mem_cons.mp member with rfl | later
  · exact known
  · exact List.mem_of_mem_erase later

theorem idxOf?_of_mem {recent : List α} {item : α} (known : item ∈ recent) :
    recent.idxOf? item = some (recent.idxOf item) := by
  obtain ⟨place, found⟩ := Option.isSome_iff_exists.mp (List.isSome_idxOf?.mpr known)
  rw [List.idxOf_eq_getD_idxOf?, found]
  rfl

end Recency

namespace SymbolStream

theorem ofColumn_vals {present : ByteSet} {column : List UInt8}
    (covers : ∀ byte ∈ column, byte ∈ present.toList) :
    (ofColumn present column).symbols.map Fin.val =
      spell 0 (Recency.ranks present.toList column) ++ [present.toList.length + 1] := by
  have spelled : ∀ symbol ∈ spell 0 (Recency.ranks present.toList column),
      symbol ≤ present.toList.length + 1 := spell_le 0 _ (Nat.le_add_left 1 _)
    fun rank member => (Recency.ranks_lt covers rank member).trans (Nat.lt_succ_self _)
  rw [ofColumn, List.map_map, ofRanks_eq]
  refine (List.map_congr_left fun symbol member => ?_).trans (List.map_id' _)
  refine Nat.mod_eq_of_lt (Nat.lt_succ_of_le ?_)
  rcases List.mem_append.mp member with inside | last
  · exact spelled symbol inside
  · exact Nat.le_of_eq (List.mem_singleton.mp last)

end SymbolStream

namespace CodingSpace

theorem push_append (first second : List Nat) (symbols counts : Array Nat) :
    push (first ++ second) symbols counts =
      (push first symbols counts).bind fun (symbols, counts) => push second symbols counts := by
  induction first generalizing symbols counts with
  | nil => rfl
  | cons symbol rest ih =>
    rw [List.cons_append, push, push]
    cases Cells.update counts symbol (some <| · + 1) with
    | none => rfl
    | some counts => exact ih _ counts

theorem push_spec {size : Nat} {counted : Nat → Nat} {counts : Array Nat}
    (tabulates : Tabulates size counted counts) (symbols : Array Nat) {items : List Nat}
    (inside : ∀ symbol ∈ items, symbol < size) :
    ∃ after, push items symbols counts = some ((symbols.toList ++ items).toArray, after) ∧
      Tabulates size (fun symbol => counted symbol + items.count symbol) after := by
  induction items generalizing counted counts symbols with
  | nil => exact ⟨counts, by simp [push], tabulates⟩
  | cons symbol rest ih =>
    obtain ⟨counts, counting, step⟩ := tabulates.update (inside symbol (by simp)) (· + 1)
    obtain ⟨after, run, result⟩ := ih step (symbols.push symbol)
      fun other member => inside other (List.mem_cons_of_mem _ member)
    refine ⟨after, ?_, result.congr fun other _ => ?_⟩
    · rw [push, counting]
      simpa using run
    · rw [Function.update_apply, List.count_cons]
      by_cases same : other = symbol
      · subst same
        simp [Nat.add_comm, Nat.add_left_comm]
      · simp [same, Ne.symm same]

/-- The symbols of a column are those of its ranks, whatever the values are called. -/
theorem pushColumn_eq {slots : Array UInt8} {numbers : List UInt8} {positions : List Nat}
    {column : List UInt8}
    (reads : positions.map (slots[·]?) = column.map some) {recent : List UInt8}
    (known : ∀ byte ∈ column, byte ∈ recent) (among : ∀ byte ∈ recent, byte ∈ numbers) (zeros : Nat)
    (symbols counts : Array Nat) :
    pushColumn slots numbers positions (recent.map (numbers.idxOf ·)) zeros symbols counts =
      push (SymbolStream.spell zeros (Recency.ranks recent column)) symbols counts := by
  induction positions generalizing column recent zeros symbols counts with
  | nil =>
    obtain rfl : column = [] := by simpa using reads.symm
    rfl
  | cons position positions ih =>
    obtain ⟨byte, column, rfl⟩ : ∃ byte rest, column = byte :: rest := by
      cases column with
      | nil => simp at reads
      | cons byte rest => exact ⟨byte, rest, rfl⟩
    rw [List.map_cons, List.map_cons, List.cons.injEq] at reads
    have present := known byte (by simp)
    have apart : ∀ other ∈ recent, numbers.idxOf other = numbers.idxOf byte → other = byte :=
      fun other member same => (List.idxOf_inj (among other member)).mp same
    have place : (recent.map (numbers.idxOf ·)).idxOf? (numbers.idxOf byte) =
        some (recent.idxOf byte) := by
      rw [Recency.idxOf?_of_mem (List.mem_map_of_mem (f := (numbers.idxOf ·)) present),
        Recency.idxOf_map (numbers.idxOf ·) apart]
    have number := Recency.idxOf?_of_mem (among byte present)
    have onward (zeros : Nat) := @ih _ reads.2 (Recency.touch recent byte)
      (fun other member => Recency.mem_touch (known other (List.mem_cons_of_mem _ member)))
      (fun other member => among other (Recency.mem_of_mem_touch present member)) zeros
    rw [pushColumn, reads.1, Recency.ranks_cons]
    simp only [Option.bind_eq_bind, Option.bind_some, number, Option.getD_some, place,
      Recency.touch_map (numbers.idxOf ·) apart]
    cases recent.idxOf byte with
    | zero => exact onward (zeros + 1) symbols counts
    | succ rank =>
      have split : SymbolStream.zeroDigits zeros ++ (rank + 2) ::
          SymbolStream.spell 0 (Recency.ranks (Recency.touch recent byte) column) =
            SymbolStream.zeroDigits zeros ++ [rank + 2] ++
              SymbolStream.spell 0 (Recency.ranks (Recency.touch recent byte) column) := by simp
      rw [if_neg (Nat.succ_ne_zero rank), SymbolStream.spell, split,
        push_append (SymbolStream.zeroDigits zeros ++ [rank + 2])]
      congr 1
      funext written
      exact onward 0 written.1 written.2

/-- Tables of a coding, each with room for the largest alphabet. -/
structure Rows {α : Type} (tables : Array (Array α)) : Prop where
  count : tables.size = tableLimit
  room : ∀ row ∈ tables, row.size = largestAlphabet

/-- The storage of a coding has room for the largest alphabet. -/
structure Sized (space : CodingSpace) : Prop where
  counts : space.counts.size = largestAlphabet
  lengths : Rows space.lengths
  codes : Rows space.codes

theorem rows_replicate {α : Type} (item : α) :
    Rows (Array.replicate tableLimit (Array.replicate largestAlphabet item)) := by
  refine ⟨Array.size_replicate .., fun row member => ?_⟩
  rw [(Array.mem_replicate.mp member).2, Array.size_replicate]

theorem empty_sized : empty.Sized :=
  ⟨Array.size_replicate .., rows_replicate 0, rows_replicate 0⟩

/-- A coding space holds the symbols of a stream and how often each occurs. -/
structure Counts (space : CodingSpace) (stream : SymbolStream) : Prop where
  symbols : space.symbols = (stream.symbols.map Fin.val).toArray
  counts : Tabulates largestAlphabet (fun symbol => (stream.symbols.map Fin.val).count symbol)
    space.counts

theorem range_eq_numbers {numbers : List UInt8} (distinct : numbers.Nodup) :
    List.range numbers.length = numbers.map (numbers.idxOf ·) := by
  refine List.ext_getElem (by simp) fun place inside bound => ?_
  rw [List.length_range] at inside
  rw [List.getElem_range, List.getElem_map, distinct.idxOf_getElem place inside]

/-- The symbols of a column are found in storage and counted, wherever its bytes are read. -/
theorem generate_column {store : BlockStore} {order : Array Nat} {positions : List Nat}
    (front : Cells.front order store.size = some positions) {column : List UInt8}
    (reads : positions.map (store.slots[·]?) = column.map some)
    (covers : ∀ byte ∈ column, byte ∈ store.present.toList)
    {space : CodingSpace} (sized : space.Sized) :
    ∃ after, space.generate store order = some (store.present.toList.length + 2, after) ∧
      after.Counts (.ofColumn store.present column) ∧ after.Sized := by
  obtain ⟨symbols, counts, lengths, codes, selectors, selectorRanks⟩ := space
  have few := store.present.length_toList_le
  have values := SymbolStream.ofColumn_vals covers
  have bounded : ∀ symbol ∈ (SymbolStream.ofColumn store.present column).symbols.map Fin.val,
      symbol < largestAlphabet := by
    rintro _ member
    obtain ⟨symbol, -, rfl⟩ := List.mem_map.mp member
    exact symbol.isLt.trans_le (Nat.add_le_add_right few 2)
  have zero : Tabulates largestAlphabet (fun _ => 0) (Array.replicate counts.size 0) :=
    ⟨(Array.size_replicate ..).trans sized.counts, fun place near => by
      rw [Array.getElem?_replicate, if_pos (near.trans_eq sized.counts.symm)]⟩
  obtain ⟨after, pushed, result⟩ := push_spec zero #[] bounded
  have distinct : store.present.toList.Nodup := allBytes_nodup.filter _
  have same := pushColumn_eq reads covers (fun byte member => member) 0 #[]
    (Array.replicate counts.size 0)
  rw [← range_eq_numbers distinct] at same
  rw [values, push_append, ← same, ← values] at pushed
  refine ⟨⟨_, after, lengths, codes, selectors, selectorRanks⟩, ?_, ⟨rfl, ?_⟩,
    ⟨result.extent, sized.lengths, sized.codes⟩⟩
  · rw [generate]
    simp only [front, Option.bind_eq_bind, Option.bind_some]
    rw [values, List.nil_append] at pushed
    generalize told : pushColumn store.slots _ _ _ _ _ _ = first at pushed ⊢
    obtain _ | ⟨symbols, counts⟩ := first
    · cases pushed
    · simp only [Option.bind_some] at pushed ⊢
      rw [pushed, values]
      rfl
  · exact result.congr fun symbol _ => Nat.zero_add _

theorem generate_spec {sorted : SortedBlock} {store : BlockStore} {sorting : SortSpace}
    (stored : sorted.StoredIn store sorting)
    (perm : sorted.order.Perm (List.finRange sorted.block.bytes.size))
    (covers : ∀ byte ∈ sorted.column, byte ∈ sorted.block.present.toList)
    {space : CodingSpace} (sized : space.Sized) :
    ∃ after, space.generate store sorting.order =
        some (sorted.block.present.toList.length + 2, after) ∧
      after.Counts (.ofColumn sorted.block.present sorted.column) ∧ after.Sized := by
  obtain ⟨shows, last, rest, order⟩ := stored
  have front : Cells.front sorting.order store.size = some (sorted.order.map Fin.val) := by
    rw [order, shows.size]
    exact Cells.front_toArray _ _ (by rw [List.length_map, perm.length_eq, List.length_finRange])
  have reads : (sorted.order.map Fin.val).map (store.slots[·]?) = sorted.column.map some := by
    rw [SortedBlock.column, List.map_map, List.map_map]
    exact List.map_congr_left fun position _ => last position
  rw [← shows.present] at covers ⊢
  exact generate_column front reads covers sized

end CodingSpace

end BlockSort
