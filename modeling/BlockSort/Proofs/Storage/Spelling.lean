import BlockSort.Proofs.Storage.Isolation

namespace BlockSort

/-- A store from which the byte before any position can be read and looked up: the last byte of the
block stands before the first one, and all values that occur are in use. -/
structure BlockStore.Readable (store : BlockStore) : Prop where
  room : store.size < store.slots.size
  last : store.slots[0]? = store.slots[store.size]?
  present : ∀ byte ∈ store.bytes, store.present.contains byte = true

namespace BlockStore.Readable

variable {store : BlockStore}

theorem slot (readable : store.Readable) {position : Nat} (inside : position < store.size) :
    ∃ byte ∈ store.bytes, store.slots[position]? = some byte := by
  have later (place : Nat) (bound : place < store.size) :
      ∃ byte ∈ store.bytes, store.slots[place + 1]? = some byte := by
    have near : place + 1 < store.slots.size := Nat.lt_of_le_of_lt bound readable.room
    have found : store.bytes[place]? = some store.slots[place + 1] := by
      rw [BlockStore.bytes, List.getElem?_take_of_lt bound, List.getElem?_drop, Nat.add_comm 1]
      simp [near]
    exact ⟨_, List.mem_of_getElem? found, Array.getElem?_eq_getElem near⟩
  cases position with
  | zero =>
    obtain ⟨byte, member, found⟩ := later (store.size - 1) (by omega)
    rw [Nat.sub_add_cancel inside] at found
    exact ⟨byte, member, readable.last.trans found⟩
  | succ place => exact later place (by omega)

theorem column (readable : store.Readable) {positions : List Nat}
    (inside : ∀ position ∈ positions, position < store.size) :
    ∃ column, positions.mapM (store.slots[·]?) = some column ∧
      positions.map (store.slots[·]?) = column.map some ∧
      ∀ byte ∈ column, byte ∈ store.present.toList := by
  induction positions with
  | nil => exact ⟨[], rfl, rfl, by simp⟩
  | cons position rest ih =>
    obtain ⟨byte, member, found⟩ := readable.slot (inside position List.mem_cons_self)
    obtain ⟨column, read, reads, known⟩ :=
      ih fun other later => inside other (List.mem_cons_of_mem _ later)
    refine ⟨byte :: column, ?_, ?_, fun other listed => ?_⟩
    · rw [List.mapM_cons, found, read]
      rfl
    · rw [List.map_cons, found, reads, List.map_cons]
    · rcases List.mem_cons.mp listed with rfl | later
      · exact (ByteSet.mem_toList _ _).mpr (readable.present other member)
      · exact known other later

end BlockStore.Readable

namespace CodingSpace

/-- Symbols of an alphabet stand in a space and are counted there, and the greatest of them ends
them. -/
structure Ended (space : CodingSpace) (alphabet : Nat) (body : List Nat) : Prop where
  symbols : space.symbols.toList = body ++ [alphabet - 1]
  once : alphabet - 1 ∉ body
  below : ∀ symbol ∈ space.symbols, symbol < alphabet
  counts : ∀ symbol < largestAlphabet,
    space.counts[symbol]? = some (space.symbols.toList.count symbol)

variable {space : CodingSpace} {present : ByteSet} {column : List UInt8}

/-- The column of counted symbols is regained from them, and their end is told by a symbol. -/
theorem Counts.spells (counts : space.Counts (.ofColumn present column)) (occupied : column ≠ [])
    (covers : ∀ byte ∈ column, byte ∈ present.toList) :
    ∃ body, space.Ended (present.toList.length + 2) body ∧ body.length ≤ column.length ∧
      Decoder.undoRecency present.toList (Decoder.expandZeros 1 0 body) = some column := by
  have symbols : space.symbols.toList =
      (SymbolStream.ofColumn present column).symbols.map Fin.val :=
    congrArg Array.toList counts.symbols
  obtain ⟨byte, member⟩ := List.exists_mem_of_ne_nil column occupied
  have positive : 1 ≤ present.toList.length := List.length_pos_of_mem (covers byte member)
  have bounded := SymbolStream.spell_le 0 _ positive (Recency.ranks_lt covers)
  have short := SymbolStream.length_spell_le 0 (Recency.ranks present.toList column)
  rw [Recency.length_ranks, Nat.zero_add] at short
  refine ⟨_, ⟨symbols.trans (SymbolStream.ofColumn_vals covers), fun ended => ?_,
    fun symbol listed => ?_, fun symbol near => ?_⟩, short, ?_⟩
  · exact absurd (bounded _ ended) (Nat.not_succ_le_self _)
  · rw [← Array.mem_toList_iff, symbols] at listed
    obtain ⟨symbol, -, rfl⟩ := List.mem_map.mp listed
    exact symbol.isLt
  · rw [symbols]
    exact counts.counts.get symbol near
  · rw [Decoder.expandZeros_spell, List.replicate_zero, List.nil_append,
      Decoder.undoRecency_ranks covers]

/-- The symbols that are generated for a block give back the bytes before the listed positions,
which need not be all, whatever was counted in the space before. -/
theorem generate_invertible {store : BlockStore} {order : Array Nat} (readable : store.Readable)
    (occupied : store.size ≠ 0) (room : store.size ≤ order.size)
    (inside : ∀ position ∈ order.toList.take store.size, position < store.size)
    (sized : space.Sized) :
    ∃ column after body, (order.toList.take store.size).mapM (store.slots[·]?) = some column ∧
      space.generate store order = some (store.present.toList.length + 2, after) ∧
      after.Ended (store.present.toList.length + 2) body ∧
      after.symbols.size ≤ store.size + 1 ∧
      Decoder.undoRecency store.present.toList (Decoder.expandZeros 1 0 body) = some column := by
  obtain ⟨column, read, reads, known⟩ := readable.column inside
  have length : column.length = store.size := by
    have same := congrArg List.length reads
    rw [List.length_map, List.length_map, List.length_take, Array.length_toList,
      Nat.min_eq_left room] at same
    exact same.symm
  obtain ⟨after, generated, counts, -⟩ := generate_column (if_pos room) reads known sized
  obtain ⟨body, ended, short, undone⟩ :=
    counts.spells (List.ne_nil_of_length_pos (by omega)) known
  refine ⟨column, after, body, read, generated, ended, ?_, undone⟩
  rw [← Array.length_toList, ended.symbols, List.length_append, List.length_singleton, ← length]
  exact Nat.succ_le_succ short

/-- One position is listed twice and one never, and a value is in use that does not occur. -/
theorem generate_invertible_repeated :
    let store : BlockStore :=
      { slots := #[97, 97, 98, 97, 5], size := 3, allowed := 20
        present := ((({} : ByteSet).insert 97).insert 98).insert 120 }
    let space : CodingSpace :=
      { empty with symbols := #[1, 2], counts := Array.replicate largestAlphabet 4 }
    ∃ after body, space.generate store #[2, 2, 0, 7] = some (5, after) ∧ after.Ended 5 body ∧
      after.symbols.size ≤ 4 ∧
      Decoder.undoRecency [(97 : UInt8), 98, 120] (Decoder.expandZeros 1 0 body) =
        some [98, 98, 97] := by
  intro store space
  have values : store.present.toList = [97, 98, 120] := by
    have contains : store.present.contains =
        fun byte => 120 = byte || (98 = byte || 97 = byte) := by
      funext byte
      simp [store, ByteSet.contains_insert]
    rw [ByteSet.toList, contains]
    decide +kernel
  have known : ∀ byte ∈ store.bytes, store.present.contains byte = true := by
    simp [store, BlockStore.bytes, ByteSet.contains_insert]
  obtain ⟨column, after, body, read, generated, ended, short, undone⟩ :=
    @generate_invertible space store #[2, 2, 0, 7] ⟨by decide, rfl, known⟩ (by decide)
      (by decide) (by decide) ⟨Array.size_replicate .., empty_sized.lengths, empty_sized.codes⟩
  obtain rfl : [98, 98, 97] = column := Option.some.inj read
  rw [values] at generated ended undone
  exact ⟨after, body, generated, ended, short, undone⟩

end CodingSpace

end BlockSort
