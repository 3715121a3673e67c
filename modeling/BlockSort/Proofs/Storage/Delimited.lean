import BlockSort.Proofs.Storage.Spelling

/-!
Coded symbols tell where they end. A reader that knows the size of their alphabet regains the
selectors, the code lengths and the symbols from the bits, and leaves whatever follows them.
-/
namespace BlockSort

theorem Channel.Ready.emit {channel : Channel} (ready : channel.Ready) {emissions : List Emission}
    {fields : List Field} (actions : emissions.flatMap Emission.actions = fields.map .put)
    (narrow : Narrow fields) :
    ∃ written, Channel.emit emissions channel = .ok () written ∧
      channel.Gained (fieldBits fields) written := by
  obtain ⟨writer, performed, wrote⟩ :=
    BitWriter.perform_accepting ready.accepting ready.tidy narrow.actions
  have follows := Channel.follows_emit emissions channel
  rw [actions] at follows
  simp only [Follows, performed] at follows
  obtain ⟨written, success, rfl, -⟩ := follows
  exact ⟨written, success, ⟨wrote.accepting, wrote.tidy⟩,
    wrote.stream.trans (Action.extendAll_puts ..)⟩

namespace CodingSpace

variable {space : CodingSpace} {alphabet : Nat} {body : List Nat}

theorem Ended.stream (ended : space.Ended alphabet body) (sized : space.Sized)
    (positive : 0 < alphabet) :
    ∃ (symbols : List (Fin alphabet)) (last : Fin alphabet), symbols.map Fin.val = body ∧
      last.val = alphabet - 1 ∧ (∀ symbol ∈ symbols, symbol ≠ last) ∧
      space.Counts ⟨alphabet, symbols ++ [last]⟩ := by
  have below : ∀ symbol ∈ body, symbol < alphabet := fun symbol member =>
    ended.below symbol (Array.mem_toList_iff.mp (by simp [ended.symbols, member]))
  obtain ⟨last, greatest⟩ : ∃ last : Fin alphabet, last.val = alphabet - 1 :=
    ⟨⟨alphabet - 1, by omega⟩, rfl⟩
  lift body to List (Fin alphabet) using below with symbols
  have values : space.symbols.toList = (symbols ++ [last]).map Fin.val := by
    rw [ended.symbols, List.map_append, List.map_singleton, greatest]
  refine ⟨symbols, last, rfl, greatest, ?_, ?_, ⟨sized.counts, fun symbol near => ?_⟩⟩
  · rintro _ member rfl
    exact ended.once (greatest ▸ List.mem_map_of_mem member)
  · rw [← values, Array.toArray_toList]
  · rw [← values]
    exact ended.counts symbol near

theorem Counts.cutChecked {stream : SymbolStream} (counts : space.Counts stream)
    (few : stream.alphabet ≤ largestAlphabet) (tables : Nat) :
    ∃ frequencies, Cells.front space.counts stream.alphabet = some frequencies ∧
      Coding.Slice.cutChecked tables tables 0 space.symbols.size frequencies =
        some (Coding.Slice.cut tables tables 0 space.symbols.size frequencies) := by
  refine ⟨_, counts.frequencies few, ?_⟩
  rw [counts.size_symbols, ← total_histogram]
  exact Coding.Slice.cutChecked_eq ..

/-- Symbols are always coded, and on a sink that takes everything also written, from whichever bit
the channel has come to. The bits that are added tell their own end: with any bits behind them they
are read as the selectors, the code lengths and the symbols of the space, and exactly those bits are
left. No slice of the alphabet is cut from fewer symbols than it takes. -/
theorem code_delimited (several : 3 ≤ alphabet) (few : alphabet ≤ 258) (sized : space.Sized)
    (ended : space.Ended alphabet body) (short : space.symbols.size ≤ 900000) {channel : Channel}
    (ready : channel.Ready) :
    ∃ emissions summary after written bits tables,
      space.code alphabet = some (emissions, summary, after) ∧
      Channel.emit emissions channel = .ok () written ∧ channel.Gained bits written ∧
      fronts after.lengths summary.tables alphabet = some tables ∧
      (∀ rest, Decoder.coding alphabet (bits ++ rest) =
        some (⟨after.selectors.toList, tables.map Vector.toList, body⟩, rest)) ∧
      ∃ frequencies, Cells.front space.counts alphabet = some frequencies ∧
        Coding.Slice.cutChecked summary.tables summary.tables 0 space.symbols.size frequencies =
          some
            (Coding.Slice.cut summary.tables summary.tables 0 space.symbols.size frequencies) := by
  obtain ⟨symbols, last, values, greatest, before, counts⟩ := ended.stream sized (by omega)
  have length : (symbols ++ [last]).length = space.symbols.size := counts.size_symbols.symm
  obtain ⟨after, code, chosen, -⟩ :=
    code_spec counts sized (Nat.le_of_succ_le several) few (by dsimp only; omega)
  have sound := CodedStream.choice_sound ⟨alphabet, symbols ++ [last]⟩ (Nat.le_of_succ_le several)
    few (by dsimp only; omega)
  have selectors : (CodedStream.ofSymbols ⟨alphabet, symbols ++ [last]⟩).choice.selectors.length <
      2 ^ 15 := by
    have groups := Coding.length_groupsOf_le (symbols ++ [last])
    rw [sound.selectors]
    simp only [CodedStream.ofSymbols, Coding.groupSize] at groups ⊢
    omega
  have reads := Decoder.reads_coding greatest before
    (by rw [List.length_append, List.length_singleton] at length; omega) sound
  obtain ⟨written, emitted, gained⟩ := ready.emit (CodedStream.emissions_actions _)
    (Coding.fields_exact sound selectors).narrow
  refine ⟨_, _, after, written, _,
    (CodedStream.ofSymbols ⟨alphabet, symbols ++ [last]⟩).choice.tables, code, emitted, gained, ?_,
    fun rest => ?_, counts.cutChecked few _⟩
  · dsimp only
    exact fronts_spec chosen.begins
  · rw [chosen.selectors, ← values]
    exact reads rest

/-- Five symbols of four, of which one does not occur, written behind five bits and over what other
blocks have left in the space. -/
theorem code_delimited_short :
    let space : CodingSpace :=
      { symbols := #[1, 0, 1, 1, 3]
        counts := (Array.range largestAlphabet).map [1, 0, 1, 1, 3].count
        lengths := Array.replicate tableLimit (Array.replicate largestAlphabet 9)
        codes := Array.replicate tableLimit (Array.replicate largestAlphabet 5)
        selectors := #[3, 3]
        selectorRanks := #[1] }
    let channel : Channel := { writer := { register := 0xA8000000, held := 5 } }
    ∃ emissions summary after written bits tables,
      space.code 4 = some (emissions, summary, after) ∧
      Channel.emit emissions channel = .ok () written ∧ channel.Gained bits written ∧
      fronts after.lengths summary.tables 4 = some tables ∧
      (∀ rest, Decoder.coding 4 (bits ++ rest) =
        some (⟨after.selectors.toList, tables.map Vector.toList, [1, 0, 1, 1]⟩, rest)) ∧
      ∃ frequencies, Cells.front space.counts 4 = some frequencies ∧
        Coding.Slice.cutChecked summary.tables summary.tables 0 5 frequencies =
          some (Coding.Slice.cut summary.tables summary.tables 0 5 frequencies) := by
  intro space channel
  have ended : space.Ended 4 [1, 0, 1, 1] :=
    ⟨rfl, by decide, by decide, fun symbol near => by simp [space, near]⟩
  exact code_delimited (by decide) (by decide) ⟨by simp [space], rows_replicate 9, rows_replicate 5⟩
    ended (by decide) ⟨⟨rfl, rfl⟩, by decide, by decide⟩

end CodingSpace

end BlockSort
