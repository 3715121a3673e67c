import BlockSort.Proofs.Progress
import BlockSort.StreamCompressor

namespace BlockSort

theorem Narrow.length_fieldBits_le {fields : List Field} (narrow : Narrow fields) :
    (fieldBits fields).length ≤ 24 * fields.length := by
  induction fields with
  | nil => simp
  | cons field rest ih =>
    have width : field.width ≤ 24 := narrow field List.mem_cons_self
    have others := ih fun other member => narrow other (List.mem_cons_of_mem _ member)
    rw [fieldBits_cons, List.length_append, Field.length_bits, List.length_cons]
    omega

namespace Coding

variable {n : Nat}

theorem length_stepFields_le {current next : Nat} (current_le : current ≤ longestCode)
    (next_le : next ≤ longestCode) : (stepFields current next).length ≤ 21 := by
  rw [longestCode] at current_le next_le
  rw [stepFields, List.length_append, List.length_append, List.length_replicate,
    List.length_replicate, List.length_singleton]
  omega

theorem length_lengthSteps_le {current : Nat} {table : List Nat}
    (current_le : current ≤ longestCode) (bounded : ∀ length ∈ table, length ≤ longestCode) :
    (lengthSteps current table).length ≤ 21 * table.length := by
  induction table generalizing current with
  | nil => simp [lengthSteps]
  | cons next rest ih =>
    have next_le := bounded next List.mem_cons_self
    have first := length_stepFields_le current_le next_le
    have others := ih next_le fun length member => bounded length (List.mem_cons_of_mem _ member)
    rw [lengthSteps, List.length_append, List.length_cons]
    omega

theorem length_tableFields_le {table : Vector Nat n}
    (complete : PrefixCode.Complete longestCode table.toList) :
    (tableFields table).length ≤ 21 * n + 1 := by
  have first : table.toList.headD 0 ≤ longestCode := by
    cases lengths : table.toList with
    | nil => decide
    | cons first rest => exact complete.bounded first (by simp [lengths])
  have steps := length_lengthSteps_le first complete.bounded
  rw [Vector.length_toList] at steps
  exact Nat.add_le_add_right steps 1

theorem length_symbolFields_le (groups : List (List (Fin n))) (choice : Choice n) :
    (symbolFields groups choice).length ≤ groups.flatten.length := by
  refine length_flatMap_zip_le (fun group selector => ?_) groups choice.selectors
  dsimp only
  split <;> simp

theorem length_fields_le {groups : List (List (Fin n))} {choice : Choice n}
    (sound : choice.Sound groups) (few : n ≤ 258) :
    (fields groups choice).length ≤
      choice.selectors.length + groups.flatten.length + 40000 := by
  have tables : (choice.tables.flatMap tableFields).length ≤ 6 * (21 * 258 + 1) := by
    rw [List.length_flatMap]
    refine (List.sum_le_card_nsmul _ (21 * 258 + 1) fun length member => ?_).trans ?_
    · obtain ⟨table, inside, rfl⟩ := List.mem_map.mp member
      exact (length_tableFields_le (sound.complete table inside)).trans (by omega)
    · rw [List.length_map, smul_eq_mul]
      exact Nat.mul_le_mul_right _ sound.tables.2
  have symbols := length_symbolFields_le groups choice
  have selectors : (selectorFields choice.tables.length choice.selectors).length =
      choice.selectors.length := by
    rw [selectorFields, List.length_map, Recency.length_ranks]
  simp only [fields, List.length_append, List.length_cons, List.length_nil, selectors]
  omega

end Coding

theorem ByteSet.length_mapFields_le (set : ByteSet) : set.mapFields.length ≤ 17 := by
  have few := List.length_filter_le (·.contains true) ((List.range 16).map set.range)
  rw [List.length_map, List.length_range] at few
  rw [mapFields, List.length_cons, List.length_map]
  exact Nat.add_le_add_right few 1

theorem SortedBlock.length_fields_le {sorted : SortedBlock}
    (perm : sorted.order.Perm (List.finRange sorted.block.bytes.size))
    (small : sorted.block.bytes.size ≤ 900000) :
    (sorted.headerFields ++ sorted.coded.fields).length ≤ 1000000 := by
  have coded := Coding.length_fields_le (choice_sound perm small)
    (Nat.add_le_add_right sorted.block.present.length_toList_le 2)
  have selectors := length_selectors_lt perm small
  have symbols : sorted.coded.groups.flatten.length ≤ sorted.block.bytes.size + 1 :=
    (congrArg List.length (Coding.flatten_groupsOf _)).trans_le (length_symbols_le perm)
  have map := sorted.block.present.length_mapFields_le
  have header : sorted.headerFields.length ≤ 30 := by
    simp only [headerFields, List.length_append, List.length_map, Mark.block, Field.word,
      List.length_cons, List.length_nil]
    omega
  rw [Coding.groupSize] at selectors
  rw [List.length_append, CodedStream.fields]
  omega

namespace Series

/-- As many bits as no block takes up. -/
def blockBits : Nat := 24000000

variable {level : Level} {series : Series} {runs : List Run}

theorem Holds.length_blockFields_le (holds : Holds level series runs) :
    (fieldBits series.blockFields).length ≤ blockBits := by
  have narrow := holds.blockFields_narrow.length_fieldBits_le
  have small := holds.small
  have few : series.blockFields.length ≤ 1000000 := by
    rw [blockFields]
    split
    · exact Nat.zero_le _
    · rename_i empty
      have sorts := Block.sort_sorts holds.block (by simpa using empty)
      exact SortedBlock.length_fields_le sorts.order (by rw [sorts.size]; omega)
  rw [blockBits]
  omega

/-- Each run that is added completes at most one block. -/
theorem Holds.length_takeAllFields_le (holds : Holds level series runs) {more : List Run}
    (positive : ∀ run ∈ more, 0 < run.length) :
    (fieldBits (series.takeAllFields more)).length ≤ blockBits * more.length := by
  induction more generalizing series runs with
  | nil => simp [takeAllFields]
  | cons run rest ih =>
    have others := ih (holds.take (positive run List.mem_cons_self))
      fun other member => positive other (List.mem_cons_of_mem _ member)
    have first : (fieldBits series.takeFields).length ≤ blockBits := by
      rw [takeFields]
      split
      · exact holds.length_blockFields_le
      · exact Nat.zero_le _
    rw [takeAllFields, fieldBits_append, List.length_append, List.length_cons, Nat.mul_succ,
      Nat.add_comm]
    exact Nat.add_le_add others first

end Series

theorem Run.length_divide_le (bytes : List UInt8) : (divide bytes).length ≤ bytes.length := by
  obtain ⟨proper, expands⟩ := divide_spec bytes
  have positive : ∀ length ∈ (divide bytes).map (·.expand.length), 1 ≤ length := by
    refine List.forall_mem_map.mpr fun run member => ?_
    rw [expand, List.length_replicate]
    exact UInt8.lt_iff_toNat_lt.mp (proper.positive run member)
  have total := congrArg List.length expands
  rw [List.length_flatMap] at total
  have count := List.length_le_sum_of_one_le _ positive
  rwa [List.length_map, total] at count

/-- The compressed form of a byte string takes up no more than a block for each byte and one more,
but for what stands before and after the blocks. -/
theorem Draft.length_memberBits_le (level : Level) (bytes : List UInt8) :
    (memberBits level bytes).length ≤ Series.blockBits * (bytes.length + 1) + 119 := by
  have positive := (Run.divide_spec bytes).1.positive
  have fresh := Series.holds_ofLevel level
  obtain ⟨current, holds⟩ := fresh.takeAll positive
  have runs := Nat.mul_le_mul_left Series.blockBits (Run.length_divide_le bytes)
  have taken := fresh.length_takeAllFields_le positive
  have last := holds.length_blockFields_le
  have header : (fieldBits (Outline.headerFields level)).length = 32 := by
    rw [Decoder.bits_headerFields, List.length_append, Bits.length_ofNat, Bits.length_ofNat]
  have mark : (fieldBits (Mark.trailer.map Field.byte)).length = 48 := by decide
  have trailer (word : UInt32) : (fieldBits (Field.word word)).length = 32 := by
    rw [Field.bits_word, Bits.length_ofNat]
  have fields : (fieldBits (memberFields level bytes)).length ≤
      Series.blockBits * (bytes.length + 1) + 112 := by
    rw [memberFields_eq, Series.closingFields, Nat.mul_succ]
    simp only [fieldBits_append, List.length_append, header, mark, trailer]
    omega
  rw [memberBits, Action.extend, List.length_append, List.length_replicate]
  omega

/-- So does it in bytes, with room to spare. -/
theorem size_compress_le {level : Level} {bytes : List UInt8} {output : Array UInt8}
    (compressed : compress bytes level = .ok output) :
    output.size ≤ StreamCompressor.blockBound * (bytes.length + 1) := by
  obtain ⟨same, again, bits⟩ := Encoder.compress_bits bytes level
  obtain rfl : same = output := Except.ok.inj (again.symm.trans compressed)
  have extent := Draft.length_memberBits_le level bytes
  rw [← bits, Bits.length_ofBytes, Array.length_toList] at extent
  rw [Series.blockBits] at extent
  rw [StreamCompressor.blockBound]
  omega

end BlockSort
