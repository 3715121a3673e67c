import BlockSort.Proofs.Blocks
import BlockSort.Proofs.Checksum
import BlockSort.Proofs.Inverse.Coding
import BlockSort.Proofs.Inverse.Runs
import BlockSort.Proofs.Inverse.SymbolMap
import BlockSort.Proofs.Inverse.Zeros
import BlockSort.Series

namespace BlockSort

namespace Field

@[simp]
theorem bits_byte (byte : UInt8) : (Field.byte byte).bits = Bits.ofNat 8 byte.toNat := rfl

theorem bits_bit (flag : Bool) : (Field.bit flag).bits = [flag] := by cases flag <;> rfl

theorem bits_word (word : UInt32) : fieldBits (Field.word word) = Bits.ofNat 32 word.toNat := by
  have low (value : Nat) : Bits.ofNat 8 (value % 256) = Bits.ofNat 8 value := Bits.ofNat_mod 8 value
  rw [Bits.ofNat_add 8 24, Bits.ofNat_add 8 16, Bits.ofNat_add 8 8]
  simp [Field.word, low]

end Field

namespace SortedBlock

variable {sorted : SortedBlock} {block : Block}

theorem Sorts.length_column (sorts : sorted.Sorts block) :
    sorted.column.length = sorted.block.bytes.size := by
  rw [column, List.length_map, sorts.order.length_eq, List.length_finRange]

theorem Sorts.mem_column (sorts : sorted.Sorts block) :
    ∀ byte ∈ sorted.column, byte ∈ sorted.block.present.toList := by
  intro byte member
  obtain ⟨position, _, rfl⟩ := List.mem_map.mp member
  rw [ByteSet.mem_toList, sorts.present]
  exact Array.getElem_mem _

theorem origin_lt (order : sorted.order.Perm (List.finRange sorted.block.bytes.size))
    (occupied : sorted.block.bytes.size ≠ 0) : sorted.origin < sorted.block.bytes.size := by
  have first : (⟨0, Nat.pos_of_ne_zero occupied⟩ : Fin sorted.block.bytes.size) ∈ sorted.order :=
    order.mem_iff.mpr (List.mem_finRange _)
  have found : sorted.order.findIdx (·.val = 0) < sorted.order.length :=
    List.findIdx_lt_length.mpr ⟨_, first, by simp⟩
  rwa [order.length_eq, List.length_finRange] at found

/-- The symbols of a column before its end symbol. -/
def body (sorted : SortedBlock) : List (Fin (sorted.block.present.toList.length + 2)) :=
  (SymbolStream.ofRanks (Recency.ranks sorted.block.present.toList sorted.column)).map
    (Fin.ofNat _)

/-- The end symbol of a column. -/
def last (sorted : SortedBlock) : Fin (sorted.block.present.toList.length + 2) :=
  Fin.ofNat _ (sorted.block.present.toList.length + 1)

theorem val_last (sorted : SortedBlock) :
    sorted.last.val = sorted.block.present.toList.length + 1 :=
  Nat.mod_eq_of_lt (Nat.lt_succ_self _)

theorem length_body_le (sorts : sorted.Sorts block) :
    sorted.body.length ≤ sorted.block.bytes.size := by
  have spelled := SymbolStream.length_spell_le 0
    (Recency.ranks sorted.block.present.toList sorted.column)
  rw [Recency.length_ranks, sorts.length_column, Nat.zero_add] at spelled
  rwa [body, List.length_map, SymbolStream.ofRanks_eq]

theorem ofColumn_eq (sorted : SortedBlock) :
    SymbolStream.ofColumn sorted.block.present sorted.column =
      ⟨sorted.block.present.toList.length + 2, sorted.body ++ [sorted.last]⟩ := by
  simp [SymbolStream.ofColumn, body, last]

/-- The symbols are small enough to stand for themselves, and none of them ends the block. -/
theorem Sorts.body_vals (sorts : sorted.Sorts block) (occupied : sorted.block.bytes.size ≠ 0) :
    sorted.body.map Fin.val =
        SymbolStream.ofRanks (Recency.ranks sorted.block.present.toList sorted.column) ∧
      ∀ symbol ∈ sorted.body, symbol ≠ sorted.last := by
  have positive : 1 ≤ sorted.block.present.toList.length := by
    obtain ⟨byte, member⟩ := List.exists_mem_of_length_pos (l := sorted.column)
      (by rw [sorts.length_column]; omega)
    exact List.length_pos_of_mem (sorts.mem_column byte member)
  have bounded : ∀ symbol ∈ SymbolStream.ofRanks
      (Recency.ranks sorted.block.present.toList sorted.column),
      symbol ≤ sorted.block.present.toList.length := by
    rw [SymbolStream.ofRanks_eq]
    exact SymbolStream.spell_le 0 _ positive (Recency.ranks_lt sorts.mem_column)
  have value : ∀ symbol ∈ SymbolStream.ofRanks
      (Recency.ranks sorted.block.present.toList sorted.column),
      (Fin.ofNat (sorted.block.present.toList.length + 2) symbol).val = symbol := by
    intro symbol member
    exact Nat.mod_eq_of_lt (Nat.lt_of_le_of_lt (bounded symbol member) (by omega))
  constructor
  · rw [body, List.map_map]
    exact (List.map_congr_left value).trans (List.map_id' _)
  · intro symbol member same
    obtain ⟨number, inside, rfl⟩ := List.mem_map.mp member
    have equal := congrArg Fin.val same
    rw [value number inside, val_last] at equal
    have bound := bounded number inside
    omega

end SortedBlock

namespace Decoder

variable {block : BlockSort.Block} {runs : List Run}

theorem reads_coded {sorted : SortedBlock} (sorts : sorted.Sorts block)
    (occupied : sorted.block.bytes.size ≠ 0) (small : sorted.block.bytes.size ≤ 900000) :
    ∃ decoded : Decoder.Coding,
      Reads (coding (sorted.block.present.toList.length + 2)) (fieldBits sorted.coded.fields)
        decoded ∧
      decoded.symbols =
        SymbolStream.ofRanks (Recency.ranks sorted.block.present.toList sorted.column) := by
  obtain ⟨values, before⟩ := sorts.body_vals occupied
  have length := SortedBlock.length_body_le sorts
  have few := sorted.block.present.length_toList_le
  have sound := CodedStream.choice_sound
    ⟨sorted.block.present.toList.length + 2, sorted.body ++ [sorted.last]⟩
    (by simp) (by simpa using few) (by
      rw [List.length_append, List.length_singleton]
      omega)
  have reads := reads_coding (by rw [sorted.val_last]; rfl) before (by omega) sound
  rw [SortedBlock.coded, sorted.ofColumn_eq]
  exact ⟨_, reads, values⟩

/-- A block is read back from what was written for it, whatever its sort did. -/
theorem reads_block (holds : block.Holds runs) (proper : Run.Proper runs) (nonempty : runs ≠ [])
    {limit : Nat} (small : block.bytes.size ≤ limit) (bounded : limit ≤ 900000) :
    ∃ (bits : List Bool) (decoded : Decoder.Block),
      fieldBits (block.sort.headerFields ++ block.sort.coded.fields) =
        Bits.ofNat 48 blockMark ++ bits ∧
      Reads (Decoder.block limit) bits decoded ∧
      decoded.encoded = runs.flatMap Run.encode ∧ decoded.data = runs.flatMap Run.expand ∧
      decoded.crc = block.crc.value.toNat ∧ decoded.randomised = block.sort.block.perturbed := by
  have occupied : block.isEmpty = false := by
    rw [holds.isEmpty proper.positive]
    simpa using nonempty
  have sorts := BlockSort.Block.sort_sorts holds occupied
  generalize block.sort = sorted at sorts
  have full : sorted.block.bytes.size ≠ 0 := by
    rw [sorts.size]
    simpa [BlockSort.Block.isEmpty, Array.isEmpty] using occupied
  have origin_lt := SortedBlock.origin_lt sorts.order full
  have size := sorts.size
  have marked : fieldBits (Mark.block.map .byte) = Bits.ofNat 48 blockMark := by decide
  obtain ⟨decoded, coded, symbols⟩ := reads_coded sorts full (by omega)
  have column := undoRecency_ranks sorts.mem_column
  rw [← expandZeros_ofRanks (Recency.ranks _ _), ← symbols] at column
  have length := sorts.length_column
  have encoded := sorts.bytes
  rw [← sorts.unrotated, holds.bytes] at encoded
  have expanded := proper.expandRuns
  rw [← encoded] at expanded
  have checksum : Decoder.crc (runs.flatMap Run.expand) = sorted.block.crc.value.toNat := by
    rw [crc_eq, sorts.crc, holds.crc]
    rfl
  refine ⟨Bits.ofNat 32 sorted.block.crc.value.toNat ++ ([sorted.block.perturbed] ++
      ((⟨UInt32.ofNat sorted.origin, 24⟩ : Field).bits ++
        (fieldBits sorted.block.present.mapFields ++ (fieldBits sorted.coded.fields ++ [])))),
    ⟨sorted.block.crc.value.toNat, sorted.block.perturbed, sorted.origin, decoded,
      runs.flatMap Run.encode, runs.flatMap Run.expand⟩, ?_, ?_, rfl, rfl, by rw [← sorts.crc],
    rfl⟩
  · simp only [SortedBlock.headerFields, fieldBits_append, fieldBits_cons, fieldBits_nil, marked,
      Field.bits_word, Field.bits_bit, List.append_nil, List.append_assoc]
  · rw [Decoder.block]
    refine (Reads.number (UInt32.toNat_lt _)).bind ((Reads.flag _).bind ?_)
    refine (reads_number (by omega) (by decide)).bind ((reads_symbolMap _).bind (coded.bind ?_))
    refine Reads.ofOption column (Reads.check ⟨by omega, by omega⟩ ?_)
    refine Reads.ofOption expanded (Reads.check checksum ?_)
    rw [encoded]
    exact Reads.pure _

end Decoder

end BlockSort
