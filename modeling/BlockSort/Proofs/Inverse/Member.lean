import BlockSort.Proofs.Division
import BlockSort.Proofs.Inverse.Series
import BlockSort.Proofs.Outline

namespace BlockSort

namespace Draft

/-- All fields of the member that holds the given bytes. -/
def memberFields (level : Level) (bytes : List UInt8) : List Field :=
  Outline.headerFields level ++ (ofLevel level).pushFields bytes ++
    ((ofLevel level).push bytes).endFields

theorem ended_push (level : Level) (bytes : List UInt8) :
    ((ofLevel level).push bytes).ended = (Series.ofLevel level).takeAll (Run.divide bytes) :=
  (Series.takeAll_append _ _ _).symm

theorem memberFields_eq (level : Level) (bytes : List UInt8) :
    memberFields level bytes =
      Outline.headerFields level ++
        ((Series.ofLevel level).takeAllFields (Run.divide bytes) ++
          ((Series.ofLevel level).takeAll (Run.divide bytes)).closingFields) := by
  have runs : Run.divide bytes = (RunBuilder.pushAll {} bytes).1 ++
      (RunBuilder.pushAll {} bytes).2.growing.toList := rfl
  rw [memberFields, pushFields, endFields, ended_push, List.append_assoc]
  congr 1
  rw [runs, Series.takeAllFields_append, ← List.append_assoc]
  rfl

theorem headerFields_narrow (level : Level) : Narrow (Outline.headerFields level) :=
  (Narrow.bytes Mark.member).append (Narrow.bytes [Mark.coding, level.digit])

theorem memberFields_narrow (level : Level) (bytes : List UInt8) :
    Narrow (memberFields level bytes) := by
  have positive := (Run.divide_spec bytes).1.positive
  have fresh := Series.holds_ofLevel level
  obtain ⟨current, holds⟩ := fresh.takeAll positive
  rw [memberFields_eq]
  exact (headerFields_narrow level).append
    ((fresh.takeAllFields_narrow positive).append holds.closingFields_narrow)

end Draft

namespace Decoder

theorem bits_headerFields (level : Level) :
    fieldBits (Outline.headerFields level) =
      Bits.ofNat 24 0x425A68 ++ Bits.ofNat 8 level.digit.toNat := by
  have mark : fieldBits (Mark.member.map .byte ++ [.byte Mark.coding]) =
      Bits.ofNat 24 0x425A68 := by decide
  rw [Outline.headerFields, Series.headerFields, ← mark]
  simp [Series.ofLevel]

theorem toNat_digit (level : Level) : level.digit.toNat = 48 + level.value := by
  have nine := level.le_nine
  rw [Level.digit, UInt8.toNat_add, UInt8.toNat_ofNat']
  simp only [UInt8.reduceToNat]
  omega

/-- A member is read back as the bytes that it holds. -/
theorem reads_member (level : Level) (bytes : List UInt8) :
    ∃ found : Decoder.Member, found.level = level.value ∧ found.data = bytes ∧
      (Series.ofLevel level).Counts found.blocks
        ((Draft.ofLevel level).push bytes).ended.closeBlock ∧
      Reads member (fieldBits (Draft.memberFields level bytes)) found := by
  obtain ⟨proper, expands⟩ := Run.divide_spec bytes
  have one := level.one_le
  have nine := level.le_nine
  obtain ⟨found, groups, crc, counts, counted, reads⟩ :=
    reads_blocks (Series.holds_ofLevel level) (Run.divide bytes) proper
  have data := data_of_groups groups
  rw [(Run.grouping _ _ (Nat.zero_le _)).whole, List.nil_append, expands] at data
  have trailer : fieldBits (Mark.trailer.map .byte) = Bits.ofNat 48 endMark := by decide
  have bits : fieldBits (Draft.memberFields level bytes) =
      Bits.ofNat 24 0x425A68 ++ (Bits.ofNat 8 (48 + level.value) ++
        ((fieldBits ((Series.ofLevel level).takeAllFields (Run.divide bytes) ++
            ((Series.ofLevel level).takeAll (Run.divide bytes)).blockFields) ++
              Bits.ofNat 48 endMark) ++
          (Bits.ofNat 32
            ((Series.ofLevel level).takeAll (Run.divide bytes)).closeBlock.combined.toNat ++
              []))) := by
    rw [Draft.memberFields_eq, Series.closingFields]
    simp only [fieldBits_append, bits_headerFields, toNat_digit, trailer, Field.bits_word,
      List.append_assoc, List.append_nil]
  refine ⟨⟨level.value, found⟩, rfl, data, ?_, ?_⟩
  · rw [Draft.ended_push]
    exact counts
  rw [bits, member]
  refine (Reads.number (by decide)).bind (Reads.check rfl ?_)
  refine (Reads.number (by omega)).bind (Reads.check ⟨by omega, by omega⟩ (Reads.get ?_))
  intro left enough
  rw [List.length_append, List.length_append, Bits.length_ofNat] at enough
  rw [Nat.add_sub_cancel_left]
  refine (reads left.length (by omega)).bind ((Reads.number (UInt32.toNat_lt _)).bind ?_)
  exact Reads.check crc (Reads.pure _)

/-- The bytes of a member are decoded, and what completes the last of them is passed over. -/
theorem decode_of_bits {bytes : List UInt8} {bits : List Bool} {found : Decoder.Member}
    (reads : Reads member bits found) (padded : Bits.ofBytes bytes = Action.extend bits .finish) :
    decode bytes = some found := by
  rw [decode, padded, Action.extend, reads]
  refine if_pos ⟨?_, ?_⟩
  · rw [List.length_replicate]
    omega
  · simp

end Decoder

end BlockSort
