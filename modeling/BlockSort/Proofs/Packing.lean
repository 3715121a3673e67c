import BlockSort.BitWriter
import BlockSort.Proofs.Bits

namespace BlockSort

/-- A sink without replies takes everything. -/
structure Sink.Accepting (sink : Sink) : Prop where
  writes : sink.writeReplies = []
  flushes : sink.flushReplies = []

namespace BitWriter

/-- Less than a byte is held, and no bit of the register is set below the bits that are held. -/
structure Tidy (writer : BitWriter) : Prop where
  held_lt : writer.held < 8
  clear : writer.register.toNat % 2 ^ (32 - writer.held) = 0

/-- The bits that the register holds. -/
def partialBits (writer : BitWriter) : List Bool :=
  Bits.ofNat writer.held (writer.register.toNat >>> (32 - writer.held))

/-- All bits written, as long as the sink has taken what it was given. -/
def stream (writer : BitWriter) : List Bool :=
  Bits.ofBytes (writer.sink.data.toList ++ writer.ready.toList) ++ writer.partialBits

theorem Tidy.testBit_eq_false {writer : BitWriter} (tidy : writer.Tidy) {place : Nat}
    (below : place < 32 - writer.held) : writer.register.toNat.testBit place = false := by
  have bit := Nat.testBit_mod_two_pow writer.register.toNat (32 - writer.held) place
  rw [tidy.clear] at bit
  simpa [below] using bit.symm

theorem mod_eq_zero_of_testBit {value width : Nat}
    (unset : ∀ place < width, value.testBit place = false) : value % 2 ^ width = 0 := by
  apply Nat.eq_of_testBit_eq
  intro place
  by_cases below : place < width
  · simp [below, unset place below]
  · simp [below]

theorem masked_toNat {field : Field} (narrow : field.width ≤ Field.widest) :
    field.masked.toNat = field.value.toNat % 2 ^ field.width := by
  have narrow : field.width ≤ 24 := narrow
  have small : 2 ^ field.width ≤ 2 ^ 24 := Nat.pow_le_pow_right (by omega) narrow
  have positive : 0 < 2 ^ field.width := Nat.two_pow_pos field.width
  have power : ((1 : UInt32) <<< UInt32.ofNat field.width).toNat = 2 ^ field.width := by
    rw [UInt32.toNat_shiftLeft, UInt32.toNat_ofNat_of_lt' (by simp only [UInt32.size]; omega),
      Nat.mod_eq_of_lt (by omega : field.width < 32), Nat.shiftLeft_eq, UInt32.toNat_one,
      Nat.one_mul]
    exact Nat.mod_eq_of_lt (by omega)
  have mask : ((1 : UInt32) <<< UInt32.ofNat field.width - 1).toNat = 2 ^ field.width - 1 := by
    rw [UInt32.toNat_sub_of_le _ _ (by rw [UInt32.le_iff_toNat_le, power]; exact positive), power]
    rfl
  rw [Field.masked, UInt32.toNat_and, mask, Nat.and_two_pow_sub_one_eq_mod]

/-- The register of a loaded writer: old bits above, the field's bits below them. -/
theorem load_testBit {writer : BitWriter} (tidy : writer.Tidy) {field : Field}
    (narrow : field.width ≤ Field.widest) {place : Nat} (inside : place < 32) :
    (writer.load field).register.toNat.testBit place =
      if 32 - writer.held ≤ place then writer.register.toNat.testBit place
      else (decide (32 - writer.held - field.width ≤ place) &&
        field.value.toNat.testBit (place - (32 - writer.held - field.width))) := by
  have held := tidy.held_lt
  have narrow' : field.width ≤ 24 := narrow
  have amount : (UInt32.ofNat (32 - writer.held - field.width)).toNat % 32 =
      (32 - writer.held - field.width) % 32 := by
    rw [UInt32.toNat_ofNat_of_lt' (by simp only [UInt32.size]; omega)]
  rw [load, UInt32.toNat_or, UInt32.toNat_shiftLeft, amount, masked_toNat narrow, Nat.testBit_or,
    Nat.testBit_mod_two_pow, Nat.testBit_shiftLeft, Nat.testBit_mod_two_pow]
  by_cases whole : 32 - writer.held - field.width = 32
  · have zero : field.width = 0 := by omega
    have low : place < 32 - writer.held := by omega
    simp [zero, tidy.testBit_eq_false low, Nat.not_le.mpr low]
  · rw [Nat.mod_eq_of_lt (by omega : 32 - writer.held - field.width < 32)]
    by_cases high : 32 - writer.held ≤ place
    · have outside : ¬ place - (32 - writer.held - field.width) < field.width := by omega
      simp [high, outside]
    · have low : place < 32 - writer.held := by omega
      simp only [tidy.testBit_eq_false low, if_neg high, Bool.false_or, inside, decide_true,
        Bool.true_and, ge_iff_le]
      by_cases reached : 32 - writer.held - field.width ≤ place
      · have within : place - (32 - writer.held - field.width) < field.width := by omega
        simp [reached, within]
      · simp [reached]

/-- A loaded register holds the old bits followed by those of the field. -/
theorem load_partialBits {writer : BitWriter} (tidy : writer.Tidy) {field : Field}
    (narrow : field.width ≤ Field.widest) :
    (writer.load field).partialBits = writer.partialBits ++ field.bits := by
  have held := tidy.held_lt
  have narrow' : field.width ≤ 24 := narrow
  have old : ((writer.load field).register.toNat >>> (32 - (writer.held + field.width))) >>>
      field.width = (writer.load field).register.toNat >>> (32 - writer.held) := by
    rw [← Nat.shiftRight_add]
    congr 1
    omega
  change Bits.ofNat (writer.held + field.width)
    ((writer.load field).register.toNat >>> (32 - (writer.held + field.width))) = _
  rw [Bits.ofNat_add, old]
  congr 1
  · apply Bits.ofNat_congr
    intro place below
    rw [Nat.testBit_shiftRight, Nat.testBit_shiftRight, load_testBit tidy narrow (by omega),
      if_pos (by omega)]
  · apply Bits.ofNat_congr
    intro place below
    rw [Nat.testBit_shiftRight, load_testBit tidy narrow (by omega), if_neg (by omega)]
    have same : 32 - (writer.held + field.width) + place - (32 - writer.held - field.width) =
      place := by omega
    simp only [same, Bool.and_eq_right_iff_imp, decide_eq_true_eq]
    omega

theorem load_clear {writer : BitWriter} (tidy : writer.Tidy) {field : Field}
    (narrow : field.width ≤ Field.widest) :
    (writer.load field).register.toNat % 2 ^ (32 - (writer.load field).held) = 0 := by
  apply mod_eq_zero_of_testBit
  intro place below
  change place < 32 - (writer.held + field.width) at below
  have held := tidy.held_lt
  rw [load_testBit tidy narrow (by omega), if_neg (by omega)]
  simp only [Bool.and_eq_false_imp, decide_eq_true_eq]
  omega

theorem moveByte_bits (register : UInt32) {held : Nat} (enough : 8 ≤ held) (fits : held ≤ 32) :
    Bits.ofNat 8 ((register >>> 24).toUInt8).toNat ++
        Bits.ofNat (held - 8) ((register <<< 8).toNat >>> (32 - (held - 8))) =
      Bits.ofNat held (register.toNat >>> (32 - held)) := by
  obtain ⟨rest, rfl⟩ := Nat.exists_eq_add_of_le enough
  rw [Bits.ofNat_add, Nat.add_sub_cancel_left]
  congr 1
  · have amount : 32 - (8 + rest) + rest = 24 := by omega
    rw [← Nat.shiftRight_add, amount, UInt32.toNat_toUInt8, UInt32.toNat_shiftRight]
    exact Bits.ofNat_mod 8 _
  · apply Bits.ofNat_congr
    intro place below
    rw [Nat.testBit_shiftRight, Nat.testBit_shiftRight, UInt32.toNat_shiftLeft,
      Nat.testBit_mod_two_pow, Nat.testBit_shiftLeft]
    have reached : 8 ≤ 32 - rest + place := by omega
    have inside : 32 - rest + place < 32 := by omega
    have same : 32 - rest + place - 8 = 32 - (8 + rest) + place := by omega
    simp [reached, inside, same]

theorem moveBytes_sink (count : Nat) (writer : BitWriter) :
    (moveBytes count writer).sink = writer.sink := by
  induction count generalizing writer with
  | zero => rfl
  | succ count ih => exact ih _

theorem moveBytes_held (count : Nat) (writer : BitWriter) :
    (moveBytes count writer).held = writer.held - 8 * count := by
  induction count generalizing writer with
  | zero => rfl
  | succ count ih =>
    rw [moveBytes, ih]
    simp only
    omega

theorem moveBytes_bits (count : Nat) (writer : BitWriter) (enough : 8 * count ≤ writer.held)
    (fits : writer.held ≤ 32) :
    Bits.ofBytes (moveBytes count writer).ready.toList ++ (moveBytes count writer).partialBits =
      Bits.ofBytes writer.ready.toList ++ writer.partialBits := by
  induction count generalizing writer with
  | zero => rfl
  | succ count ih =>
    rw [moveBytes, ih _ (by simp only; omega) (by simp only; omega)]
    simp only [Array.toList_push, Bits.ofBytes_append, List.append_assoc]
    congr 1
    have several : 8 ≤ writer.held := by omega
    have moved := moveByte_bits writer.register several fits
    simpa [Bits.ofBytes, partialBits] using moved

theorem moveBytes_clear (count : Nat) (writer : BitWriter) (enough : 8 * count ≤ writer.held)
    (fits : writer.held ≤ 32)
    (clear : writer.register.toNat % 2 ^ (32 - writer.held) = 0) :
    (moveBytes count writer).register.toNat % 2 ^ (32 - (moveBytes count writer).held) = 0 := by
  induction count generalizing writer with
  | zero => exact clear
  | succ count ih =>
    apply ih
    · simp only
      omega
    · simp only
      omega
    · simp only
      apply mod_eq_zero_of_testBit
      intro place below
      rw [UInt32.toNat_shiftLeft, Nat.testBit_mod_two_pow, Nat.testBit_shiftLeft]
      simp only [UInt32.reduceToNat, Nat.reduceMod, ge_iff_le, Bool.and_eq_false_imp,
        decide_eq_true_eq]
      intro inside reached
      have bit := Nat.testBit_mod_two_pow writer.register.toNat (32 - writer.held) (place - 8)
      have within : place - 8 < 32 - writer.held := by omega
      rw [clear] at bit
      simpa [within] using bit.symm

/-- The writer when a field was loaded and the bytes it completes were moved. -/
def packed (writer : BitWriter) (field : Field) : BitWriter :=
  moveBytes ((writer.load field).held / 8) (writer.load field)

theorem packed_sink (writer : BitWriter) (field : Field) :
    (writer.packed field).sink = writer.sink := moveBytes_sink _ _

theorem packed_tidy {writer : BitWriter} (tidy : writer.Tidy) {field : Field}
    (narrow : field.width ≤ Field.widest) : (writer.packed field).Tidy := by
  have held := tidy.held_lt
  have narrow' : field.width ≤ 24 := narrow
  have loaded : (writer.load field).held = writer.held + field.width := rfl
  constructor
  · rw [packed, moveBytes_held]
    omega
  · exact moveBytes_clear _ _ (by omega) (by omega) (load_clear tidy narrow)

theorem packed_bits {writer : BitWriter} (tidy : writer.Tidy) {field : Field}
    (narrow : field.width ≤ Field.widest) :
    Bits.ofBytes (writer.packed field).ready.toList ++ (writer.packed field).partialBits =
      Bits.ofBytes writer.ready.toList ++ writer.partialBits ++ field.bits := by
  have held := tidy.held_lt
  have narrow' : field.width ≤ 24 := narrow
  have loaded : (writer.load field).held = writer.held + field.width := rfl
  rw [packed, moveBytes_bits _ _ (by omega) (by omega), load_partialBits tidy narrow,
    List.append_assoc]
  rfl

theorem packed_stream {writer : BitWriter} (tidy : writer.Tidy) {field : Field}
    (narrow : field.width ≤ Field.widest) :
    (writer.packed field).stream = writer.stream ++ field.bits := by
  rw [stream, stream, packed_sink, Bits.ofBytes_append, Bits.ofBytes_append, List.append_assoc,
    packed_bits tidy narrow]
  simp only [List.append_assoc]

theorem put_eq {writer : BitWriter} {field : Field} (narrow : field.width ≤ Field.widest) :
    put field writer =
      if field.width = 0 then .ok () writer
      else if releaseSize ≤ (writer.packed field).ready.size then release (writer.packed field)
      else .ok () (writer.packed field) := by
  rw [put, if_neg (Nat.not_lt.mpr narrow)]
  rfl

end BitWriter

end BlockSort
