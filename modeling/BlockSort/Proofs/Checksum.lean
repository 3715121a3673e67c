import BlockSort.Crc
import BlockSort.Proofs.Decoder
import Mathlib

/-!
The checksum by table agrees with the checksum bit by bit. One bit acts linearly on the register
and the bit together, so the bits of a byte come down to shifts of the register and an entry of the
table.
-/
namespace BlockSort

namespace Decoder

theorem crcStep_eq (register : UInt32) (bit : Bool) :
    crcStep register bit =
      (register <<< 1) ^^^ (if register.toBitVec.msb != bit then 0x04C11DB7 else 0) := by
  have leading : decide (0x80000000 ≤ register) = register.toBitVec.msb := by
    rw [BitVec.msb_eq_decide]
    exact decide_eq_decide.mpr UInt32.le_iff_toNat_le
  rw [crcStep, leading]
  split
  · rfl
  · rw [UInt32.xor_zero]

theorem crcStep_xor (first second : UInt32) (one other : Bool) :
    crcStep (first ^^^ second) (one ^^ other) = crcStep first one ^^^ crcStep second other := by
  simp only [crcStep_eq, UInt32.toBitVec_xor, BitVec.msb_xor, UInt32.shiftLeft_xor]
  generalize first.toBitVec.msb = leading
  generalize second.toBitVec.msb = trailing
  generalize first <<< 1 = left
  generalize second <<< 1 = right
  have swap (mask : UInt32) : left ^^^ right ^^^ mask = left ^^^ mask ^^^ right := by
    rw [UInt32.xor_assoc, UInt32.xor_comm right, ← UInt32.xor_assoc]
  have cancel (mask : UInt32) : left ^^^ mask ^^^ (right ^^^ mask) = left ^^^ right := by
    rw [← UInt32.xor_assoc, ← swap, UInt32.xor_assoc, UInt32.xor_self, UInt32.xor_zero]
  cases leading <;> cases trailing <;> cases one <;> cases other <;>
    simp [← swap, cancel, ← UInt32.xor_assoc]

/-- A register after a number of zero bits. -/
def shifts (count : Nat) (register : UInt32) : UInt32 :=
  (List.replicate count false).foldl crcStep register

theorem shifts_succ (count : Nat) (register : UInt32) :
    shifts (count + 1) register = crcStep (shifts count register) false := by
  rw [shifts, List.replicate_succ', List.foldl_append]
  rfl

theorem foldl_crcStep_xor (bits : List Bool) (first second : UInt32) :
    bits.foldl crcStep (first ^^^ second) =
      shifts bits.length first ^^^ bits.foldl crcStep second := by
  induction bits generalizing first second with
  | nil => rfl
  | cons bit rest ih =>
    have step := crcStep_xor first second false bit
    rw [Bool.false_xor] at step
    rw [List.foldl_cons, step, ih]
    rfl

theorem shifts_xor (count : Nat) (first second : UInt32) :
    shifts count (first ^^^ second) = shifts count first ^^^ shifts count second := by
  have separate := foldl_crcStep_xor (List.replicate count false) first second
  rwa [List.length_replicate] at separate

theorem toNat_shifts {register : UInt32} (low : register.toNat < 2 ^ 24) {count : Nat}
    (few : count ≤ 8) : (shifts count register).toNat = register.toNat * 2 ^ count := by
  induction count with
  | zero => simp [shifts]
  | succ count ih =>
    have value := ih (by omega)
    have bound : register.toNat * 2 ^ count < 2 ^ 24 * 2 ^ 7 :=
      Nat.mul_lt_mul_of_lt_of_le low (Nat.pow_le_pow_right (by decide) (by omega)) (by decide)
    have unset : (shifts count register).toBitVec.msb = false := by
      rw [BitVec.msb_eq_decide, decide_eq_false_iff_not, Nat.not_le]
      exact value.trans_lt bound
    have step : crcStep (shifts count register) false = shifts count register <<< 1 := by
      rw [crcStep_eq, unset]
      exact UInt32.xor_zero
    have doubled : register.toNat * 2 ^ (count + 1) = register.toNat * 2 ^ count * 2 := by
      rw [Nat.pow_succ, Nat.mul_assoc]
    rw [shifts_succ, step, UInt32.toNat_shiftLeft, value, Nat.shiftLeft_eq, doubled]
    simp only [UInt32.reduceToNat, Nat.reduceMod, Nat.pow_one]
    omega

end Decoder

namespace Crc

theorem shift_eq (register : UInt32) : shift register = Decoder.crcStep register false := by
  have leading : register &&& 0x80000000 ≠ 0 ↔ register.toBitVec.msb = true := by
    have bit : register.toBitVec.msb = register.toNat.testBit 31 :=
      BitVec.msb_eq_getLsbD_last _
    have value : (register &&& 0x80000000).toNat = (register.toNat.testBit 31).toNat * 2 ^ 31 := by
      rw [← Nat.and_two_pow]
      exact UInt32.toNat_and _ _
    rw [bit, ne_eq, ← UInt32.toNat_inj, value]
    cases register.toNat.testBit 31 <;> decide
  rw [shift, Decoder.crcStep_eq]
  by_cases set : register.toBitVec.msb = true
  · rw [if_pos (leading.mpr set), set]
    rfl
  · rw [if_neg (mt leading.mp set), Bool.eq_false_iff.mpr set]
    exact UInt32.xor_zero.symm

theorem repeat_shift (count : Nat) (register : UInt32) :
    Nat.repeat shift count register = Decoder.shifts count register := by
  induction count with
  | zero => rfl
  | succ count ih => rw [Nat.repeat, ih, shift_eq, Decoder.shifts_succ]

theorem table_get (byte : UInt8) (bound : byte.toNat < 256) :
    table[byte.toNat] = Decoder.shifts 8 (byte.toUInt32 <<< 24) := by
  rw [← repeat_shift]
  simp only [table, Vector.getElem_ofFn, UInt32.ofNat_uInt8ToNat]

/-- The bits of a byte act on an empty register as the byte at its top. -/
theorem byte_bits (byte : UInt8) :
    (Bits.ofNat 8 byte.toNat).foldl Decoder.crcStep 0 =
      Decoder.shifts 8 (byte.toUInt32 <<< 24) := by
  have every : ∀ value < 256, (Bits.ofNat 8 value).foldl Decoder.crcStep 0 =
      Decoder.shifts 8 ((UInt8.ofNat value).toUInt32 <<< 24) := by decide +kernel
  simpa using every byte.toNat byte.toNat_lt

/-- The low bits of a register. -/
def low (register : UInt32) : UInt32 := register &&& UInt32.ofNat (2 ^ 24 - 1)

/-- The byte at the top of a register. -/
def top (register : UInt32) : UInt8 := (register >>> 24).toUInt8

theorem toNat_low (register : UInt32) : (low register).toNat = register.toNat % 2 ^ 24 := by
  rw [← Nat.and_two_pow_sub_one_eq_mod]
  exact UInt32.toNat_and _ _

theorem toNat_top (register : UInt32) :
    ((top register).toUInt32 <<< 24).toNat = register.toNat / 2 ^ 24 * 2 ^ 24 := by
  have bound := register.toNat_lt
  rw [top, UInt32.toNat_shiftLeft, UInt8.toNat_toUInt32, UInt32.toNat_toUInt8,
    UInt32.toNat_shiftRight, Nat.shiftLeft_eq, Nat.shiftRight_eq_div_pow]
  simp only [UInt32.reduceToNat, Nat.reduceMod]
  omega

/-- A register is made of its low bits and its top byte. -/
theorem low_xor_top (register : UInt32) :
    low register ^^^ ((top register).toUInt32 <<< 24) = register := by
  apply UInt32.toNat_inj.mp
  rw [UInt32.toNat_xor, toNat_low, toNat_top]
  apply Nat.eq_of_testBit_eq
  intro place
  rw [Nat.testBit_xor, Nat.testBit_mod_two_pow, Nat.testBit_mul_two_pow, Nat.testBit_div_two_pow]
  by_cases inside : place < 24
  · simp [inside, Nat.not_le.mpr inside]
  · simp [inside, Nat.not_lt.mp inside]

theorem shifts_low (register : UInt32) : Decoder.shifts 8 (low register) = register <<< 8 := by
  have below : (low register).toNat < 2 ^ 24 := by
    rw [toNat_low]
    exact Nat.mod_lt _ (by decide)
  apply UInt32.toNat_inj.mp
  rw [Decoder.toNat_shifts below (Nat.le_refl 8), toNat_low, UInt32.toNat_shiftLeft,
    Nat.shiftLeft_eq]
  simp only [UInt32.reduceToNat, Nat.reduceMod]
  omega

theorem push_eq (crc : Crc) (byte : UInt8) :
    (crc.push byte).register =
      (Bits.ofNat 8 byte.toNat).foldl Decoder.crcStep crc.register := by
  obtain ⟨register⟩ := crc
  have bits := Decoder.foldl_crcStep_xor (Bits.ofNat 8 byte.toNat) register 0
  have shifted : Decoder.shifts 8 register =
      (register <<< 8) ^^^ Decoder.shifts 8 ((top register).toUInt32 <<< 24) := by
    rw [← shifts_low, ← Decoder.shifts_xor, low_xor_top]
  rw [UInt32.xor_zero, byte_bits, Bits.length_ofNat, shifted, UInt32.xor_assoc,
    ← Decoder.shifts_xor, ← UInt32.shiftLeft_xor, ← UInt8.toUInt32_xor] at bits
  rw [bits, push]
  simp only [table_get, top]

theorem pushAll_append (crc : Crc) (first second : List UInt8) :
    crc.pushAll (first ++ second) = (crc.pushAll first).pushAll second := List.foldl_append

theorem pushCopies_eq (crc : Crc) (byte : UInt8) (count : Nat) :
    crc.pushCopies byte count = crc.pushAll (List.replicate count byte) := by
  induction count with
  | zero => rfl
  | succ count ih =>
    rw [List.replicate_succ', pushAll_append, ← ih]
    rfl

theorem pushAll_eq (crc : Crc) (bytes : List UInt8) :
    (crc.pushAll bytes).register = (Bits.ofBytes bytes).foldl Decoder.crcStep crc.register := by
  induction bytes generalizing crc with
  | nil => rfl
  | cons byte rest ih =>
    rw [pushAll, List.foldl_cons]
    refine (ih (crc.push byte)).trans ?_
    rw [push_eq, Bits.ofBytes, Bits.ofBytes, List.flatMap_cons, List.foldl_append]

end Crc

namespace Decoder

theorem crc_eq (bytes : List UInt8) : crc bytes = (Crc.ofBytes bytes).toNat := by
  rw [crc, Crc.ofBytes, Crc.value, Crc.pushAll_eq]

theorem combine_eq (combined block : UInt32) :
    combine combined.toNat block.toNat = (Crc.chain combined block).toNat := by
  have bound := combined.toNat_lt
  have leading : (combined >>> 31).toNat = combined.toNat / 2 ^ 31 := by
    rw [UInt32.toNat_shiftRight, Nat.shiftRight_eq_div_pow]
    rfl
  have single : (combined >>> 31).toNat < 2 := by omega
  have rotated : 2 * combined.toNat % 2 ^ 32 + combined.toNat / 2 ^ 31 =
      (2 * combined.toNat + combined.toNat / 2 ^ 31) % 2 ^ 32 := by omega
  rw [combine, Crc.chain, UInt32.toNat_xor, Bits.toNat_shiftIn combined single, leading, rotated]

end Decoder

end BlockSort
