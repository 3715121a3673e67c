import BlockSort.Proofs.Checksum

/-!
What a checksum detects. Bytes never merge two registers, since the polynomial is odd. A difference
of at most as many bits as a register has is a difference of the register itself, as bits that come
in count like those that are still to leave.
-/
namespace BlockSort

namespace Decoder

/-- The lowest bit tells which bit has left the register. -/
theorem eq_zero_of_crcStep {register : UInt32} (zero : crcStep register false = 0) :
    register = 0 := by
  rw [crcStep_eq, Bool.bne_false] at zero
  have unset : register.toBitVec.msb = false := by
    by_contra set
    rw [Bool.not_eq_false] at set
    rw [set, if_pos rfl] at zero
    have lowest := congrArg (fun word : UInt32 => word.toBitVec.getLsbD 0) zero
    simp at lowest
  rw [unset, if_neg Bool.false_ne_true, UInt32.xor_zero] at zero
  have small : register.toNat < 2 ^ 31 := by
    rw [BitVec.msb_eq_decide, decide_eq_false_iff_not, Nat.not_le] at unset
    exact unset
  have doubled := congrArg UInt32.toNat zero
  rw [UInt32.toNat_shiftLeft, Nat.shiftLeft_eq] at doubled
  simp only [UInt32.reduceToNat, Nat.reduceMod, Nat.pow_one] at doubled
  apply UInt32.toNat_inj.mp
  rw [UInt32.toNat_zero]
  omega

theorem shifts_zero (count : Nat) : shifts count 0 = 0 := by
  induction count with
  | zero => rfl
  | succ count ih =>
    rw [shifts_succ, ih]
    rfl

theorem eq_zero_of_shifts {count : Nat} {register : UInt32} (zero : shifts count register = 0) :
    register = 0 := by
  induction count with
  | zero => exact zero
  | succ count ih =>
    rw [shifts_succ] at zero
    exact ih (eq_zero_of_crcStep zero)

/-- Where the bits of two strings differ. -/
def difference (one other : List Bool) : List Bool := List.zipWith xor one other

/-- Registers that take different bits differ as one that takes the difference. -/
theorem foldl_difference {one other : List Bool} (length : one.length = other.length)
    (first second : UInt32) :
    (difference one other).foldl crcStep (first ^^^ second) =
      one.foldl crcStep first ^^^ other.foldl crcStep second := by
  induction one generalizing other first second with
  | nil =>
    rw [List.length_nil, eq_comm, List.length_eq_zero_iff] at length
    rw [length]
    rfl
  | cons bit rest ih =>
    obtain ⟨twin, others, rfl⟩ := List.exists_cons_of_length_eq_add_one length.symm
    have step := ih (Nat.succ.inj length) (crcStep first bit) (crcStep second twin)
    rw [← crcStep_xor] at step
    exact step

theorem difference_self (bits : List Bool) :
    difference bits bits = List.replicate bits.length false := by
  induction bits with
  | nil => rfl
  | cons bit rest ih =>
    rw [difference, List.zipWith_cons_cons, Bool.xor_self, ← difference, ih]
    rfl

theorem foldl_crcStep_injective (bits : List Bool) :
    Function.Injective fun register => bits.foldl crcStep register := by
  intro one other same
  have apart := foldl_difference (rfl : bits.length = bits.length) one other
  rw [difference_self] at apart
  have zero : shifts bits.length (one ^^^ other) = 0 := by
    rw [shifts, apart]
    exact UInt32.xor_eq_zero_iff.mpr same
  exact UInt32.xor_eq_zero_iff.mp (eq_zero_of_shifts zero)

/-- Bits at the top of a register. -/
def leading (bits : List Bool) : UInt32 :=
  UInt32.ofNat (Bits.toNat bits * 2 ^ (32 - bits.length))

theorem toNat_leading {bits : List Bool} (short : bits.length ≤ 32) :
    (leading bits).toNat = Bits.toNat bits * 2 ^ (32 - bits.length) := by
  have bound :=
    Nat.mul_lt_mul_of_pos_right (Bits.toNat_lt bits) (Nat.two_pow_pos (32 - bits.length))
  rw [← Nat.pow_add, Nat.add_sub_cancel' short] at bound
  rw [leading, UInt32.toNat_ofNat', Nat.mod_eq_of_lt bound]

/-- A bit at the top of the register leaves it as a bit that is taken. -/
theorem crcStep_leading {bit : Bool} {rest : List Bool} (short : rest.length < 32) :
    crcStep (leading (bit :: rest)) false = leading rest ^^^ crcStep 0 bit := by
  have value := @toNat_leading (bit :: rest) (Nat.succ_le_of_lt short)
  have scale : 2 ^ rest.length * 2 ^ (31 - rest.length) = 2 ^ 31 := by
    rw [← Nat.pow_add, Nat.add_sub_cancel' (Nat.le_of_lt_succ short)]
  have split : (leading (bit :: rest)).toNat =
      bit.toNat * 2 ^ 31 + Bits.toNat rest * 2 ^ (31 - rest.length) := by
    have width : 32 - (rest.length + 1) = 31 - rest.length := Nat.add_sub_add_right 31 1 _
    rw [value, Bits.toNat_cons, List.length_cons, width, Nat.add_mul, Nat.mul_assoc, scale]
  have below : Bits.toNat rest * 2 ^ (31 - rest.length) < 2 ^ 31 := by
    rw [← scale]
    exact Nat.mul_lt_mul_of_pos_right (Bits.toNat_lt rest) (Nat.two_pow_pos _)
  have first : (leading (bit :: rest)).toBitVec.msb = bit := by
    rw [BitVec.msb_eq_decide]
    change decide (2 ^ 31 ≤ (leading (bit :: rest)).toNat) = bit
    rw [split]
    cases bit
    · simpa using below
    · simp
  have others : leading (bit :: rest) <<< 1 = leading rest := by
    have double : 2 ^ (32 - rest.length) = 2 ^ (31 - rest.length) * 2 := by
      rw [← Nat.pow_succ, Nat.succ_eq_add_one, ← Nat.sub_add_comm (Nat.le_of_lt_succ short)]
    apply UInt32.toNat_inj.mp
    rw [UInt32.toNat_shiftLeft, Nat.shiftLeft_eq, split, toNat_leading (Nat.le_of_lt short), double,
      ← Nat.mul_assoc]
    have single := Bool.toNat_le bit
    simp only [UInt32.reduceToNat, Nat.reduceMod, Nat.pow_one]
    omega
  rw [crcStep_eq, first, others, Bool.bne_false, crcStep_eq]
  simp

/-- As long as the register can hold them, bits act like a register that begins with them. -/
theorem foldl_leading {bits : List Bool} (short : bits.length ≤ 32) :
    bits.foldl crcStep 0 = shifts bits.length (leading bits) := by
  induction bits with
  | nil => rfl
  | cons bit rest ih =>
    have first : shifts (rest.length + 1) (leading (bit :: rest)) =
        shifts rest.length (crcStep (leading (bit :: rest)) false) := rfl
    have taken := foldl_crcStep_xor rest (crcStep 0 bit) 0
    rw [UInt32.xor_zero] at taken
    rw [List.length_cons, first, crcStep_leading short, shifts_xor, ← ih (Nat.le_of_lt short),
      List.foldl_cons, taken, UInt32.xor_comm]

theorem eq_zeros_of_foldl {bits : List Bool} (short : bits.length ≤ 32)
    (zero : bits.foldl crcStep 0 = 0) : bits = List.replicate bits.length false := by
  rw [foldl_leading short] at zero
  have empty := congrArg UInt32.toNat (eq_zero_of_shifts zero)
  rw [toNat_leading short, UInt32.toNat_zero, Nat.mul_eq_zero] at empty
  have value := empty.resolve_right (Nat.two_pow_pos _).ne'
  rw [← Bits.ofNat_zero, ← value, Bits.ofNat_toNat]

theorem eq_zeros_of_unset {bits : List Bool} (unset : ∀ place : Nat, bits[place]? ≠ some true) :
    bits = List.replicate bits.length false := by
  apply List.eq_replicate_of_mem
  intro bit member
  obtain ⟨place, found⟩ := List.mem_iff_getElem?.mp member
  cases bit with
  | false => rfl
  | true => exact absurd found (unset place)

/-- No bits but zeros lead from zero to zero, if those that are set lie as close together. -/
theorem eq_zeros_of_window {bits : List Bool} (start : Nat)
    (inside : ∀ place : Nat, bits[place]? = some true → start ≤ place ∧ place < start + 32)
    (zero : bits.foldl crcStep 0 = 0) : bits = List.replicate bits.length false := by
  -- only the bits of the window act on the register, and those after it shift what they leave
  have before : bits.take start = List.replicate (bits.take start).length false := by
    apply eq_zeros_of_unset
    intro place set
    rw [List.getElem?_take] at set
    split at set
    case isTrue below => exact absurd (inside place set).1 (Nat.not_le.mpr below)
    case isFalse => cases set
  have after : (bits.drop start).drop 32 =
      List.replicate ((bits.drop start).drop 32).length false := by
    apply eq_zeros_of_unset
    intro place set
    rw [List.getElem?_drop, List.getElem?_drop] at set
    have close := (inside _ set).2
    omega
  have parts :
      bits = bits.take start ++ ((bits.drop start).take 32 ++ (bits.drop start).drop 32) := by
    rw [List.take_append_drop, List.take_append_drop]
  have window : ((bits.drop start).take 32).foldl crcStep 0 = 0 := by
    rw [parts, List.foldl_append, List.foldl_append, before, ← shifts, shifts_zero, after,
      ← shifts] at zero
    exact eq_zero_of_shifts zero
  have zeros := eq_zeros_of_foldl (List.length_take_le 32 _) window
  apply List.eq_replicate_of_mem
  intro bit member
  rw [parts, before, zeros, after] at member
  simp only [List.mem_append, List.mem_replicate] at member
  rcases member with ⟨-, same⟩ | ⟨-, same⟩ | ⟨-, same⟩ <;> exact same

theorem difference_get {one other : List Bool} (length : one.length = other.length) (place : Nat) :
    (difference one other)[place]? = some true ↔ one[place]? ≠ other[place]? := by
  rw [difference, List.getElem?_zipWith]
  by_cases bound : place < one.length
  · rw [List.getElem?_eq_getElem bound, List.getElem?_eq_getElem (length ▸ bound)]
    simp
  · rw [List.getElem?_eq_none (Nat.not_lt.mp bound),
      List.getElem?_eq_none (length ▸ Nat.not_lt.mp bound)]
    simp

end Decoder

namespace Crc

instance : Finite UInt32 := Finite.of_injective UInt32.toBitVec fun _ _ => UInt32.toBitVec_inj.mp

/-- Strings of one length whose bits differ somewhere, but only within as many places as a register
has bits, differ in their checksum; and bytes that follow lose nothing of the register. -/
theorem ofBytes_burst :
    (∀ (one other : List UInt8) (start : Nat), one.length = other.length → one ≠ other →
      (∀ place, (Bits.ofBytes one)[place]? ≠ (Bits.ofBytes other)[place]? →
        start ≤ place ∧ place < start + 32) →
      ofBytes one ≠ ofBytes other) ∧
    ∀ suffix : List UInt8,
      Function.Bijective fun register : UInt32 => (pushAll ⟨register⟩ suffix).register := by
  constructor
  · intro one other start length differ inside same
    have lengths : (Bits.ofBytes one).length = (Bits.ofBytes other).length := by
      rw [Bits.length_ofBytes, Bits.length_ofBytes, length]
    have registers := UInt32.not_inj.mp same
    rw [pushAll_eq, pushAll_eq] at registers
    have zero := Decoder.foldl_difference lengths 0xFFFFFFFF 0xFFFFFFFF
    rw [UInt32.xor_self, UInt32.xor_eq_zero_iff.mpr registers] at zero
    have zeros := Decoder.eq_zeros_of_window start
      (fun place set => inside place ((Decoder.difference_get lengths place).mp set)) zero
    apply differ
    apply Bits.ofBytes_injective
    apply List.ext_getElem?
    intro place
    by_contra apart
    have set := (Decoder.difference_get lengths place).mpr apart
    rw [zeros, List.getElem?_replicate] at set
    split at set <;> simp at set
  · intro suffix
    apply Finite.injective_iff_bijective.mp
    intro one other same
    apply Decoder.foldl_crcStep_injective (Bits.ofBytes suffix)
    have merged : (pushAll ⟨one⟩ suffix).register = (pushAll ⟨other⟩ suffix).register := same
    rwa [pushAll_eq, pushAll_eq] at merged

/-- Five bytes with every bit of a window changed that begins and ends inside a byte. -/
theorem ofBytes_burst_inside_bytes :
    ofBytes [0x61, 0x62, 0x63, 0x64, 0x65] ≠ ofBytes [0x66, 0x9D, 0x9C, 0x9B, 0x9D] ∧
      Function.Bijective fun register : UInt32 => (pushAll ⟨register⟩ [0x61, 0xFF]).register := by
  refine ⟨ofBytes_burst.1 _ _ 5 rfl (by decide) ?_, ofBytes_burst.2 _⟩
  have every : ∀ place < 40, (Bits.ofBytes [0x61, 0x62, 0x63, 0x64, 0x65])[place]? ≠
      (Bits.ofBytes [0x66, 0x9D, 0x9C, 0x9B, 0x9D])[place]? → 5 ≤ place ∧ place < 37 := by
    decide
  intro place differ
  by_cases bound : place < 40
  · exact every place bound differ
  · rw [List.getElem?_eq_none, List.getElem?_eq_none] at differ
    · exact absurd rfl differ
    · simpa using Nat.not_lt.mp bound
    · simpa using Nat.not_lt.mp bound

end Crc

end BlockSort
