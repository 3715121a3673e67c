import BlockSort.BitWriter
import Mathlib

namespace BlockSort

namespace Bits

/-- The low `width` bits of a number, highest first. -/
def ofNat : (width value : Nat) → List Bool
  | 0, _ => []
  | width + 1, value => value.testBit width :: ofNat width value

/-- The number that bits spell. -/
def toNat (bits : List Bool) : Nat := bits.foldl (fun value bit => 2 * value + bit.toNat) 0

/-- The bits of bytes in order. -/
def ofBytes (bytes : List UInt8) : List Bool := bytes.flatMap fun byte => ofNat 8 byte.toNat

@[simp]
theorem length_ofNat (width value : Nat) : (ofNat width value).length = width := by
  induction width with
  | zero => rfl
  | succ width ih => simp [ofNat, ih]

theorem ofNat_congr {width first second : Nat}
    (agree : ∀ place < width, first.testBit place = second.testBit place) :
    ofNat width first = ofNat width second := by
  induction width with
  | zero => rfl
  | succ width ih =>
    simp only [ofNat, agree width (Nat.lt_succ_self width),
      ih fun place below => agree place (Nat.lt_succ_of_lt below)]

theorem ofNat_mod (width value : Nat) : ofNat width (value % 2 ^ width) = ofNat width value :=
  ofNat_congr fun place below => by simp [below]

theorem ofNat_add (high low value : Nat) :
    ofNat (high + low) value = ofNat high (value >>> low) ++ ofNat low value := by
  induction high with
  | zero => simp [ofNat]
  | succ high ih =>
    rw [Nat.add_right_comm]
    simp [ofNat, ih, Nat.add_comm low high]

theorem ofNat_zero (width : Nat) : ofNat width 0 = List.replicate width false := by
  induction width with
  | zero => rfl
  | succ width ih => simp [ofNat, ih, List.replicate_succ]

theorem foldl_eq (bits : List Bool) (start : Nat) :
    bits.foldl (fun value bit => 2 * value + bit.toNat) start =
      start * 2 ^ bits.length + toNat bits := by
  induction bits generalizing start with
  | nil => simp [toNat]
  | cons bit rest ih =>
    simp only [toNat, List.foldl_cons, List.length_cons]
    rw [ih, ih (2 * 0 + bit.toNat)]
    ring

theorem toNat_cons (bit : Bool) (rest : List Bool) :
    toNat (bit :: rest) = bit.toNat * 2 ^ rest.length + toNat rest := by
  rw [toNat, List.foldl_cons, foldl_eq]
  simp

theorem toNat_lt (bits : List Bool) : toNat bits < 2 ^ bits.length := by
  induction bits with
  | nil => simp [toNat]
  | cons bit rest ih =>
    rw [toNat_cons, List.length_cons, Nat.pow_succ]
    have := Bool.toNat_le bit
    have := Nat.mul_le_mul_right (2 ^ rest.length) this
    omega

theorem toNat_ofNat (width value : Nat) : toNat (ofNat width value) = value % 2 ^ width := by
  induction width with
  | zero => simp [ofNat, toNat, Nat.mod_one]
  | succ width ih =>
    rw [ofNat, toNat_cons, length_ofNat, ih, Nat.toNat_testBit, Nat.mod_pow_succ, Nat.mul_comm,
      Nat.add_comm]

theorem toNat_ofNat_of_lt {width value : Nat} (fits : value < 2 ^ width) :
    toNat (ofNat width value) = value := by
  rw [toNat_ofNat, Nat.mod_eq_of_lt fits]

theorem ofNat_toNat (bits : List Bool) : ofNat bits.length (toNat bits) = bits := by
  induction bits with
  | nil => rfl
  | cons bit rest ih =>
    have bound := toNat_lt rest
    rw [List.length_cons, ofNat, toNat_cons]
    congr 1
    · rw [Nat.mul_comm, Nat.testBit_two_pow_mul_add _ bound]
      cases bit <;> simp
    · rw [← ofNat_mod, Nat.mul_comm, Nat.mul_add_mod, ofNat_mod, ih]

theorem ofBytes_append (first second : List UInt8) :
    ofBytes (first ++ second) = ofBytes first ++ ofBytes second := List.flatMap_append

@[simp]
theorem length_ofBytes (bytes : List UInt8) : (ofBytes bytes).length = 8 * bytes.length := by
  induction bytes with
  | nil => rfl
  | cons byte rest ih =>
    simp only [ofBytes, List.flatMap_cons, List.length_append, length_ofNat, List.length_cons] at *
    omega

theorem ofBytes_injective {first second : List UInt8}
    (same : ofBytes first = ofBytes second) : first = second := by
  induction first generalizing second with
  | nil =>
    have size := congrArg List.length same
    rw [length_ofBytes, length_ofBytes, List.length_nil] at size
    exact (List.eq_nil_of_length_eq_zero (by omega)).symm
  | cons byte rest ih =>
    cases second with
    | nil =>
      have size := congrArg List.length same
      rw [length_ofBytes, length_ofBytes, List.length_cons, List.length_nil] at size
      omega
    | cons other others =>
      obtain ⟨head, tail⟩ := List.append_inj same (by simp)
      have value := congrArg toNat head
      rw [toNat_ofNat, toNat_ofNat, Nat.mod_eq_of_lt byte.toNat_lt,
        Nat.mod_eq_of_lt other.toNat_lt] at value
      rw [UInt8.toNat_inj.mp value, ih tail]

/-- What a bit makes of a word that it is shifted into. -/
theorem toNat_shiftIn (word : UInt32) {bit : UInt32} (single : bit.toNat < 2) :
    ((word <<< 1) ||| bit).toNat = (2 * word.toNat + bit.toNat) % 2 ^ 32 := by
  -- the highest bit of the word is lost, and the place that the new one takes is free
  have kept : word.toNat * 2 % 2 ^ 32 = 2 * (word.toNat % 2 ^ 31) := by omega
  have apart := Nat.two_pow_add_eq_or_of_lt (i := 1) single (word.toNat % 2 ^ 31)
  rw [UInt32.toNat_or, UInt32.toNat_shiftLeft, Nat.shiftLeft_eq]
  simp only [UInt32.reduceToNat, Nat.reduceMod, Nat.pow_one] at apart ⊢
  rw [kept, ← apart]
  omega

end Bits

namespace Field

/-- What a field adds to the stream. -/
def bits (field : Field) : List Bool := Bits.ofNat field.width field.value.toNat

@[simp]
theorem length_bits (field : Field) : field.bits.length = field.width :=
  Bits.length_ofNat field.width _

end Field

/-- What a list of fields adds to the stream. -/
def fieldBits (fields : List Field) : List Bool := fields.flatMap Field.bits

@[simp]
theorem fieldBits_nil : fieldBits [] = [] := rfl

@[simp]
theorem fieldBits_cons (field : Field) (rest : List Field) :
    fieldBits (field :: rest) = field.bits ++ fieldBits rest := List.flatMap_cons

@[simp]
theorem fieldBits_append (first second : List Field) :
    fieldBits (first ++ second) = fieldBits first ++ fieldBits second := List.flatMap_append

end BlockSort
