import BlockSort.Rotation.Comparer
import Mathlib

namespace BlockSort.Text

variable {n : Nat} [Occupied n] {text : Text n} {p q depth : Nat}

theorem byteAt_of_lt (text : Text n) {i : Nat} (inside : i < n) : text.byteAt i = text[i] := by
  rw [byteAt, dif_pos inside]

theorem byteAt_fin (text : Text n) (position : Fin n) : text.byteAt position = text.get position :=
  byteAt_of_lt text position.isLt

theorem byteAt_mod (text : Text n) (i : Nat) : text.byteAt (i % n) = text.byteAt i := by
  have bound := Nat.mod_lt i (Occupied.positive : 0 < n)
  by_cases inside : i < n
  · rw [Nat.mod_eq_of_lt inside]
  · rw [byteAt_of_lt text bound, byteAt, dif_neg inside]

theorem byteAt_congr (text : Text n) {i j : Nat} (same : i ≡ j [MOD n]) :
    text.byteAt i = text.byteAt j := by
  rw [← byteAt_mod text i, same, byteAt_mod]

/-- The word that a rotation spells. -/
def word (text : Text n) (position : Nat) : Lex (Nat → Nat) :=
  toLex fun distance => (text.byteAt (position + distance)).toNat

theorem word_congr (text : Text n) {i j : Nat} (same : i ≡ j [MOD n]) :
    text.word i = text.word j := by
  apply congrArg toLex
  funext distance
  rw [byteAt_congr text (same.add_right distance)]

theorem byteAt_eq_of_word (same : text.word p = text.word q) (distance : Nat) :
    text.byteAt (p + distance) = text.byteAt (q + distance) :=
  UInt8.toNat_inj.mp (congrFun (congrArg ofLex same) distance)

/-- Two rotations start with the same bytes. -/
def Agree (text : Text n) (depth p q : Nat) : Prop :=
  ∀ distance < depth, text.byteAt (p + distance) = text.byteAt (q + distance)

namespace Agree

theorem symm (agree : text.Agree depth p q) : text.Agree depth q p :=
  fun distance near => (agree distance near).symm

theorem join {r : Nat} (one : text.Agree depth p r) (other : text.Agree depth q r) :
    text.Agree depth p q :=
  fun distance near => (one distance near).trans (other distance near).symm

theorem mono {less : Nat} (agree : text.Agree depth p q) (shorter : less ≤ depth) :
    text.Agree less p q :=
  fun distance near => agree distance (Nat.lt_of_lt_of_le near shorter)

theorem succ (agree : text.Agree depth p q)
    (same : text.byteAt (p + depth) = text.byteAt (q + depth)) :
    text.Agree (depth + 1) p q := by
  intro distance near
  rcases Nat.lt_or_eq_of_le (Nat.le_of_lt_succ near) with nearer | rfl
  · exact agree distance nearer
  · exact same

theorem word_eq (agree : text.Agree n p q) : text.word p = text.word q := by
  apply congrArg toLex
  funext distance
  have near := Nat.mod_lt distance (Occupied.positive : 0 < n)
  rw [byteAt_congr text ((Nat.mod_modEq distance n).symm.add_left p),
    byteAt_congr text ((Nat.mod_modEq distance n).symm.add_left q), agree _ near]

/-- The first byte in which two rotations differ decides their order. -/
theorem word_lt (agree : text.Agree depth p q)
    (less : text.byteAt (p + depth) < text.byteAt (q + depth)) : text.word p < text.word q :=
  ⟨depth, fun distance near => congrArg UInt8.toNat (agree distance near),
    UInt8.lt_iff_toNat_lt.mp less⟩

/-- Bytes on which two rotations agree do not matter for their order. -/
theorem word_lt_iff (agree : text.Agree depth p q) :
    text.word p < text.word q ↔ text.word (p + depth) < text.word (q + depth) := by
  constructor
  · rintro ⟨distance, same, less⟩
    have far : depth ≤ distance := by
      by_contra near
      have equal := congrArg UInt8.toNat (agree distance (by omega))
      exact absurd equal (Nat.ne_of_lt less)
    refine ⟨distance - depth, fun other near => ?_, ?_⟩
    · have equal := same (depth + other) (by omega)
      simpa only [word, Pi.toLex_apply, Nat.add_assoc] using equal
    · simpa only [word, Pi.toLex_apply, Nat.add_assoc, Nat.add_sub_cancel' far] using less
  · rintro ⟨distance, same, less⟩
    refine ⟨depth + distance, fun other near => ?_, ?_⟩
    · by_cases close : other < depth
      · exact congrArg UInt8.toNat (agree other close)
      · have equal := same (other - depth) (by omega)
        simpa only [word, Pi.toLex_apply, Nat.add_assoc, Nat.add_sub_cancel' (not_lt.mp close)]
          using equal
    · simpa only [word, Pi.toLex_apply, Nat.add_assoc] using less

theorem word_le_iff (agree : text.Agree depth p q) :
    text.word p ≤ text.word q ↔ text.word (p + depth) ≤ text.word (q + depth) := by
  rw [← not_lt, ← not_lt]
  exact not_congr agree.symm.word_lt_iff

end Agree

theorem agree_zero (text : Text n) (p q : Nat) : text.Agree 0 p q :=
  fun _ near => absurd near (Nat.not_lt_zero _)

/-- Among rotations with the same first byte, the order is that of the rotations one byte on. -/
theorem word_le_iff_succ (same : text.byteAt p = text.byteAt q) :
    text.word p ≤ text.word q ↔ text.word (p + 1) ≤ text.word (q + 1) :=
  ((agree_zero text p q).succ same).word_le_iff

theorem word_lt_of_byteAt_lt (less : text.byteAt p < text.byteAt q) :
    text.word p < text.word q := (agree_zero text p q).word_lt less

omit [Occupied n] in
theorem before_add_one (position : Fin n) : (before position).val + 1 ≡ position.val [MOD n] := by
  obtain ⟨value, bound⟩ := position
  cases value with
  | zero => simp [before, Nat.sub_add_cancel bound, Nat.ModEq]
  | succ value => rfl

theorem word_before_add_one (text : Text n) (position : Fin n) :
    text.word ((before position).val + 1) = text.word position :=
  word_congr text (before_add_one position)

end BlockSort.Text
