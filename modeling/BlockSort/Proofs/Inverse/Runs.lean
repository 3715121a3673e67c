import BlockSort.Proofs.Decoder
import BlockSort.Run
import Mathlib

namespace BlockSort

namespace Run

/-- A run can be followed by another: a longer run of the same byte would have taken both. -/
def Before (first second : Run) : Prop := first.byte = second.byte → first.length = longest

/-- Runs as they arise from a byte string. -/
structure Proper (runs : List Run) : Prop where
  positive : ∀ run ∈ runs, 0 < run.length
  apart : runs.IsChain Before

theorem Proper.nil : Proper [] := ⟨by simp, .nil⟩

theorem Proper.part {runs part : List Run} (proper : Proper runs) (inside : part <:+: runs) :
    Proper part :=
  ⟨fun run member => proper.positive run (inside.subset member),
    List.IsChain.infix proper.apart inside⟩

theorem Proper.tail {run : Run} {rest : List Run} (proper : Proper (run :: rest)) : Proper rest :=
  proper.part (List.suffix_cons run rest).isInfix

end Run

namespace Decoder

theorem expandRuns_copies (count copies : Nat) (byte : UInt8) (rest : List UInt8)
    (counting : 0 < count) (few : count + copies ≤ 4) :
    expandRuns count byte (List.replicate copies byte ++ rest) =
      (expandRuns (count + copies) byte rest).map (List.replicate copies byte ++ ·) := by
  induction copies generalizing count with
  | zero => simp
  | succ copies ih =>
    rw [List.replicate_succ, List.cons_append, expandRuns, if_neg (by omega),
      if_pos ⟨by omega, rfl⟩, ih (count + 1) (by omega) (by omega), Option.map_map, Nat.add_assoc,
      Nat.add_comm 1]
    rfl

theorem expandRuns_begin (count copies : Nat) (previous byte : UInt8) (rest : List UInt8)
    (free : count < 4) (fresh : count = 0 ∨ byte ≠ previous) (positive : 0 < copies)
    (few : copies ≤ 4) :
    expandRuns count previous (List.replicate copies byte ++ rest) =
      (expandRuns copies byte rest).map (List.replicate copies byte ++ ·) := by
  obtain ⟨copies, rfl⟩ := Nat.exists_eq_succ_of_ne_zero (Nat.ne_of_gt positive)
  have different : ¬ (count ≠ 0 ∧ byte = previous) := fun ⟨counted, same⟩ =>
    fresh.elim counted fun apart => apart same
  rw [List.replicate_succ, List.cons_append, expandRuns, if_neg (by omega), if_neg different,
    expandRuns_copies 1 copies byte rest (by omega) (by omega), Option.map_map, Nat.add_comm 1]
  rfl

/-- A run is read back, and what follows is read as from the count that it leaves. -/
theorem expandRuns_run (count : Nat) (previous : UInt8) (run : Run) (rest : List UInt8)
    (free : count < 4) (fresh : count = 0 ∨ run.byte ≠ previous) (positive : 0 < run.length) :
    expandRuns count previous (run.encode ++ rest) =
      (expandRuns (if run.length < 4 then run.length.toNat else 0) run.byte rest).map
        (run.expand ++ ·) := by
  rw [Run.encode, Run.expand]
  have nonzero : 0 < run.length.toNat := UInt8.lt_iff_toNat_lt.mp positive
  by_cases short : run.length < 4
  · have few : run.length.toNat < 4 := UInt8.lt_iff_toNat_lt.mp short
    rw [if_pos short, if_pos short, expandRuns_begin _ _ _ _ _ free fresh nonzero (by omega)]
  · have many : 4 ≤ run.length.toNat := UInt8.le_iff_toNat_le.mp (UInt8.not_lt.mp short)
    have excess : (run.length - 4).toNat = run.length.toNat - 4 :=
      UInt8.toNat_sub_of_le _ _ (UInt8.not_lt.mp short)
    rw [if_neg short, if_neg short, List.append_assoc,
      expandRuns_begin _ 4 _ _ _ free fresh (by omega) (by omega), List.singleton_append,
      expandRuns, if_pos rfl, Option.map_map, excess]
    congr 1
    funext bytes
    simp only [Function.comp_apply, ← List.append_assoc, List.replicate_append_replicate]
    rw [Nat.add_sub_cancel' many]

theorem expandRuns_encode (count : Nat) (previous : UInt8) (runs : List Run) (free : count < 4)
    (fresh : ∀ run ∈ runs.head?, count = 0 ∨ run.byte ≠ previous) (proper : Run.Proper runs) :
    expandRuns count previous (runs.flatMap Run.encode) = some (runs.flatMap Run.expand) := by
  induction runs generalizing count previous with
  | nil =>
    rw [List.flatMap_nil, expandRuns, if_neg (by omega)]
    rfl
  | cons run rest ih =>
    have positive := proper.positive run List.mem_cons_self
    rw [List.flatMap_cons, expandRuns_run _ _ _ _ free (fresh run (by simp)) positive,
      ih _ _ ?_ ?_ proper.tail, Option.map_some, List.flatMap_cons]
    · split
      · rename_i short
        exact UInt8.lt_iff_toNat_lt.mp short
      · exact Nat.zero_lt_succ 3
    · intro next member
      split
      · rename_i short
        refine .inr fun same => ?_
        have longest : run.length = Run.longest := by
          cases rest with
          | nil => simp at member
          | cons other others =>
            simp only [List.head?_cons, Option.mem_def, Option.some.injEq] at member
            exact (List.isChain_cons_cons.mp proper.apart).1 (member ▸ same.symm)
        rw [longest] at short
        exact absurd short (by decide)
      · exact .inl rfl

end Decoder

/-- A reader that counts no byte yet regains the bytes of runs that can be told apart. -/
theorem Run.Proper.expandRuns {runs : List Run} (proper : Proper runs) :
    Decoder.expandRuns 0 0 (runs.flatMap encode) = some (runs.flatMap expand) :=
  Decoder.expandRuns_encode 0 0 runs (by decide) (fun _ _ => .inl rfl) proper

end BlockSort
