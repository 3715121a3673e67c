import BlockSort.Perturbation
import BlockSort.Proofs.Decoder
import Mathlib

/-!
A perturbation in closed form. The clock runs through the table of steps over and over, so the
place of a byte alone decides whether it is flipped, and a second flip undoes the first.
-/
namespace BlockSort

namespace Perturbation

/-- What the clock tells for the next bytes, and where it stands after them. -/
def run : (count : Nat) → Perturbation → List Bool × Perturbation
  | 0, clock => ([], clock)
  | count + 1, clock =>
    ((advance clock).1 :: (run count (advance clock).2).1, (run count (advance clock).2).2)

theorem run_add (first second : Nat) (clock : Perturbation) :
    run (first + second) clock =
      ((run first clock).1 ++ (run second (run first clock).2).1,
        (run second (run first clock).2).2) := by
  induction first generalizing clock with
  | zero => simp [run]
  | succ first ih =>
    rw [Nat.succ_add_eq_add_succ, Nat.add_succ, run, ih, run]
    rfl

@[simp]
theorem length_run (count : Nat) (clock : Perturbation) : (run count clock).1.length = count := by
  induction count generalizing clock with
  | zero => rfl
  | succ count ih => simp [run, ih]

/-- The flips along a step of the table. -/
def stepFlips (step : Nat) : List Bool := List.replicate (step - 2) false ++ [true, false]

/-- The rest of a step: its last byte but one is flipped. -/
theorem run_remaining (remaining : Nat) (next : Fin 512) :
    run (remaining + 2) ⟨remaining + 2, next⟩ = (stepFlips (remaining + 2), ⟨0, next⟩) := by
  induction remaining with
  | zero => rfl
  | succ remaining ih =>
    have later : advance ⟨remaining + 1 + 2, next⟩ = (false, ⟨remaining + 2, next⟩) := by
      simp [advance]
    rw [run, later]
    simp only [ih, stepFlips, Nat.add_sub_cancel, List.replicate_succ, List.cons_append]

theorem two_le_steps : ∀ step ∈ steps.toList, 2 ≤ step := by
  decide +kernel

theorem run_step (next : Fin 512) :
    run steps[next] ⟨0, next⟩ = (stepFlips steps[next], ⟨0, next + 1⟩) := by
  have long : 2 ≤ steps[next] := two_le_steps _ (by simp)
  obtain ⟨remaining, shape⟩ := Nat.exists_eq_add_of_le' long
  have positive : steps[next] ≠ 0 := by omega
  have start : advance ⟨0, next⟩ = advance ⟨steps[next], next + 1⟩ := by
    rw [advance, advance]
    simp only [if_true, if_neg positive]
  have begun : run steps[next] ⟨0, next⟩ = run steps[next] ⟨steps[next], next + 1⟩ := by
    rw [shape] at start ⊢
    rw [run, start]
    rfl
  rw [begun, shape]
  exact run_remaining remaining (next + 1)

/-- The length of a step, counted on and on through the table. -/
def stepAt (turn : Nat) : Nat := steps.get ⟨turn % 512, Nat.mod_lt turn (Nat.succ_pos 511)⟩

theorem two_le_stepAt (turn : Nat) : 2 ≤ stepAt turn :=
  two_le_steps _ (Vector.mem_toList_iff.mpr (Vector.getElem_mem _))

/-- How many bytes a number of steps take. -/
def reach (turns : Nat) : Nat := ((List.range turns).map stepAt).sum

@[simp]
theorem reach_zero : reach 0 = 0 := rfl

@[simp]
theorem reach_succ (turns : Nat) : reach (turns + 1) = reach turns + stepAt turns := by
  simp [reach, List.range_succ]

theorem run_reach (turns : Nat) :
    run (reach turns) {} = ((List.range turns).flatMap fun turn => stepFlips (stepAt turn),
      ⟨0, Fin.ofNat 512 turns⟩) := by
  induction turns with
  | zero => rfl
  | succ turns ih =>
    have next : Fin.ofNat 512 turns + 1 = Fin.ofNat 512 (turns + 1) := by
      ext
      simp [Fin.val_add]
    have step := run_step (Fin.ofNat 512 turns)
    have length : steps[Fin.ofNat 512 turns] = stepAt turns := rfl
    rw [length, next] at step
    rw [reach_succ, run_add, ih, step, List.range_succ, List.flatMap_append,
      List.flatMap_singleton]

private theorem flips_eq : Decoder.flips = (List.range 512).flatMap fun turn =>
    stepFlips (stepAt turn) := by
  have table : steps.toList = (List.range 512).map stepAt := by
    apply List.ext_getElem
    · rw [Vector.length_toList, List.length_map, List.length_range]
    · intro turn bound _
      rw [Vector.length_toList] at bound
      rw [Vector.getElem_toList, List.getElem_map, List.getElem_range, stepAt,
        Vector.get_eq_getElem]
      congr 1
      exact (Nat.mod_eq_of_lt bound).symm
  rw [Decoder.flips, table, List.flatMap_map]
  exact List.flatMap_congr fun _ _ => rfl

/-- One pass through the table ends where it began. -/
theorem run_cycle : run Decoder.flips.length {} = (Decoder.flips, {}) := by
  have whole := run_reach 512
  rw [← flips_eq] at whole
  have length := length_run (reach 512) {}
  rw [whole] at length
  rw [length]
  exact whole

/-- Whether the byte at a place is flipped. -/
def flipAt (place : Nat) : Bool := Decoder.flips.getD (place % Decoder.flips.length) false

theorem run_get (place : Nat) : (run (place + 1) {}).1[place]? = some (flipAt place) := by
  have occupied : 0 < Decoder.flips.length := by
    apply List.length_pos_of_mem (a := true)
    rw [flips_eq]
    exact List.mem_flatMap.mpr ⟨0, by simp, by simp [stepFlips]⟩
  induction place using Nat.strongRecOn with
  | ind place ih =>
    by_cases first : place < Decoder.flips.length
    · have split := run_add (place + 1) (Decoder.flips.length - (place + 1)) {}
      rw [Nat.add_sub_cancel' first, run_cycle, Prod.mk.injEq] at split
      have same := congrArg (·[place]?) split.1
      simp only [flipAt, Nat.mod_eq_of_lt first, List.getD_eq_getElem?_getD,
        List.getElem?_eq_getElem first, Option.getD_some]
      rw [List.getElem?_append_left (by simp), List.getElem?_eq_getElem first] at same
      exact same.symm
    · have split := run_add Decoder.flips.length (place - Decoder.flips.length + 1) {}
      rw [← Nat.add_assoc, Nat.add_sub_cancel' (Nat.not_lt.mp first), run_cycle,
        Prod.mk.injEq] at split
      simp only [split.1]
      rw [List.getElem?_append_right (by omega), ih _ (by omega), flipAt, flipAt,
        ← Nat.mod_eq_sub_mod (by omega)]

/-- Flips bytes in turn. -/
def flipAll : Perturbation → List UInt8 → List UInt8
  | _, [] => []
  | clock, byte :: rest =>
    (if (advance clock).1 then byte ^^^ 1 else byte) :: flipAll (advance clock).2 rest

theorem apply_eq (bytes : Array UInt8) : (apply bytes).toList = flipAll initial bytes.toList := by
  have general (rest : List UInt8) (earlier : Array UInt8) (clock : Perturbation) :
      (rest.foldl (fun (state : Array UInt8 × Perturbation) byte =>
        let step := advance state.2
        (state.1.push (if step.1 then byte ^^^ 1 else byte), step.2)) (earlier, clock)).1.toList =
        earlier.toList ++ flipAll clock rest := by
    induction rest generalizing earlier clock with
    | nil => simp [flipAll]
    | cons byte rest ih => simp [flipAll, ih]
  rw [apply, ← Array.foldl_toList]
  exact general bytes.toList #[] initial

theorem flipAll_eq (clock : Perturbation) (bytes : List UInt8) :
    flipAll clock bytes = List.zipWith (fun byte flip => if flip then byte ^^^ 1 else byte) bytes
      (run bytes.length clock).1 := by
  induction bytes generalizing clock with
  | nil => rfl
  | cons byte rest ih => rw [flipAll, List.length_cons, run, List.zipWith_cons_cons, ih]

/-- The clock's first answers do not depend on how many are asked for. -/
theorem run_get_of_lt {place count : Nat} (inside : place < count) :
    (run count {}).1[place]? = some (flipAt place) := by
  have split := run_add (place + 1) (count - (place + 1)) {}
  rw [Nat.add_sub_cancel' inside, Prod.mk.injEq] at split
  rw [split.1, List.getElem?_append_left (by simp), run_get]

theorem toList_apply (bytes : Array UInt8) :
    (apply bytes).toList =
      bytes.toList.mapIdx fun place byte => if flipAt place then byte ^^^ 1 else byte := by
  rw [apply_eq, flipAll_eq, initial]
  apply List.ext_getElem?
  intro place
  rw [List.getElem?_zipWith, List.getElem?_mapIdx]
  by_cases inside : place < bytes.toList.length
  · rw [run_get_of_lt inside, List.getElem?_eq_getElem inside]
    rfl
  · rw [List.getElem?_eq_none (Nat.not_lt.mp inside)]
    rfl

@[simp]
theorem size_apply (bytes : Array UInt8) : (apply bytes).size = bytes.size := by
  rw [← Array.length_toList, toList_apply, List.length_mapIdx, Array.length_toList]

end Perturbation

namespace Decoder

theorem unperturb_apply (bytes : Array UInt8) :
    unperturb (Perturbation.apply bytes).toList = bytes.toList := by
  apply List.ext_getElem?
  intro place
  rw [Perturbation.toList_apply, unperturb, List.getElem?_mapIdx, List.getElem?_mapIdx,
    Option.map_map]
  cases bytes.toList[place]? with
  | none => rfl
  | some byte =>
    have twice : byte ^^^ 1 ^^^ 1 = byte := by
      rw [UInt8.xor_assoc, UInt8.xor_self, UInt8.xor_zero]
    simp only [Option.map_some, Function.comp_apply]
    rw [← Perturbation.flipAt]
    cases Perturbation.flipAt place with
    | true => exact congrArg some twice
    | false => rfl

end Decoder

end BlockSort
