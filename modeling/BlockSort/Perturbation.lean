import BlockSort.Perturbation.Steps

/-!
The perturbation of a block that is too repetitive to sort: the low bit of some bytes is flipped,
at positions that depend on nothing but the table of steps. A second perturbation undoes the first.
-/
namespace BlockSort

/-- Where a perturbation stands: how many bytes remain of the current step, and which step of the
table comes next. -/
structure Perturbation where
  remaining : Nat := 0
  next : Fin 512 := 0

namespace Perturbation

/-- Where the perturbation of a block begins. -/
def initial : Perturbation := {}

/-- Passes one byte, and tells whether it is to be flipped: it is the last but one of its step. -/
def advance (clock : Perturbation) : Bool × Perturbation :=
  let (remaining, next) :=
    if clock.remaining = 0 then (steps[clock.next], clock.next + 1)
    else (clock.remaining, clock.next)
  (remaining - 1 = 1, ⟨remaining - 1, next⟩)

/-- Perturbs a whole block. -/
def apply (bytes : Array UInt8) : Array UInt8 :=
  (bytes.foldl (fun (perturbed, clock) byte =>
    let (flip, clock) := advance clock
    (perturbed.push (if flip then byte ^^^ 1 else byte), clock)) (#[], ({} : Perturbation))).1

end Perturbation

end BlockSort
