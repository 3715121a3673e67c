import BlockSort.Fault

/-!
The contract of a compressor that is driven call by call: each call takes a piece of the input and
has limited room for output. Whoever drives it repeats calls until all output is delivered.
-/
namespace BlockSort

/-- What a call tells about the next one. -/
inductive Status where
  | needsInput
  /-- Output waits for room. -/
  | needsOutput
  | done
  deriving DecidableEq

/-- What a call demands beyond taking its input. -/
inductive Demand where
  | none
  /-- Deliver what is already complete. -/
  | sync
  /-- End the current stream; the next input begins a new one. -/
  | full
  /-- Complete the output. -/
  | finish
  deriving DecidableEq

instance : Inhabited Demand := ⟨.none⟩

/-- The answer to a call. -/
structure Delivery where
  consumed : Nat
  produced : List UInt8
  status : Status

/-- A state machine that answers calls with input, room for output, and a demand. -/
abbrev Compressor (σ : Type) := List UInt8 → Nat → Demand → EStateM Fault σ Delivery

namespace Compressor

variable {σ : Type}

/-- The room for output that a driven call has. -/
def driveRoom : Nat := 32768

/-- Calls a compressor until it is done, at most `calls` times. Each call is given all of the
input that is left, and demands to finish when there is none. The output of earlier calls is given
in reverse. -/
def driveAfter (compressor : Compressor σ) :
    (calls : Nat) → (input output : List UInt8) → EStateM Fault σ (Option (List UInt8))
  | 0, _, _, state => .ok none state
  | calls + 1, input, output, state =>
    match compressor input driveRoom (if input.isEmpty then .finish else .none) state with
    | .ok delivery state =>
      let output := delivery.produced.reverseAux output
      if delivery.status = .done then .ok (some output.reverse) state
      else driveAfter compressor calls (input.drop delivery.consumed) output state
    | .error fault state => .error fault state

/-- The output for all of the input, if the compressor is done after at most `calls` calls. -/
def drive (compressor : Compressor σ) (calls : Nat) (input : List UInt8) :
    EStateM Fault σ (Option (List UInt8)) :=
  driveAfter compressor calls input []

end Compressor

end BlockSort
