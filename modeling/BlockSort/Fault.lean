namespace BlockSort

/-- The ways in which a byte sink refuses a request. -/
inductive Refusal where
  | brokenPipe
  | wouldBlock
  | interrupted
  | storageFull
  | permissionDenied
  | writeZero
  | other
  deriving DecidableEq

/-- A sink's own report of a refused request. -/
structure SinkError where
  kind : Refusal
  message : String
  deriving DecidableEq

/-- A sink that takes no byte of a write will never take them all. -/
def SinkError.noProgress : SinkError :=
  ⟨.writeZero, "failed to write whole buffer"⟩

/-- Why an operation fails. -/
inductive Fault where
  | sink (error : SinkError)
  | invalidSetting (setting requirement : String)
  | fieldTooWide (width limit : Nat)
  /-- Input after the end of the output was asked for. -/
  | lateInput
  /-- An operation of an encoder that an earlier fault has stopped. -/
  | broken
  deriving DecidableEq

namespace Fault

def message : Fault → String
  | .sink error => "I/O error: " ++ error.message
  | .invalidSetting setting requirement => "Invalid " ++ setting ++ ": " ++ requirement
  | .fieldTooWide width limit =>
    "Invalid bit count: " ++ width.repr ++ " exceeds maximum of " ++ limit.repr
  | .lateInput => "Stream already finished"
  | .broken => "Encoder failed earlier; output stream is incomplete"

/-- The report for callers that know sink errors only: a sink's error is passed on as it is, any
other fault becomes an error of kind `other` with the fault's own text. -/
def toSinkError : Fault → SinkError
  | .sink error => error
  | fault => ⟨.other, fault.message⟩

end Fault

/-- Runs an operation on a part of the state, which `split` takes out together with the way to put
the state together around a new part. An operation that fails changes its part as well. -/
@[inline]
def within {ε σ τ α : Type} (split : σ → τ × (τ → σ)) (operation : EStateM ε τ α) : EStateM ε σ α := fun state =>
  match split state with
  | (part, join) =>
    match operation part with
    | .ok value part => .ok value (join part)
    | .error fault part => .error fault (join part)

end BlockSort
