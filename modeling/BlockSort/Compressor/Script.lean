import BlockSort.Compressor

namespace BlockSort

/-- An entry of a script: the call fails, or consumes and produces at most the given counts. -/
inductive Reply where
  | fail
  | deliver (consumed produced : Nat) (status : Status)

/-- What a call was given. -/
structure Call where
  inputLength : Nat
  room : Nat
  demand : Demand

structure Script where
  replies : List Reply
  /-- The calls so far, the latest first. -/
  calls : List Call := []

namespace Script

/-- Plays the next entry; a script that is used up is done. The bytes produced tell the number of
the call. -/
def play : Compressor Script := fun input room demand script =>
  let calls := ⟨input.length, room, demand⟩ :: script.calls
  match script.replies with
  | [] => .ok ⟨0, [], .done⟩ ⟨[], calls⟩
  | .fail :: replies => .error .lateInput ⟨replies, calls⟩
  | .deliver consumed produced status :: replies =>
    .ok ⟨min consumed input.length,
      List.replicate (min produced room) (UInt8.ofNat calls.length), status⟩ ⟨replies, calls⟩

/-- Drives a script to its end, which comes one call after its last entry at the latest. -/
def perform (input : List UInt8) : EStateM Fault Script (Option (List UInt8)) := fun script =>
  play.drive (script.replies.length + 1) input script

end Script

end BlockSort
