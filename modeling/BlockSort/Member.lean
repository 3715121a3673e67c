import BlockSort.Press

namespace BlockSort

structure Member where
  press : Press
  runs : RunBuilder := {}
  /-- The bytes taken so far, those of earlier members included. -/
  bytesIn : Nat := 0

namespace Member

/-- Takes one byte. It counts only if the run that it completes could be added. -/
def push (byte : UInt8) : EStateM Fault Member Unit := fun ⟨press, runs, bytesIn⟩ =>
  match runs.push byte with
  | (none, runs) => .ok () ⟨press, runs, bytesIn + 1⟩
  | (some run, runs) =>
    match Press.add run press with
    | .ok _ press => .ok () ⟨press, runs, bytesIn + 1⟩
    | .error fault press => .error fault ⟨press, runs, bytesIn⟩

/-- Takes bytes in order and stops at the first that fails. -/
def pushAll : List UInt8 → EStateM Fault Member Unit
  | [], member => .ok () member
  | byte :: rest, member =>
    match push byte member with
    | .ok _ member => pushAll rest member
    | .error fault member => .error fault member

/-- Runs an operation of the press. -/
def onPress (operation : EStateM Fault Press Unit) : EStateM Fault Member Unit :=
  within (fun ⟨press, runs, bytesIn⟩ => (press, (⟨·, runs, bytesIn⟩))) operation

/-- Adds the run that could still grow. -/
def endRun : EStateM Fault Member Unit := do
  let runs := (← get).runs
  modify ({ · with runs := {} })
  match runs.growing with
  | some run => onPress (Press.add run)
  | none => pure ()

/-- Ends the member: its last run, its last block and its trailer go to the sink, which is then
flushed. -/
def finish : EStateM Fault Member Unit := do
  endRun
  onPress Press.writeBlock
  onPress Press.writeTrailer
  onPress (Press.onChannel (Channel.onWriter BitWriter.flush))

end Member

end BlockSort
