import BlockSort.Series

namespace BlockSort

structure Press where
  series : Series
  channel : Channel

namespace Press

/-- Runs an operation of the channel. -/
def onChannel (operation : EStateM Fault Channel Unit) : EStateM Fault Press Unit :=
  within (fun ⟨series, channel⟩ => (channel, (⟨series, ·⟩))) operation

/-- Begins a member. -/
def openMember : EStateM Fault Press Unit := fun ⟨series, channel⟩ =>
  onChannel (Channel.emit [.fields series.headerFields]) ⟨series.restart, channel⟩

/-- Writes the block, if it holds anything, and begins a new one. A block that cannot be written
stays as it was sorted. -/
def writeBlock : EStateM Fault Press Unit := fun ⟨series, channel⟩ =>
  if series.block.isEmpty then .ok () ⟨series, channel⟩
  else
    let sorted := series.block.sort
    let series := series.withSorted sorted
    match Channel.emit (sorted.emissions (series.written + 1)) channel with
    | .ok _ channel => .ok () ⟨series.advance, channel⟩
    | .error fault channel => .error fault ⟨series, channel⟩

def append : Press → Run → Press
  | ⟨series, channel⟩, run => ⟨series.append run, channel⟩

/-- Adds a run. A full block is written first, and the run begins the next one. -/
def add (run : Run) : EStateM Fault Press Unit := fun press =>
  if press.series.block.isFull then
    match writeBlock press with
    | .ok _ press => .ok () (press.append run)
    | .error fault press => .error fault press
  else .ok () (press.append run)

/-- Adds runs in order and stops at the first that fails. -/
def addAll : List Run → EStateM Fault Press Unit
  | [], press => .ok () press
  | run :: rest, press =>
    match add run press with
    | .ok _ press => addAll rest press
    | .error fault press => .error fault press

/-- Ends a member: writes the trailer and completes its last byte. -/
def writeTrailer : EStateM Fault Press Unit := do
  onChannel (Channel.emit (← get).series.trailerEmissions)
  onChannel (Channel.onWriter BitWriter.finish)

end Press

end BlockSort
