import BlockSort.Member

/-!
The streaming encoder. Its output is a sequence of members, each of which can be decoded alone.
A member's header is written with its first byte, and the end of a member is asked for. The first
fault stops the encoder for good.
-/
namespace BlockSort

/-- Where an encoder is within its current member. -/
inductive Phase where
  /-- The next byte begins a member. -/
  | fresh
  /-- A header was written, and blocks may have been. -/
  | opened (series : Series) (runs : RunBuilder)
  /-- A trailer was written; the next byte begins another member. -/
  | closed
  /-- A fault left a member incomplete. -/
  | broken

/-- What an encoder has counted over all members. -/
structure Totals where
  bytesIn : Nat := 0
  /-- The members begun. -/
  members : Nat := 0
  /-- The blocks of members that are no longer open. -/
  blocks : Nat := 0
  /-- How many of these blocks were perturbed. -/
  perturbed : Nat := 0

structure Encoder where
  level : Level
  channel : Channel := {}
  phase : Phase := .fresh
  totals : Totals := {}

namespace Encoder

/-- A new encoder for a sink, to which nothing is written yet. -/
def ofSink (level : Level) (sink : Sink) : Encoder := { level, channel.writer.sink := sink }

def sink (encoder : Encoder) : Sink := encoder.channel.writer.sink

def bytesIn (encoder : Encoder) : Nat := encoder.totals.bytesIn

/-- The compressed bytes completed so far, whether or not the sink has them. -/
def bytesOut (encoder : Encoder) : Nat := encoder.channel.writer.completed

def isBroken (encoder : Encoder) : Bool :=
  match encoder.phase with
  | .broken => true
  | _ => false

/-- The blocks written so far, in all members. -/
def blockCount (encoder : Encoder) : Nat :=
  match encoder.phase with
  | .opened series _ => encoder.totals.blocks + series.written
  | _ => encoder.totals.blocks

/-- How many of the blocks written were perturbed. -/
def perturbedCount (encoder : Encoder) : Nat :=
  match encoder.phase with
  | .opened series _ => encoder.totals.perturbed + series.perturbed
  | _ => encoder.totals.perturbed

/-- Leaves the open member, if there is one, for another phase, and keeps its counts. -/
def leave (encoder : Encoder) (phase : Phase) : Encoder :=
  { encoder with
    phase
    totals.blocks := encoder.blockCount
    totals.perturbed := encoder.perturbedCount }

/-- Fails if an earlier fault has stopped the encoder. -/
def refuseIfBroken : EStateM Fault Encoder Unit := fun encoder =>
  if encoder.isBroken then .error .broken encoder else .ok () encoder

/-- Runs an operation whose fault stops the encoder. -/
def orBreak (operation : EStateM Fault Encoder Unit) : EStateM Fault Encoder Unit := fun encoder =>
  match operation encoder with
  | .ok _ encoder => .ok () encoder
  | .error fault encoder => .error fault (encoder.leave .broken)

/-- Writes a header and opens a member. -/
def openMember : EStateM Fault Encoder Unit := fun ⟨level, channel, phase, totals⟩ =>
  let opening : EStateM Fault Press Unit := do
    Press.onChannel (Channel.emit [.fields (Mark.member.map .byte)])
    Press.openMember
  match opening ⟨.ofLevel level, channel⟩ with
  | .ok _ ⟨series, channel⟩ =>
    let totals := { totals with members := totals.members + 1 }
    .ok () ⟨level, channel.note (.memberStarted totals.members level), .opened series {}, totals⟩
  | .error fault ⟨_, channel⟩ => .error fault ⟨level, channel, phase, totals⟩

/-- Opens a member unless one is open. -/
def openIfNone : EStateM Fault Encoder Unit := fun encoder =>
  match encoder.phase with
  | .opened _ _ => .ok () encoder
  | _ => openMember encoder

/-- Runs an operation of the open member. Without one there is nothing to run. -/
def onMember (operation : EStateM Fault Member Unit) : EStateM Fault Encoder Unit
  | ⟨level, channel, .opened series runs, totals⟩ =>
    let join : Member → Encoder := fun ⟨⟨series, channel⟩, runs, bytesIn⟩ =>
      ⟨level, channel, .opened series runs, { totals with bytesIn }⟩
    match operation ⟨⟨series, channel⟩, runs, totals.bytesIn⟩ with
    | .ok _ member => .ok () (join member)
    | .error fault member => .error fault (join member)
  | encoder => .ok () encoder

/-- Runs an operation of the bit writer. -/
def onWriter (operation : EStateM Fault BitWriter Unit) : EStateM Fault Encoder Unit :=
  within (fun ⟨level, channel, phase, totals⟩ => (channel, (⟨level, ·, phase, totals⟩)))
    (Channel.onWriter operation)

/-- Compresses bytes. Without any, no member is opened. -/
def write (bytes : List UInt8) : EStateM Fault Encoder Unit := do
  refuseIfBroken
  unless bytes.isEmpty do
    orBreak do
      openIfNone
      onMember (Member.pushAll bytes)

/-- Ends the open member and counts its blocks. -/
def endMember : EStateM Fault Encoder Unit := do
  onMember Member.finish
  modify fun encoder =>
    let encoder := encoder.leave .closed
    { encoder with
      channel := encoder.channel.note
        (.memberFinished encoder.totals.members encoder.bytesIn encoder.bytesOut) }

/-- Ends the current member. If none was ever begun, an empty one is written. -/
def finish : EStateM Fault Encoder Unit := do
  refuseIfBroken
  orBreak do
    let encoder ← get
    match encoder.phase with
    | .opened _ _ => endMember
    | .fresh =>
      if encoder.totals.members = 0 then
        openMember
        endMember
      else modify ({ · with phase := .closed })
    | .closed | .broken => pure ()

/-- Lets the next byte begin a new member. An open one is finished first. -/
def reset : EStateM Fault Encoder Unit := do
  refuseIfBroken
  match (← get).phase with
  | .opened _ _ => finish
  | _ => pure ()
  modify ({ · with phase := .fresh })

/-- Gives the sink all complete bytes and flushes it. No block is ended for it. -/
def flush : EStateM Fault Encoder Unit := do
  refuseIfBroken
  orBreak (onWriter BitWriter.flush)

/-- Ends the output; the sink can then be taken from the encoder. -/
def close : EStateM Fault Encoder Unit := do
  finish
  onWriter BitWriter.finish

/-- Adds bytes to the sink past the encoder. -/
def appendToSink (encoder : Encoder) (bytes : List UInt8) : Encoder :=
  { encoder with channel.writer.sink := encoder.sink.append bytes }

/-- The encoder as a sink: takes all of the bytes and tells how many they are. -/
def sinkWrite (bytes : List UInt8) : EStateM SinkError Encoder Nat :=
  EStateM.adaptExcept Fault.toSinkError do
    write bytes
    pure bytes.length

/-- The encoder as a sink that is flushed. -/
def sinkFlush : EStateM SinkError Encoder Unit := EStateM.adaptExcept Fault.toSinkError flush

end Encoder

/-- The compressed form of a byte string, with the journal of its events. -/
def compressWithJournal (bytes : List UInt8) (level : Level) :
    Except Fault (Array UInt8) × List Event :=
  let whole : EStateM Fault Encoder Unit := do
    Encoder.write bytes
    Encoder.close
  match whole (.ofSink level {}) with
  | .ok _ encoder => (.ok encoder.sink.data, encoder.channel.journal.reverse)
  | .error fault encoder => (.error fault, encoder.channel.journal.reverse)

/-- Compresses a byte string. -/
def compress (bytes : List UInt8) (level : Level) : Except Fault (Array UInt8) :=
  (compressWithJournal bytes level).1

end BlockSort
