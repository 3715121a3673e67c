import BlockSort.Encoder
import BlockSort.Storage.Framer

/-!
The streaming encoder with its blocks in storage. A framer is made when a member is begun and given
up when it is ended; in between the encoder expects to have one. All calls of framers are on record.
-/
namespace BlockSort

/-- An operation on a state that may fail, and has no result where an expectation is broken. -/
def Guarded (σ α : Type) : Type := σ → Option (EStateM.Result Fault σ α)

namespace Guarded

variable {σ τ α : Type}

instance : Monad (Guarded σ) where
  pure value state := some (.ok value state)
  bind operation next state :=
    match operation state with
    | none => none
    | some (.ok value state) => next value state
    | some (.error fault state) => some (.error fault state)

instance : MonadStateOf σ (Guarded σ) where
  get state := some (.ok state state)
  set state _ := some (.ok () state)
  modifyGet change state := some (.ok (change state).1 (change state).2)

/-- Runs an operation without expectations on a part of the state, which `split` takes out together
with the way to put the state together around a new part. -/
def within (split : σ → τ × (τ → σ)) (operation : EStateM Fault τ α) : Guarded σ α := fun state =>
  some (BlockSort.within split operation state)

end Guarded

/-- A call of a framer, with the framer and the channel as the call has found them. -/
structure Framer.Call where
  request : Framer.Request
  framer : Framer
  channel : Channel

/-- A member in the making with its blocks in storage. -/
structure StoredMember where
  framer : Framer
  channel : Channel
  runs : RunBuilder := {}
  /-- The bytes taken so far, those of earlier members included. -/
  bytesIn : Nat := 0
  /-- The calls of framers so far, the latest first. -/
  calls : List Framer.Call := []

namespace StoredMember

/-- Calls the framer. -/
def call (request : Framer.Request) : Guarded StoredMember Unit :=
  fun ⟨framer, channel, runs, bytesIn, calls⟩ =>
    let calls := ⟨request, framer, channel⟩ :: calls
    (Framer.serve request framer channel).map fun
      | .ok _ ⟨framer, channel⟩ => .ok () ⟨framer, channel, runs, bytesIn, calls⟩
      | .error fault ⟨framer, channel⟩ => .error fault ⟨framer, channel, runs, bytesIn, calls⟩

/-- Takes one byte. It counts only if the run that it completes could be added. -/
def push (byte : UInt8) : Guarded StoredMember Unit := do
  let (run, runs) := (← get).runs.push byte
  modify ({ · with runs })
  match run with
  | some run => call (.run run)
  | none => pure ()
  modify fun member => { member with bytesIn := member.bytesIn + 1 }

/-- Takes bytes in order and stops at the first that fails. -/
def pushAll : List UInt8 → Guarded StoredMember Unit
  | [] => pure ()
  | byte :: rest => do
    push byte
    pushAll rest

/-- Adds the run that could still grow. -/
def endRun : Guarded StoredMember Unit := do
  let runs := (← get).runs
  modify ({ · with runs := {} })
  match runs.growing with
  | some run => call (.run run)
  | none => pure ()

/-- Ends the member: its last run, its last block and its trailer go to the sink, which is then
flushed. -/
def finish : Guarded StoredMember Unit := do
  endRun
  call .endBlock
  call .endStream
  Guarded.within (fun member => (member.channel, ({ member with channel := · })))
    (Channel.onWriter BitWriter.flush)

end StoredMember

/-- Where an encoder is within its current member. -/
inductive Stage where
  | pending
  | opened
  | finished
  | failed
  deriving DecidableEq

structure StoredEncoder where
  level : Level
  channel : Channel := {}
  framer : Option Framer := none
  runs : RunBuilder := {}
  stage : Stage := .pending
  /-- What was counted, but for the blocks that the framer has counted. -/
  totals : Totals := {}
  /-- The calls of framers so far, the latest first. -/
  calls : List Framer.Call := []

namespace StoredEncoder

/-- A new encoder for a sink, to which nothing is written yet. -/
def ofSink (level : Level) (sink : Sink) : StoredEncoder :=
  { level, channel.writer.sink := sink }

/-- The blocks written so far, in all members. -/
def blockCount (encoder : StoredEncoder) : Nat :=
  encoder.totals.blocks + (encoder.framer.map Framer.written).getD 0

/-- How many of the blocks written were perturbed. -/
def perturbedCount (encoder : StoredEncoder) : Nat :=
  encoder.totals.perturbed + (encoder.framer.map Framer.perturbed).getD 0

/-- Fails if an earlier fault has stopped the encoder. -/
def refuseIfFailed : Guarded StoredEncoder Unit := fun encoder =>
  if encoder.stage = .failed then some (.error .broken encoder) else some (.ok () encoder)

/-- Runs an operation whose fault stops the encoder. -/
def orFail (operation : Guarded StoredEncoder Unit) : Guarded StoredEncoder Unit := fun encoder =>
  (operation encoder).map fun
    | .ok _ encoder => .ok () encoder
    | .error fault encoder => .error fault { encoder with stage := .failed }

/-- Runs an operation of the channel. -/
def onChannel (operation : EStateM Fault Channel Unit) : Guarded StoredEncoder Unit :=
  Guarded.within (fun encoder => (encoder.channel, ({ encoder with channel := · }))) operation

/-- Runs an operation of the open member. It is expected that there is a framer. -/
def onMember (operation : Guarded StoredMember Unit) : Guarded StoredEncoder Unit :=
  fun ⟨level, channel, framer, runs, stage, totals, calls⟩ => do
    let join : StoredMember → StoredEncoder := fun ⟨framer, channel, runs, bytesIn, calls⟩ =>
      ⟨level, channel, some framer, runs, stage, { totals with bytesIn }, calls⟩
    match ← operation ⟨← framer, channel, runs, totals.bytesIn, calls⟩ with
    | .ok _ member => some (.ok () (join member))
    | .error fault member => some (.error fault (join member))

/-- Writes a header and opens a member. -/
def startMember : Guarded StoredEncoder Unit := do
  onChannel (Channel.emit [.fields (Mark.member.map .byte)])
  modify fun encoder => { encoder with framer := some (encoder.framer.getD (.ofLevel encoder.level)) }
  onMember (StoredMember.call .start)
  modify fun encoder =>
    let members := encoder.totals.members + 1
    { encoder with
      channel := encoder.channel.note (.memberStarted members encoder.level)
      runs := {}
      stage := .opened
      totals.members := members }

/-- Opens a member unless one is open. -/
def openIfNone : Guarded StoredEncoder Unit := do
  unless (← get).stage = .opened do startMember

/-- Takes bytes. A member is opened for them unless one is open. -/
def feed (bytes : List UInt8) : Guarded StoredEncoder Unit := do
  openIfNone
  onMember (StoredMember.pushAll bytes)

/-- Compresses bytes. Without any, no member is opened. -/
def write (bytes : List UInt8) : Guarded StoredEncoder Unit := do
  refuseIfFailed
  unless bytes.isEmpty do orFail (feed bytes)

/-- Ends the open member and gives its framer up. It is expected that there is one, and its counts
are taken over whether the member could be ended or not. -/
def endMember : Guarded StoredEncoder Unit :=
  fun ⟨level, channel, framer, runs, _, totals, calls⟩ => do
    let settle : StoredMember → StoredEncoder := fun ⟨framer, channel, runs, bytesIn, calls⟩ =>
      let totals := { totals with
        bytesIn
        blocks := totals.blocks + framer.written
        perturbed := totals.perturbed + framer.perturbed }
      ⟨level, channel, none, runs, .finished, totals, calls⟩
    match ← StoredMember.finish ⟨← framer, channel, runs, totals.bytesIn, calls⟩ with
    | .ok _ member =>
      let encoder := settle member
      some (.ok () { encoder with
        channel := encoder.channel.note (.memberFinished encoder.totals.members
          encoder.totals.bytesIn encoder.channel.writer.completed) })
    | .error fault member => some (.error fault (settle member))

/-- Ends the current member. If none was ever begun, an empty one is written. -/
def finish : Guarded StoredEncoder Unit := do
  refuseIfFailed
  orFail do
    let encoder ← get
    match encoder.stage with
    | .finished | .failed => pure ()
    | .pending =>
      if 0 < encoder.totals.members then modify ({ · with stage := .finished })
      else
        startMember
        endMember
    | .opened => endMember

/-- Lets the next byte begin a new member. An open one is finished first. -/
def reset : Guarded StoredEncoder Unit := do
  refuseIfFailed
  if (← get).stage = .opened then finish
  modify ({ · with stage := .pending })

/-- Gives the sink all complete bytes and flushes it. No block is ended for it. -/
def flush : Guarded StoredEncoder Unit := do
  refuseIfFailed
  orFail (onChannel (Channel.onWriter BitWriter.flush))

/-- Ends the output; the sink can then be taken from the encoder. -/
def close : Guarded StoredEncoder Unit := do
  finish
  onChannel (Channel.onWriter BitWriter.finish)

/-- Compresses a byte string with its blocks in storage. There is no result if a place is missed or
an expectation is broken. -/
def compress (bytes : List UInt8) (level : Level) : Option (Except Fault (Array UInt8)) := do
  let whole : Guarded StoredEncoder Unit := do
    write bytes
    close
  match ← whole (ofSink level {}) with
  | .ok _ encoder => some (.ok encoder.channel.writer.sink.data)
  | .error fault _ => some (.error fault)

end StoredEncoder

end BlockSort
