import BlockSort.Press
import BlockSort.Storage.Workspace

/-!
The blocks of a member in their storage. A framer does what a press does with a series of blocks,
but in arrays that are made once: blocks, members and failures all leave something in them.
-/
namespace BlockSort

structure Framer where
  level : Level
  store : BlockStore
  workspace : Workspace
  /-- The chained checksum of the member's complete blocks. -/
  combined : UInt32 := 0
  written : Nat := 0
  /-- How many of the blocks written were perturbed. -/
  perturbed : Nat := 0

/-- A framer at work on a channel. -/
structure FramerPress where
  framer : Framer
  channel : Channel

namespace Framer

def ofLevel (level : Level) : Framer :=
  { level
    store := .ofSize level.blockSize
    workspace := .ofSize level.blockSize }

/-- How a call ends, if no place is missed and no expectation is broken. -/
abbrev Outcome := Option (EStateM.Result Fault FramerPress Unit)

/-- The fields that every member begins with, after its first mark. -/
def headerFields (framer : Framer) : List Field :=
  [.byte Mark.coding, .byte framer.level.digit]

/-- Begins a member. -/
def start (framer : Framer) (channel : Channel) : Outcome :=
  let framer := { framer with combined := 0, store := framer.store.cleared }
  match Channel.emit [.fields framer.headerFields] channel with
  | .ok _ channel => some (.ok () ⟨framer, channel⟩)
  | .error fault channel => some (.error fault ⟨framer, channel⟩)

/-- The header of a block without its symbol map. -/
def blockFields (store : BlockStore) (origin : Nat) : List Field :=
  Mark.block.map .byte ++ Field.word store.crc.value ++
    [.bit store.perturbed, ⟨UInt32.ofNat origin, 24⟩]

/-- Codes the sorted block. What was coded is given only if all of it was written. -/
def writeCoded (store : BlockStore) (workspace : Workspace) (channel : Channel) :
    Option (Workspace × EStateM.Result Fault Channel CodingSpace.Summary) := do
  let ⟨sorting, coding⟩ := workspace
  let (alphabet, coding) ← coding.generate store sorting.order
  match Channel.emit [.fields store.present.mapFields] channel with
  | .error fault channel => some (⟨sorting, coding⟩, .error fault channel)
  | .ok _ channel =>
    let (emissions, summary, coding) ← coding.code alphabet
    match Channel.emit emissions channel with
    | .error fault channel => some (⟨sorting, coding⟩, .error fault channel)
    | .ok _ channel => some (⟨sorting, coding⟩, .ok summary channel)

/-- Writes the block, if it holds anything, and begins a new one. -/
def endBlock (framer : Framer) (channel : Channel) : Outcome :=
  if framer.store.size = 0 then some (.ok () ⟨framer, channel⟩)
  else do
    let ⟨level, store, ⟨sorting, coding⟩, combined, written, perturbed⟩ := framer
    let crc := store.crc.value
    let combined := Crc.chain combined crc
    let (origin, overrun, store, sorting) ← store.sort sorting
    let channel := (overrun.map fun overrun =>
      Event.sortOverrun overrun.work overrun.limit store.size).elim channel channel.note
    match Channel.emit [.fields (blockFields store origin)] channel with
    | .error fault channel =>
      some (.error fault ⟨⟨level, store, ⟨sorting, coding⟩, combined, written, perturbed⟩, channel⟩)
    | .ok _ channel =>
      let (workspace, coded) ←
        writeCoded store (Workspace.beginCoding ⟨sorting, coding⟩) channel
      let workspace := workspace.endCoding
      match coded with
      | .error fault channel =>
        some (.error fault ⟨⟨level, store, workspace, combined, written, perturbed⟩, channel⟩)
      | .ok summary channel =>
        let channel := channel.note (.blockWritten (written + 1) store.size crc origin
          store.perturbed summary.symbols summary.tables summary.selectors)
        let perturbed := if store.perturbed then perturbed + 1 else perturbed
        some (.ok ()
          ⟨⟨level, store.cleared, workspace, combined, written + 1, perturbed⟩, channel⟩)

theorem endBlock_emptied {framer after : Framer} {channel left : Channel}
    (ended : endBlock framer channel = some (.ok () ⟨after, left⟩)) : after.store.size = 0 := by
  rw [endBlock] at ended
  split at ended
  · rename_i empty
    cases ended
    exact empty
  · simp only [Option.bind_eq_bind, Option.bind_eq_some_iff] at ended
    obtain ⟨⟨origin, overrun, store, sorting⟩, -, ended⟩ := ended
    simp only at ended
    split at ended
    · cases ended
    · obtain ⟨⟨workspace, coded⟩, -, ended⟩ := Option.bind_eq_some_iff.mp ended
      cases coded with
      | error fault channel => cases ended
      | ok summary channel =>
        cases ended
        rfl

/-- Adds a run. As long as the block is full, it is written first. -/
def pushRun (run : Run) (framer : Framer) (channel : Channel) : Outcome :=
  match offered : framer.store.offer run with
  | none => none
  | some (true, store) => some (.ok () ⟨{ framer with store }, channel⟩)
  | some (false, store) =>
    match ended : endBlock { framer with store } channel with
    | none => none
    | some (.error fault press) => some (.error fault press)
    | some (.ok () ⟨framer, channel⟩) => pushRun run framer channel
termination_by framer.store.size
decreasing_by
  rw [endBlock_emptied ended]
  exact BlockStore.size_pos_of_offer offered

/-- Ends a member: writes the trailer and completes its last byte. -/
def endStream (framer : Framer) (channel : Channel) : Outcome :=
  let trailer : List Emission :=
    [.fields (Mark.trailer.map .byte ++ Field.word framer.combined),
      .note (.trailerWritten framer.combined)]
  let ending : EStateM Fault Channel Unit := do
    Channel.emit trailer
    Channel.onWriter BitWriter.finish
  match ending channel with
  | .ok _ channel => some (.ok () ⟨framer, channel⟩)
  | .error fault channel => some (.error fault ⟨framer, channel⟩)

/-- A call of a framer. -/
inductive Request where
  | start
  | run (run : Run)
  | endBlock
  | endStream

/-- Answers a call. -/
def serve : Request → Framer → Channel → Outcome
  | .start => start
  | .run run => pushRun run
  | .endBlock => endBlock
  | .endStream => endStream

end Framer

end BlockSort
